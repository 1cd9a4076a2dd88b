import FlowTrace.Proofs.Dataflow.Assigned
import FlowTrace.Proofs.Lattice.Laws

/-!
# Replaying assignments

The effect of a node on a map of constants, in the order that the lattice of maps computes.  There a
missing name counts as an undefined one, so it is the order of lookups.  An assignment keeps that
order and only raises its target, and so do all assignments of a node, one after the other.
-/

namespace FlowTrace

namespace Constants

variable {m n : ConstMap} {i : Instr} {x : String}

/-! ## One assignment -/

theorem assign_of_defines?_eq_none (m : ConstMap) (h : i.defines? = none) : assign m i = m := by
  simp [assign, h]

theorem lookup_assign {c : Const} (h : i.defines? = some x) (hc : eval? m i.body = some c) :
    (assign m i).lookup = Function.update m.lookup x (m.lookup x ⊔ c) := by
  simp only [assign, h, hc, ConstMap.lookup_insert, Const.sup_eq_join]

/-- More knowledge before an instruction gives more knowledge after it. -/
theorem lookup_assign_mono (i : Instr) (h : m.lookup ≤ n.lookup) :
    (assign m i).lookup ≤ (assign n i).lookup := by
  cases hx : i.defines? with
  | none =>
    rw [assign_of_defines?_eq_none m hx, assign_of_defines?_eq_none n hx]
    exact h
  | some x =>
    obtain ⟨c, hc⟩ := exists_eval? m hx
    obtain ⟨d, hd, hcd⟩ := eval?_mono (fun y _ => h y) hc
    rw [lookup_assign hx hc, lookup_assign hx hd, update_le_update_iff]
    exact ⟨sup_le_sup (h x) hcd, fun y _ => h y⟩

/-- The value is joined to what was known, so nothing is forgotten. -/
theorem lookup_le_assign (m : ConstMap) (i : Instr) : m.lookup ≤ (assign m i).lookup := by
  cases hx : i.defines? with
  | none => rw [assign_of_defines?_eq_none m hx]
  | some x =>
    obtain ⟨c, hc⟩ := exists_eval? m hx
    rw [lookup_assign hx hc, le_update_iff]
    exact ⟨le_sup_left, fun _ _ => le_rfl⟩

/-! ## All assignments -/

theorem lookup_replay_mono (instrs : List Instr) (h : m.lookup ≤ n.lookup) :
    (replay instrs m).lookup ≤ (replay instrs n).lookup := by
  induction instrs generalizing m n with
  | nil => exact h
  | cons i instrs ih => exact ih (lookup_assign_mono i h)

theorem lookup_le_replay (instrs : List Instr) (m : ConstMap) :
    m.lookup ≤ (replay instrs m).lookup := by
  induction instrs generalizing m with
  | nil => exact le_rfl
  | cons i instrs ih => exact (lookup_le_assign m i).trans (ih (assign m i))

theorem mem_keys_replay {instrs : List Instr} :
    x ∈ (replay instrs m).keys ↔ x ∈ m.keys ∨ ∃ i ∈ instrs, i.defines? = some x := by
  have hdomain := congrArg (x ∈ ·) (domain_foldl_learn instrs m.reading)
  rw [← reading_replay] at hdomain
  rw [ConstMap.mem_keys_iff_reading, ConstMap.mem_keys_iff_reading]
  exact iff_of_eq hdomain

/-! ## The effect of a node -/

theorem replay?_eq {g : FlowGraph} {n : NodeId} (hn : n ∈ g.nodes) (m : ConstMap) :
    replay? g n m = some (replay (definitionsOf g n) m) := by
  rw [replay?, definitions, FlowGraph.get?_tabulate, if_pos hn, Option.map_some]

/-- **The effect of a node on maps of constants.**  What assignments give grows with what is known,
whatever their form and their operator.  So a larger map has a larger effect, and the effect is
above the map; it has the names of the map and the variables that the node writes, and no others. -/
theorem replay_mono_extensive {g : FlowGraph} {n : NodeId} (hn : n ∈ g.nodes) {env env' : ConstMap}
    (h : ConstMap.lattice.leq env env' = true) :
    (∀ i : Instr, i.isAssignment = true → ∃ c c', eval? env i.body = some c ∧
      eval? env' i.body = some c' ∧ c.leq c' = true) ∧
    ∃ out out', replay? g n env = some out ∧ replay? g n env' = some out' ∧
      ConstMap.lattice.leq out out' = true ∧
      ConstMap.lattice.leq env out = true ∧
      ∀ x, x ∈ out.keys ↔ x ∈ env.keys ∨ ∃ i ∈ g.coveredBy n, g.program.Writes i x := by
  rw [ConstMap.leq_iff] at h
  refine ⟨fun i hi => ?_, _, _, replay?_eq hn env, replay?_eq hn env', ?_, ?_, fun x => ?_⟩
  · obtain ⟨x, hx⟩ := Option.isSome_iff_exists.mp hi
    obtain ⟨c, hc⟩ := exists_eval? env hx
    obtain ⟨c', hc', hle⟩ := eval?_mono (fun y _ => h y) hc
    exact ⟨c, c', hc, hc', hle⟩
  · exact ConstMap.leq_iff.mpr (lookup_replay_mono _ h)
  · exact ConstMap.leq_iff.mpr (lookup_le_replay _ env)
  · rw [mem_keys_replay, exists_definitionsOf_iff]

/-- The block of a loop, where nothing is known of the counter first and then its start. -/
theorem countdown_replay_mono_extensive :
    let g := Program.countdown.graph .blocks
    let env : ConstMap := .ofList [("m", .nac)]
    let env' : ConstMap := .ofList [("n", .known 3), ("m", .nac)]
    1 ∈ g.nodes ∧ ConstMap.lattice.leq env env' = true ∧
    ∃ out out', replay? g 1 env = some out ∧ replay? g 1 env' = some out' ∧
      ConstMap.lattice.leq out out' = true ∧
      ConstMap.lattice.leq env out = true ∧
      ∀ x, x ∈ out.keys ↔ x ∈ env.keys ∨ ∃ i ∈ g.coveredBy 1, g.program.Writes i x := by
  intro g env env'
  have hnode : 1 ∈ g.nodes := by decide
  have hleq : ConstMap.lattice.leq env env' = true := by decide
  exact ⟨hnode, hleq, (replay_mono_extensive hnode hleq).2⟩

end Constants

end FlowTrace
