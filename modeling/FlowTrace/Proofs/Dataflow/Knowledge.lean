import FlowTrace.Dataflow.Constants
import FlowTrace.Proofs.Dataflow.Fixpoint
import FlowTrace.Proofs.Lattice.Constants
import FlowTrace.Proofs.Lattice.Names

/-!
# What is known of the variables

Constant propagation read in functions from names to constants.  An assignment learns something
about its target from what is known of its operands; what it learns grows with what is known, and
what a node learns is what its assignments learn one after the other.  So the runs of constant
propagation end in the least solution of their equations.
-/

namespace FlowTrace

/-- What is known of each name; `⊥` for a name that never was a target. -/
abbrev Knowledge := String → WithBot Const

namespace Constants

/-! ## Operators on constants -/

theorem evalUnary_mono (op : UnaryOp) : Monotone (evalUnary op) := by
  intro a b h
  rcases Const.le_iff.mp h with rfl | rfl | rfl
  · exact bot_le
  · exact Const.le_nac _
  · exact le_rfl

theorem evalBinary_mono (op : BinaryOp) {a a' b b' : Const} (ha : a ≤ a') (hb : b ≤ b') :
    evalBinary op a b ≤ evalBinary op a' b' := by
  rcases Const.le_iff.mp ha with rfl | rfl | rfl
  · rcases Const.le_iff.mp hb with rfl | rfl | rfl
    · exact bot_le
    · cases a' <;> exact Const.le_nac _
    · cases b with
      | unset => exact bot_le
      | known n => exact bot_le
      | nac => cases a' <;> exact Const.le_nac _
  · exact Const.le_nac _
  · rcases Const.le_iff.mp hb with rfl | rfl | rfl
    · cases a with
      | unset => exact bot_le
      | known n => exact bot_le
      | nac => exact le_rfl
    · cases a <;> exact Const.le_nac _
    · exact le_rfl

theorem resolve_mono {m n : ConstMap} {o : Operand}
    (h : ∀ x, o.name? = some x → m.lookup x ≤ n.lookup x) : resolve m o ≤ resolve n o := by
  cases o with
  | var x => exact h x rfl
  | lit v => exact le_rfl

/-- The value of an assignment grows with what is known of its operands. -/
theorem eval?_mono {m n : ConstMap} {i : Instr} {c : Const}
    (h : ∀ x ∈ i.reads, m.lookup x ≤ n.lookup x) (hc : eval? m i.body = some c) :
    ∃ d, eval? n i.body = some d ∧ c ≤ d := by
  have hresolve : ∀ o ∈ i.body.operands, resolve m o ≤ resolve n o := by
    intro o ho
    exact resolve_mono fun x hx => h x (List.mem_filterMap.mpr ⟨o, ho, hx⟩)
  obtain ⟨line, label, body⟩ := i
  cases body with
  | jump _ | branch _ _ _ _ | branchIf _ _ | branchUnless _ _ => cases hc
  | copy dest source =>
    obtain rfl := Option.some.inj hc
    exact ⟨_, rfl, hresolve source (by simp [Instr.Body.operands])⟩
  | unary dest op operand =>
    obtain rfl := Option.some.inj hc
    exact ⟨_, rfl, evalUnary_mono op (hresolve operand (by simp [Instr.Body.operands]))⟩
  | binary dest left op right =>
    obtain rfl := Option.some.inj hc
    exact ⟨_, rfl, evalBinary_mono op (hresolve left (by simp [Instr.Body.operands]))
      (hresolve right (by simp [Instr.Body.operands]))⟩

/-- Exactly the instructions that have a target have a value. -/
theorem exists_eval? {i : Instr} {x : String} (m : ConstMap) (h : i.defines? = some x) :
    ∃ c, eval? m i.body = some c := by
  obtain ⟨line, label, body⟩ := i
  cases body with
  | jump _ | branch _ _ _ _ | branchIf _ _ | branchUnless _ _ => cases h
  | copy _ _ | unary _ _ _ | binary _ _ _ _ => exact ⟨_, rfl⟩

/-- The value of an assignment depends on its operands only. -/
theorem eval?_congr {m n : ConstMap} {i : Instr} {c d : Const}
    (h : ∀ x ∈ i.reads, m.lookup x = n.lookup x) (hc : eval? m i.body = some c)
    (hd : eval? n i.body = some d) : c = d := by
  obtain ⟨d', hd', hle⟩ := eval?_mono (fun x hx => (h x hx).le) hc
  obtain ⟨c', hc', hge⟩ := eval?_mono (fun x hx => (h x hx).ge) hd
  rw [hd, Option.some.injEq] at hd'
  rw [hc, Option.some.injEq] at hc'
  exact le_antisymm (hd' ▸ hle) (hc' ▸ hge)

/-! ## Learning -/

/-- A map that knows of some names what is known of them. -/
def sample (k : Knowledge) (names : List String) : ConstMap :=
  .ofList (names.map fun x => (x, (k x).unbotD ⊥))

theorem lookup_sample {k : Knowledge} {names : List String} {x : String} (h : x ∈ names) :
    (sample k names).lookup x = (k x).unbotD ⊥ := by
  rw [ConstMap.lookup, Pointwise.lookup, sample, Table.get?_ofList, ← List.map_reverse,
    Table.lookup_map_key, if_pos (List.mem_reverse.mpr h)]
  rfl

theorem lookup_sample_mono {k l : Knowledge} {names : List String} (h : k ≤ l) :
    ∀ x ∈ names, (sample k names).lookup x ≤ (sample l names).lookup x := by
  intro x hx
  rw [lookup_sample hx, lookup_sample hx]
  have hx := h x
  cases hk : k x with
  | bot => exact bot_le
  | coe a =>
    rw [hk, WithBot.coe_le_iff] at hx
    obtain ⟨b, hb, hab⟩ := hx
    rw [hb]
    exact hab

/-- A sample agrees with the map on the operands, and nothing else counts. -/
theorem eval?_sample {i : Instr} {x : String} (m : ConstMap) (h : i.defines? = some x) :
    eval? (sample m.reading i.reads) i.body = eval? m i.body := by
  obtain ⟨c, hc⟩ := exists_eval? (sample m.reading i.reads) h
  obtain ⟨d, hd⟩ := exists_eval? m h
  have hcd : c = d := eval?_congr
    (fun y hy => (lookup_sample hy).trans (ConstMap.lookup_eq m y).symm) hc hd
  rw [hc, hd, hcd]

/-- What is known after an instruction. -/
def learn (k : Knowledge) (i : Instr) : Knowledge :=
  match i.defines?, eval? (sample k i.reads) i.body with
  | some x, some c => Function.update k x (k x ⊔ c)
  | _, _ => k

theorem learn_of_defines?_eq_none {i : Instr} (k : Knowledge) (h : i.defines? = none) :
    learn k i = k := by
  simp [learn, h]

/-- What is learnt of the target of an assignment. -/
theorem learn_of_defines? {i : Instr} {x : String} {c : Const} {k : Knowledge}
    (h : i.defines? = some x) (hc : eval? (sample k i.reads) i.body = some c) :
    learn k i = Function.update k x (k x ⊔ c) := by
  simp [learn, h, hc]

theorem reading_assign (m : ConstMap) (i : Instr) :
    (assign m i).reading = learn m.reading i := by
  cases h : i.defines? with
  | none => simp [assign, h, learn_of_defines?_eq_none]
  | some x =>
    obtain ⟨c, hc⟩ := exists_eval? m h
    rw [learn_of_defines? h ((eval?_sample m h).trans hc), ← ConstMap.coe_join_lookup,
      ← ConstMap.reading_insert]
    simp only [assign, h, hc]

theorem learn_mono (i : Instr) : Monotone (learn · i) := by
  intro k l hkl
  cases h : i.defines? with
  | none =>
    simp only [learn_of_defines?_eq_none _ h]
    exact hkl
  | some x =>
    obtain ⟨c, hc⟩ := exists_eval? (sample k i.reads) h
    obtain ⟨d, hd, hcd⟩ := eval?_mono (lookup_sample_mono hkl) hc
    simp only [learn_of_defines? h hc, learn_of_defines? h hd]
    intro y
    by_cases hy : y = x
    · subst hy
      rw [Function.update_self, Function.update_self]
      exact sup_le_sup (hkl y) (WithBot.coe_le_coe.mpr hcd)
    · rw [Function.update_of_ne hy, Function.update_of_ne hy]
      exact hkl y

theorem reading_replay (instrs : List Instr) (m : ConstMap) :
    (replay instrs m).reading = instrs.foldl learn m.reading := by
  induction instrs generalizing m with
  | nil => rfl
  | cons i instrs ih =>
    rw [List.foldl_cons, ← reading_assign]
    exact ih (assign m i)

theorem foldl_learn_mono (instrs : List Instr) :
    Monotone (instrs.foldl learn : Knowledge → Knowledge) := by
  induction instrs with
  | nil => exact monotone_id
  | cons i instrs ih => exact fun k l h => ih (learn_mono i h)

/-! ## The problem -/

variable {g : FlowGraph} {n : NodeId}

theorem definitionsOf_of_notMem (h : n ∉ g.nodes) : definitionsOf g n = [] := by
  rw [definitionsOf, FlowGraph.instrsOf_of_notMem h]
  rfl

/-- Maps of constants are read as knowledge. -/
def reading (g : FlowGraph) : (problem g).Reading Knowledge where
  described := List.forall_mem_nil _
  read := ConstMap.reading
  effect n k := (definitionsOf g n).foldl learn k
  read_bottom := ConstMap.reading_empty
  eq_iff := ConstMap.eq_iff_reading
  read_join := ConstMap.reading_join
  read_transfer n m := by
    rw [← reading_replay]
    simp only [problem, definitions, FlowGraph.getD_get?_tabulate definitionsOf_of_notMem]
  effect_mono n := foldl_learn_mono _
  read_absorb _ _ h := ConstMap.reading_overlay h

/-- The variables that some node writes. -/
def targets (g : FlowGraph) : NameSet :=
  NameSet.ofList ((definitions g).values.flatten.filterMap (·.defines?))

theorem mem_targets {i : Instr} {x : String} (hn : n ∈ g.nodes) (hi : i ∈ definitionsOf g n)
    (hx : i.defines? = some x) : x ∈ targets g := by
  have hget : (definitions g).get? n = some (definitionsOf g n) := by
    rw [definitions, FlowGraph.get?_tabulate, if_pos hn]
  rw [targets, NameSet.mem_ofList, List.mem_filterMap]
  exact ⟨i, List.mem_flatten.mpr ⟨_, Table.mem_values_iff.mpr ⟨n, hget⟩, hi⟩, hx⟩

/-- How often the knowledge of a name has risen. -/
def level (c : WithBot Const) : Nat :=
  c.recBotCoe 0 fun
    | .unset => 1
    | .known _ => 2
    | .nac => 3

theorem level_le (c : WithBot Const) : level c ≤ 3 := by
  cases c with
  | bot => exact Nat.zero_le 3
  | coe c => cases c <;> simp [level]

theorem level_strictMono : StrictMono level := by
  intro a b h
  cases b with
  | bot => exact absurd h not_lt_bot
  | coe b =>
    cases a with
    | bot => cases b <;> simp [level]
    | coe a =>
      have hlt := WithBot.coe_lt_coe.mp h
      rcases Const.le_iff.mp hlt.le with rfl | rfl | rfl
      · cases b with
        | unset => exact absurd hlt (lt_irrefl _)
        | known v => simp [level]
        | nac => simp [level]
      · cases a with
        | unset => simp [level]
        | known v => simp [level]
        | nac => exact absurd hlt (lt_irrefl _)
      · exact absurd hlt (lt_irrefl _)

/-- Nothing can be known of a name that no node writes. -/
def ceiling (g : FlowGraph) : Knowledge := fun x => if x ∈ targets g then (Const.nac : Const) else ⊥

theorem le_ceiling (c : WithBot Const) {x : String} (hx : x ∈ targets g) : c ≤ ceiling g x := by
  rw [ceiling, if_pos hx]
  cases c with
  | bot => exact bot_le
  | coe c => exact WithBot.coe_le_coe.mpr (Const.le_nac c)

theorem foldl_learn_le_ceiling {instrs : List Instr} {k : Knowledge}
    (h : ∀ i ∈ instrs, ∀ x, i.defines? = some x → x ∈ targets g) (hk : k ≤ ceiling g) :
    instrs.foldl learn k ≤ ceiling g := by
  induction instrs generalizing k with
  | nil => exact hk
  | cons i instrs ih =>
    refine ih (fun j hj => h j (List.mem_cons_of_mem _ hj)) ?_
    cases hi : i.defines? with
    | none =>
      rw [learn_of_defines?_eq_none k hi]
      exact hk
    | some x =>
      obtain ⟨c, hc⟩ := exists_eval? (sample k i.reads) hi
      rw [learn_of_defines? hi hc]
      intro y
      by_cases hy : y = x
      · subst hy
        exact le_ceiling _ (h i List.mem_cons_self y hi)
      · rw [Function.update_of_ne hy]
        exact hk y

/-- The knowledge of each variable that is written rises at most three times. -/
def height (g : FlowGraph) : (reading g).Height where
  ceiling := ceiling g
  rank k := ((targets g).toList.map fun x => level (k x)).sum
  boundary_le _ _ := bot_le
  effect_le n hn := foldl_learn_le_ceiling (fun _ hi _ hx => mem_targets hn hi hx) le_rfl
  rank_lt {a b} hlt hle := by
    obtain ⟨hab, x, hx⟩ := Pi.lt_def.mp hlt
    have hmem : x ∈ targets g := by
      by_contra hnot
      have hb := hle x
      rw [ceiling, if_neg hnot, le_bot_iff] at hb
      rw [hb] at hx
      exact not_lt_bot hx
    exact List.sum_lt_sum _ _ (fun y _ => level_strictMono.monotone (hab y))
      ⟨x, Std.ExtTreeSet.mem_toList.mpr hmem, level_strictMono hx⟩
  rank_le {a} _ := by
    have hsum := List.sum_le_card_nsmul ((targets g).toList.map fun x => level (a x)) 3 (by
      intro k hk
      obtain ⟨x, -, rfl⟩ := List.mem_map.mp hk
      exact level_le _)
    rw [List.length_map, Std.ExtTreeSet.length_toList, smul_eq_mul, mul_comm] at hsum
    exact hsum

/-- Every run ends in the least solution of the equations of constant propagation. -/
theorem ends (hg : g.WellFormed) :
    (problem g).EndsWith fun ins outs =>
      (reading g).system.LeastSolution ⟨ConstMap.reading ∘ ins, ConstMap.reading ∘ outs⟩ :=
  (reading g).ends (height g) hg

end Constants

end FlowTrace
