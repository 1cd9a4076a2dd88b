import FlowTrace.Proofs.Dataflow.GainLoss

/-!
# Effects of nodes and of instructions

What a node makes of a set of live variables is what its instructions make of it, from the last one
to the first.  This holds for either rule in a graph of single instructions and for the rule for
blocks in every graph.
-/

namespace FlowTrace

namespace Program

variable {p : Program}

/-- The instruction reads the variable. -/
def Reads (p : Program) (i : NodeId) (x : String) : Prop :=
  ∃ instr, p.instr? i = some instr ∧ x ∈ instr.reads

/-- The instruction writes the variable. -/
def Writes (p : Program) (i : NodeId) (x : String) : Prop :=
  ∃ instr, p.instr? i = some instr ∧ instr.defines? = some x

theorem WellFormed.not_writes_of_notMem (hp : p.WellFormed) {i : NodeId} (hi : i ∉ p.ids)
    (x : String) : ¬ p.Writes i x := by
  rintro ⟨instr, hinstr, -⟩
  exact hi (hp.mem_ids_iff.mpr ⟨instr, hinstr⟩)

/-- A node of the graph of single instructions covers the instruction of its id. -/
theorem WellFormed.instrsOf_single (hp : p.WellFormed) (n : NodeId) :
    (p.graph .single).instrsOf n = ((p.instr? n).map (n, ·)).toList := by
  rw [FlowGraph.instrsOf, FlowGraph.coveredBy, graph_covered]
  change (((p.singletons.get? n).getD []).filterMap fun i => (p.instr? i).map (i, ·)) = _
  cases hc : p.singletons.get? n with
  | some c =>
    obtain ⟨-, rfl⟩ := FlowGraph.get?_singletons.mp hc
    cases hi : p.instr? n with
    | none => simp [hi]
    | some i => simp [hi]
  | none =>
    have hnone : p.instr? n = none := by
      cases hi : p.instr? n with
      | none => rfl
      | some i =>
        have hget := FlowGraph.get?_singletons.mpr ⟨hp.mem_ids_iff.mpr ⟨i, hi⟩, rfl⟩
        rw [hc] at hget
        cases hget
    rw [hnone]
    rfl

end Program

/-! ## Live variables -/

namespace Liveness

/-- What is live before an instruction if some variables are live after it. -/
def liveBefore (i : Instr) (s : Set String) : Set String :=
  {x | x ∈ i.reads ∨ (x ∈ s ∧ i.defines? ≠ some x)}

namespace UseDef

/-- What is live before a node with these uses and definitions. -/
def liveBefore (ud : UseDef) (s : Set String) : Set String := ud.use.members ∪ (s \ ud.defs.members)

@[simp] theorem liveBefore_empty (s : Set String) : UseDef.empty.liveBefore s = s := by
  simp [liveBefore, empty]

theorem liveBefore_read (ud : UseDef) (x : String) (s : Set String) :
    (ud.read x).liveBefore s = ud.liveBefore (insert x s) := by
  unfold read liveBefore
  split
  · next h => rw [Set.insert_sdiff_of_mem _ (by simpa using h)]
  · next h =>
    rw [Set.insert_sdiff_of_notMem _ (by simpa using h), NameSet.members_insert, Set.insert_union,
      Set.union_insert]

theorem liveBefore_write (ud : UseDef) (x : String) (s : Set String) :
    (ud.write x).liveBefore s = ud.liveBefore (s \ {x}) := by
  unfold write liveBefore
  ext y
  split
  · next h =>
    -- The variable is read first, so it is live whether or not it is taken away.
    by_cases hy : y = x
    · subst hy
      have hmem : y ∈ ud.use := by simpa using h
      simp [hmem]
    · simp [hy]
  · simp only [NameSet.members_insert, Set.mem_union, Set.mem_sdiff, Set.mem_insert_iff,
      Set.mem_singleton_iff, not_or, and_assoc]

theorem liveBefore_foldl_read (names : List String) (ud : UseDef) (s : Set String) :
    (names.foldl read ud).liveBefore s = ud.liveBefore ({x | x ∈ names} ∪ s) := by
  induction names generalizing ud with
  | nil => simp
  | cons x names ih =>
    rw [List.foldl_cons, ih, liveBefore_read]
    congr 1
    ext y
    simp [or_assoc]

/-- One more instruction at the end of a block. -/
theorem liveBefore_step (ud : UseDef) (i : Instr) (s : Set String) :
    (ud.step i).liveBefore s = ud.liveBefore (Liveness.liveBefore i s) := by
  have hset : {x | x ∈ i.reads} ∪ (s \ {x | i.defines? = some x}) = Liveness.liveBefore i s := rfl
  rw [← hset, ← liveBefore_foldl_read, step]
  cases h : i.defines? with
  | none => simp
  | some x =>
    have hx : {y | some x = some y} = {x} := by
      ext y
      simp [eq_comm]
    rw [hx, ← liveBefore_write]
    rfl

end UseDef

/-- By the rule for blocks, instructions act one after the other, from the last to the first. -/
theorem liveBefore_useDefOfBlock (instrs : List Instr) (s : Set String) :
    (useDefOfBlock instrs).liveBefore s = instrs.foldr liveBefore s := by
  have hfold : ∀ ud : UseDef,
      (instrs.foldl UseDef.step ud).liveBefore s = ud.liveBefore (instrs.foldr liveBefore s) := by
    induction instrs with
    | nil => exact fun _ => rfl
    | cons i instrs ih =>
      intro ud
      rw [List.foldl_cons, ih, UseDef.liveBefore_step, List.foldr_cons]
  rw [useDefOfBlock, hfold, UseDef.liveBefore_empty]

theorem liveBefore_useDefOfInstr (i : Instr) (s : Set String) :
    (useDefOfInstr i).liveBefore s = liveBefore i s := by
  ext x
  simp [UseDef.liveBefore, useDefOfInstr, liveBefore, Instr.uses, eq_comm]

/-- In a graph of single instructions both rules give the effect of the instruction. -/
theorem liveBefore_single {p : Program} (hp : p.WellFormed) (rule : Option Bool) (n : NodeId)
    (s : Set String) : (useDef (p.graph .single) rule n).liveBefore s =
      ((p.instr? n).toList).foldr liveBefore s := by
  have hmap : ((p.graph .single).instrsOf n).map (·.2) = (p.instr? n).toList := by
    rw [hp.instrsOf_single]
    cases p.instr? n <;> rfl
  rw [useDef, useDefOfNode, hmap]
  split
  · exact liveBefore_useDefOfBlock _ s
  · cases p.instr? n with
    | none => exact UseDef.liveBefore_empty s
    | some i => exact liveBefore_useDefOfInstr i s

theorem mem_liveBefore_single {p : Program} (hp : p.WellFormed) (rule : Option Bool) (n : NodeId)
    (s : Set String) (x : String) :
    x ∈ (useDef (p.graph .single) rule n).liveBefore s ↔
      p.Reads n x ∨ (x ∈ s ∧ ¬ p.Writes n x) := by
  rw [liveBefore_single hp, Program.Reads, Program.Writes]
  cases p.instr? n with
  | none => simp
  | some i => simp [liveBefore]

end Liveness

end FlowTrace
