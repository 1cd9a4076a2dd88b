import FlowTrace.Proofs.Dataflow.Transfer

/-!
# Accesses to variables

Instructions read and write variables in a fixed order: each one reads its operands and then writes
its target.  A block uses the variables that it reads first, and defines those that it writes first.
So no variable is in both sets, and what is live before a block is what its instructions make of
what is live after it, from the last one to the first.
-/

namespace FlowTrace

/-- What can be done to a variable. -/
inductive Access where
  | read
  | write
deriving DecidableEq, Repr

/-- What an instruction does to variables: the operands are read before the target is written. -/
def Instr.accesses (i : Instr) : List (String × Access) :=
  i.reads.map (·, .read) ++ i.defines?.toList.map (·, .write)

namespace Liveness

/-- The first thing that some instructions do to a variable. -/
def firstAccess? (instrs : List Instr) (x : String) : Option Access :=
  List.lookup x (instrs.flatMap Instr.accesses)

namespace UseDef

variable {ud : UseDef} {l : List (String × Access)} {x y : String}

/-! ## One access -/

/-- Record an access. -/
def record (ud : UseDef) : String × Access → UseDef
  | (y, .read) => ud.read y
  | (y, .write) => ud.write y

theorem mem_use_read : x ∈ (ud.read y).use ↔ x ∈ ud.use ∨ (x = y ∧ y ∉ ud.defs) := by
  unfold read
  split
  · next h => simp [show y ∈ ud.defs from h]
  · next h =>
    have hy : y ∉ ud.defs := h
    rw [← NameSet.mem_members, NameSet.members_insert]
    simp [hy, or_comm]

theorem defs_read (ud : UseDef) (y : String) : (ud.read y).defs = ud.defs := by
  unfold read
  split <;> rfl

theorem mem_defs_write : x ∈ (ud.write y).defs ↔ x ∈ ud.defs ∨ (x = y ∧ y ∉ ud.use) := by
  unfold write
  split
  · next h => simp [show y ∈ ud.use from h]
  · next h =>
    have hy : y ∉ ud.use := h
    rw [← NameSet.mem_members, NameSet.members_insert]
    simp [hy, or_comm]

theorem use_write (ud : UseDef) (y : String) : (ud.write y).use = ud.use := by
  unfold write
  split <;> rfl

/-! ## All accesses -/

/-- The first of some accesses to a variable decides about it. -/
structure Records (ud : UseDef) (l : List (String × Access)) : Prop where
  mem_use : ∀ x, x ∈ ud.use ↔ List.lookup x l = some .read
  mem_defs : ∀ x, x ∈ ud.defs ↔ List.lookup x l = some .write

theorem records_empty : UseDef.empty.Records [] where
  mem_use x := by simp [empty]
  mem_defs x := by simp [empty]

/-- One more access decides about its variable only if there was none before. -/
theorem lookup_concat (x : String) (l : List (String × Access)) (e : String × Access) :
    List.lookup x (l ++ [e]) =
      (List.lookup x l).or (if e.1 = x then some e.2 else none) := by
  rw [List.lookup_append, Table.lookup_cons, List.lookup_nil]

theorem Records.record (h : ud.Records l) (e : String × Access) :
    (ud.record e).Records (l ++ [e]) := by
  obtain ⟨y, _ | _⟩ := e
  · constructor <;> intro x
    · show x ∈ (ud.read y).use ↔ _
      rw [mem_use_read, h.mem_use, h.mem_defs, lookup_concat]
      by_cases hx : x = y
      · subst hx
        rcases List.lookup x l with _ | _ | _ <;> simp
      · simp [hx, Ne.symm hx]
    · show x ∈ (ud.read y).defs ↔ _
      rw [defs_read, h.mem_defs, lookup_concat]
      rcases List.lookup x l with _ | _ | _ <;> simp
  · constructor <;> intro x
    · show x ∈ (ud.write y).use ↔ _
      rw [use_write, h.mem_use, lookup_concat]
      rcases List.lookup x l with _ | _ | _ <;> simp
    · show x ∈ (ud.write y).defs ↔ _
      rw [mem_defs_write, h.mem_defs, h.mem_use, lookup_concat]
      by_cases hx : x = y
      · subst hx
        rcases List.lookup x l with _ | _ | _ <;> simp
      · simp [hx, Ne.symm hx]

theorem Records.foldl_record (h : ud.Records l) (l' : List (String × Access)) :
    (l'.foldl UseDef.record ud).Records (l ++ l') := by
  induction l' generalizing ud l with
  | nil => simpa using h
  | cons e l' ih => simpa using ih (h.record e)

/-- An instruction acts by its accesses. -/
theorem step_eq_foldl (ud : UseDef) (i : Instr) : ud.step i = i.accesses.foldl record ud := by
  rw [Instr.accesses, List.foldl_append, List.foldl_map, List.foldl_map]
  rfl

end UseDef

theorem records_useDefOfBlock (instrs : List Instr) :
    (useDefOfBlock instrs).Records (instrs.flatMap Instr.accesses) := by
  have hfold : useDefOfBlock instrs =
      (instrs.flatMap Instr.accesses).foldl UseDef.record .empty := by
    rw [List.foldl_flatMap, useDefOfBlock]
    exact congrArg (List.foldl · _ instrs) (funext₂ UseDef.step_eq_foldl)
  rw [hfold]
  exact UseDef.records_empty.foldl_record _

/-- **Uses and definitions of a block.**  Together they act like the instructions, from the last one
to the first.  No variable is in both sets: the first access in the block decides. -/
theorem useDefOfBlock_composes (instrs : List Instr) :
    (∀ L : Set String,
      (useDefOfBlock instrs).use.members ∪ (L \ (useDefOfBlock instrs).defs.members) =
        instrs.foldr (fun i S =>
          (useDefOfInstr i).use.members ∪ (S \ (useDefOfInstr i).defs.members)) L) ∧
    Disjoint (useDefOfBlock instrs).use.members (useDefOfBlock instrs).defs.members ∧
    (∀ x, x ∈ (useDefOfBlock instrs).use ↔ firstAccess? instrs x = some .read) ∧
    ∀ x, x ∈ (useDefOfBlock instrs).defs ↔ firstAccess? instrs x = some .write := by
  have h := records_useDefOfBlock instrs
  refine ⟨fun L => ?_, ?_, h.mem_use, h.mem_defs⟩
  · have hinstr : (fun i S => (useDefOfInstr i).liveBefore S) = liveBefore :=
      funext fun i => funext (liveBefore_useDefOfInstr i)
    calc (useDefOfBlock instrs).liveBefore L = instrs.foldr liveBefore L :=
          liveBefore_useDefOfBlock instrs L
      _ = instrs.foldr (fun i S => (useDefOfInstr i).liveBefore S) L := by rw [hinstr]
  · rw [Set.disjoint_left]
    intro x huse hdefs
    have hread := (h.mem_use x).mp huse
    rw [(h.mem_defs x).mp hdefs] at hread
    cases hread

end Liveness

end FlowTrace
