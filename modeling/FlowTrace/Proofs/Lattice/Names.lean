import FlowTrace.Lattice.Basic
import Mathlib.Data.Set.Card

/-!
# Sets of names as sets

A finite set of names is read as the set of its members.  The lattice operations become the usual
ones, and the size becomes the number of members.
-/

namespace FlowTrace.NameSet

variable {s t : NameSet} {x : String}

@[simp] theorem mem_ofList {names : List String} : x ∈ ofList names ↔ x ∈ names := by
  rw [ofList, Std.ExtTreeSet.mem_ofList, List.contains_iff_mem]

theorem ext_iff_mem : s = t ↔ ∀ x, x ∈ s ↔ x ∈ t :=
  ⟨fun h _ => h ▸ Iff.rfl, Std.ExtTreeSet.ext_mem⟩

/-- The members of a set of names. -/
def members (s : NameSet) : Set String := {x | x ∈ s}

@[simp] theorem mem_members : x ∈ s.members ↔ x ∈ s := Iff.rfl

theorem members_injective : Function.Injective members := by
  intro s t h
  rw [ext_iff_mem]
  intro x
  rw [← mem_members, h, mem_members]

@[simp] theorem members_empty : members ∅ = ∅ := by
  ext x
  simp

@[simp] theorem members_union : members (s ∪ t) = s.members ∪ t.members := by
  ext x
  exact Std.ExtTreeSet.mem_union_iff

@[simp] theorem members_diff : members (s \ t) = s.members \ t.members := by
  ext x
  exact Std.ExtTreeSet.mem_diff_iff

@[simp] theorem members_insert : members (s.insert x) = insert x s.members := by
  ext y
  rw [mem_members, Std.ExtTreeSet.mem_insert, Std.LawfulEqCmp.compare_eq_iff_eq, eq_comm]
  rfl

theorem members_eq_toFinset (s : NameSet) : s.members = ↑s.toList.toFinset := by
  ext x
  simp

theorem finite_members (s : NameSet) : s.members.Finite := by
  rw [members_eq_toFinset]
  exact Finset.finite_toSet _

theorem nodup_toList (s : NameSet) : s.toList.Nodup := by
  refine Std.ExtTreeSet.distinct_toList.imp ?_
  intro a b h e
  exact h (e ▸ Std.ReflCmp.compare_self)

/-- A set has as many members as its size says. -/
theorem ncard_members (s : NameSet) : s.members.ncard = s.size := by
  rw [members_eq_toFinset, Set.ncard_coe_finset, List.toFinset_card_of_nodup s.nodup_toList,
    Std.ExtTreeSet.length_toList]

theorem isSubset_iff : s.isSubset t = true ↔ s.members ⊆ t.members := by
  simp only [isSubset, List.all_eq_true, Std.ExtTreeSet.contains_iff_mem, Std.ExtTreeSet.mem_toList]
  rfl

/-- The members of a union that is built up from left to right. -/
theorem members_foldl_union {ι : Type} (f : ι → NameSet) (l : List ι) (s : NameSet) :
    members (l.foldl (fun u i => u ∪ f i) s) = s.members ∪ {x | ∃ i ∈ l, x ∈ f i} := by
  induction l generalizing s with
  | nil => simp
  | cons i l ih =>
    rw [List.foldl_cons, ih, members_union]
    ext x
    simp [or_assoc]

end FlowTrace.NameSet
