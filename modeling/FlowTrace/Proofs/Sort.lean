import Mathlib.Data.List.Nodup

/-!
# What sorting depends on

Where a comparison tells any two items apart, the sorted list depends on the items only.  Where it
does not, items that are equal for it keep the order in which they are given.
-/

namespace FlowTrace

universe u

variable {α : Type u} {le : α → α → Bool}

/-- In a list without repetitions, one order of two items excludes the other. -/
theorem eq_of_sublist_of_sublist {a b : α} {l : List α} (hl : l.Nodup) (h : [a, b].Sublist l)
    (h' : [b, a].Sublist l) : a = b := by
  induction l with
  | nil => cases h
  | cons c l ih =>
    obtain ⟨hc, hl⟩ := List.nodup_cons.mp hl
    cases h with
    | cons _ h =>
      cases h' with
      | cons _ h' => exact ih hl h h'
      | cons_cons _ _ => exact absurd (h.subset (by simp)) hc
    | cons_cons _ h =>
      cases h' with
      | cons _ h' => exact absurd (h'.subset (by simp)) hc
      | cons_cons _ _ => rfl

section Order

variable (trans : ∀ a b c, le a b → le b c → le a c) (total : ∀ a b, le a b || le b a)

include trans total

/-- If no two items are equal for the comparison, their order does not matter. -/
theorem mergeSort_eq_of_perm {l l' : List α}
    (hanti : ∀ a ∈ l, ∀ b ∈ l, le a b → le b a → a = b) (h : l'.Perm l) :
    l'.mergeSort le = l.mergeSort le := by
  refine List.Perm.eq_of_pairwise ?_ (List.pairwise_mergeSort trans total l')
    (List.pairwise_mergeSort trans total l)
    ((List.mergeSort_perm l' le).trans (h.trans (List.mergeSort_perm l le).symm))
  intro a b ha hb
  exact hanti a (h.mem_iff.mp (List.mem_mergeSort.mp ha)) b (List.mem_mergeSort.mp hb)

/-- Sorting gives the same list for every order of the items exactly if no two of them are equal for
the comparison. -/
theorem mergeSort_eq_of_perm_iff {l : List α} (hl : l.Nodup) :
    (∀ l' : List α, l'.Perm l → l'.mergeSort le = l.mergeSort le) ↔
      ∀ a ∈ l, ∀ b ∈ l, le a b → le b a → a = b := by
  refine ⟨fun h a ha b hb hab hba => ?_, fun h l' => mergeSort_eq_of_perm trans total h⟩
  classical
  by_contra hne
  -- Bring the two items to the front, in either order: both orders are then kept.
  have hfront : l.Perm (a :: b :: (l.erase a).erase b) :=
    (List.perm_cons_erase ha).trans
      ((List.perm_cons_erase ((List.mem_erase_of_ne (Ne.symm hne)).mpr hb)).cons a)
  have hkept : ∀ {x y : α} (rest : List α), le x y = true →
      [x, y].Sublist ((x :: y :: rest).mergeSort le) := fun rest hxy =>
    List.pair_sublist_mergeSort trans total hxy
      (((List.nil_sublist rest).cons_cons _).cons_cons _)
  have hfirst := hkept ((l.erase a).erase b) hab
  have hsecond := hkept ((l.erase a).erase b) hba
  rw [h _ hfront.symm] at hfirst
  rw [h _ ((List.Perm.swap a b _).trans hfront.symm)] at hsecond
  exact hne (eq_of_sublist_of_sublist ((List.mergeSort_perm l le).nodup_iff.mpr hl) hfirst hsecond)

end Order

end FlowTrace
