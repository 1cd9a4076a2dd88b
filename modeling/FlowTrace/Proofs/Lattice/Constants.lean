import FlowTrace.Lattice.Pointwise
import FlowTrace.Proofs.Table
import Mathlib.Order.WithBot
import Mathlib.Order.BoundedOrder.Lattice

/-!
# The order of constants

`unset ⊑ known k ⊑ nac` is a join-semilattice with the computed join.  A map of constants is read
as a function to constants with one more value below `unset`, which stands for a missing name: in
this reading the operations on maps are those of functions, and two maps that are equal for their
lattice are read alike.
-/

namespace FlowTrace

namespace Const

theorem leq_iff {a b : Const} : leq a b = true ↔ a = unset ∨ b = nac ∨ a = b := by
  cases a <;> cases b <;> simp [leq]

instance : PartialOrder Const where
  le a b := leq a b = true
  le_refl a := leq_iff.mpr (.inr (.inr rfl))
  le_trans a b c hab hbc := by
    rw [leq_iff] at *
    rcases hab with rfl | rfl | rfl
    · exact .inl rfl
    · rcases hbc with h | rfl | rfl
      · cases h
      · exact .inr (.inl rfl)
      · exact .inr (.inl rfl)
    · exact hbc
  le_antisymm a b hab hba := by
    rw [leq_iff] at *
    rcases hab with rfl | rfl | rfl
    · rcases hba with rfl | h | rfl
      · rfl
      · cases h
      · rfl
    · rcases hba with h | rfl | rfl
      · cases h
      · rfl
      · rfl
    · rfl

theorem le_iff {a b : Const} : a ≤ b ↔ a = unset ∨ b = nac ∨ a = b := leq_iff

instance : SemilatticeSup Const where
  sup := join
  le_sup_left a b := by
    cases a <;> cases b <;> simp only [join, le_iff, reduceCtorEq, true_or, or_true]
    split <;> simp
  le_sup_right a b := by
    cases a <;> cases b <;> simp only [join, le_iff, reduceCtorEq, true_or, or_true]
    split <;> simp_all
  sup_le a b c hac hbc := by
    rw [le_iff] at hac hbc
    rcases hac with rfl | rfl | rfl
    · cases b <;> exact le_iff.mpr hbc
    · exact le_iff.mpr (.inr (.inl rfl))
    · rcases hbc with rfl | rfl | rfl
      · cases a <;> exact le_iff.mpr (.inr (.inr rfl))
      · exact le_iff.mpr (.inr (.inl rfl))
      · cases b <;> simp [join]

@[simp] theorem sup_eq_join (a b : Const) : a ⊔ b = join a b := rfl

instance : OrderBot Const where
  bot := unset
  bot_le a := by cases a <;> rfl

@[simp] theorem le_nac (a : Const) : a ≤ nac := by cases a <;> rfl

/-- Only the integer itself and `nac` are above a known integer. -/
theorem known_le_iff {v : Int} {a : Const} : known v ≤ a ↔ a = known v ∨ a = nac := by
  rw [le_iff]
  constructor
  · rintro (h | h | h)
    · cases h
    · exact .inr h
    · exact .inl h.symm
  · rintro (rfl | rfl)
    · exact .inr (.inr rfl)
    · exact .inr (.inl rfl)

end Const

namespace ConstMap

/-- What a map says of each name; `⊥` for a name that it does not have. -/
def reading (m : ConstMap) (x : String) : WithBot Const := (m.get? x).elim ⊥ WithBot.some

theorem reading_of_get? {m : ConstMap} {x : String} {c : Const} (h : m.get? x = some c) :
    m.reading x = c := by
  rw [reading, h]; rfl

theorem reading_of_get?_none {m : ConstMap} {x : String} (h : m.get? x = none) :
    m.reading x = ⊥ := by
  rw [reading, h]; rfl

theorem reading_eq_coe_iff {m : ConstMap} {x : String} {c : Const} :
    m.reading x = c ↔ m.get? x = some c := by
  cases h : m.get? x with
  | none => simp [reading_of_get?_none h]
  | some d => simp [reading_of_get? h]

theorem reading_eq_bot_iff {m : ConstMap} {x : String} : m.reading x = ⊥ ↔ m.get? x = none := by
  cases h : m.get? x with
  | none => simp [reading_of_get?_none h]
  | some d => simp [reading_of_get? h]

theorem mem_keys_iff_reading {m : ConstMap} {x : String} : x ∈ m.keys ↔ m.reading x ≠ ⊥ := by
  rw [Table.mem_keys_iff, ← Option.ne_none_iff_exists', ne_eq, ne_eq, reading_eq_bot_iff]

/-- Maps are read alike if they have the same names with the same constants. -/
theorem reading_eq_iff {m n : ConstMap} : m.reading = n.reading ↔ ∀ x, m.get? x = n.get? x := by
  constructor
  · intro h x
    apply Option.ext
    intro c
    rw [← reading_eq_coe_iff, h, reading_eq_coe_iff]
  · intro h
    funext x
    rw [reading, h, reading]

/-- A map is below another if that one has all its names with constants that are no smaller. -/
theorem reading_le_iff {m n : ConstMap} :
    m.reading ≤ n.reading ↔
      ∀ x c, m.get? x = some c → ∃ d, n.get? x = some d ∧ c.leq d = true := by
  constructor
  · intro h x c hc
    have hx := h x
    rw [reading_of_get? hc, WithBot.coe_le_iff] at hx
    obtain ⟨d, hd, hle⟩ := hx
    exact ⟨d, reading_eq_coe_iff.mp hd, hle⟩
  · intro h x
    cases hm : m.get? x with
    | none => rw [reading_of_get?_none hm]; exact bot_le
    | some c =>
      obtain ⟨d, hd, hle⟩ := h x c hm
      rw [reading_of_get? hm, reading_of_get? hd]
      exact WithBot.coe_le_coe.mpr hle

@[simp] theorem reading_empty : reading .empty = ⊥ := rfl

theorem lookup_eq (m : ConstMap) (x : String) : m.lookup x = (m.reading x).unbotD ⊥ := by
  rw [lookup, Pointwise.lookup, reading]
  cases m.get? x <;> rfl

theorem reading_insert (m : ConstMap) (k : String) (c : Const) :
    reading (m.insert k c) = Function.update m.reading k c := by
  funext x
  by_cases h : x = k
  · subst h
    rw [Function.update_self, reading_eq_coe_iff, Table.get?_insert, if_pos rfl]
  · rw [Function.update_of_ne h, reading, Table.get?_insert, if_neg h, reading]

/-- Joining a constant to what is known of a name, as an update. -/
theorem coe_join_lookup (m : ConstMap) (x : String) (c : Const) :
    ((Const.join (m.lookup x) c : Const) : WithBot Const) = m.reading x ⊔ c := by
  rw [lookup_eq, ← Const.sup_eq_join, WithBot.coe_sup]
  cases m.reading x with
  | bot => rw [WithBot.unbotD_bot, bot_sup_eq, ← WithBot.coe_sup, bot_sup_eq]
  | coe d => rfl

theorem reading_foldl_join (es : List (String × Const)) (hes : (es.map Prod.fst).Nodup)
    (m : ConstMap) (x : String) :
    (es.foldl (fun m e => m.insert e.1 (Const.join (m.lookup e.1) e.2)) m).reading x =
      m.reading x ⊔ (List.lookup x es).elim ⊥ WithBot.some := by
  induction es generalizing m with
  | nil =>
    change m.reading x = m.reading x ⊔ ⊥
    rw [sup_bot_eq]
  | cons e es ih =>
    rw [List.map_cons, List.nodup_cons] at hes
    rw [List.foldl_cons, ih hes.2, reading_insert, Table.lookup_cons]
    by_cases h : e.1 = x
    · subst h
      -- No name comes twice, so the rest of the list leaves this one as it is.
      have hnone : List.lookup e.1 es = none := by
        cases hf : List.lookup e.1 es with
        | none => rfl
        | some c => exact absurd (List.mem_map_of_mem (Table.mem_of_lookup hf)) hes.1
      rw [Function.update_self, coe_join_lookup, hnone, if_pos rfl]
      exact sup_bot_eq _
    · rw [Function.update_of_ne (Ne.symm h), if_neg h]

@[simp] theorem reading_join (m n : ConstMap) :
    (lattice.join m n).reading = m.reading ⊔ n.reading := by
  funext x
  exact reading_foldl_join n.entries n.nodup m x

/-- Putting a map over a smaller one leaves nothing of that one. -/
theorem reading_overlay {m n : ConstMap} (h : m.reading ≤ n.reading) :
    reading (Table.overlay m n) = n.reading := by
  funext x
  rw [reading, Table.get?_overlay]
  cases hn : n.get? x with
  | some c => exact (reading_of_get? hn).symm
  | none =>
    have hx := h x
    rw [reading_of_get?_none hn, le_bot_iff, reading_eq_bot_iff] at hx
    rw [hx]
    exact (reading_of_get?_none hn).symm

/-- Equality of maps, as the lattice computes it. -/
theorem eq_iff (m n : ConstMap) : lattice.eq m n = true ↔
    m.size = n.size ∧ ∀ x c, m.get? x = some c → n.get? x = some c := by
  have hentries : (∀ e ∈ m.entries, n.get? e.1 = some e.2) ↔
      ∀ x c, m.get? x = some c → n.get? x = some c := by
    simp only [Table.get?_eq_some_iff, Prod.forall]
  rw [← hentries]
  simp only [lattice, Pointwise.lattice, Pointwise.eq, Bool.and_eq_true, beq_iff_eq,
    List.all_eq_true]
  refine and_congr Iff.rfl (forall₂_congr fun e _ => ?_)
  cases n.get? e.1 with
  | none => simp
  | some c =>
    change (e.2 == c) = true ↔ _
    rw [beq_iff_eq, Option.some.injEq, eq_comm]

/-- Maps that are equal for the lattice are those that are read alike. -/
theorem eq_iff_reading (m n : ConstMap) : lattice.eq m n = true ↔ m.reading = n.reading := by
  rw [eq_iff, reading_eq_iff]
  constructor
  · rintro ⟨hsize, h⟩
    exact Table.get?_eq_of_size_eq hsize h
  · intro h
    exact ⟨Table.size_eq_of_get?_eq h, fun x c hc => h x ▸ hc⟩

end ConstMap

end FlowTrace
