import FlowTrace.Proofs.Lattice.Constants

/-!
# Laws of joins

What the joins of facts have to satisfy, and that maps of constants do.  Their order takes a missing
name for an undefined one and their equality does not: so the order is a preorder only, and the laws
of the join hold for the finer equality.
-/

namespace FlowTrace

/-! ## Laws of a lattice -/

namespace FactLattice

variable {α : Type} {L : FactLattice α}

/-- The laws of a join-semilattice: joins are least upper bounds for the order, and monoid laws hold
up to the equality, which may tell more facts apart than the order does. -/
structure Laws (L : FactLattice α) : Prop where
  leq_refl : ∀ a, L.leq a a = true
  leq_trans : ∀ a b c, L.leq a b = true → L.leq b c = true → L.leq a c = true
  leq_join_left : ∀ a b, L.leq a (L.join a b) = true
  leq_join_right : ∀ a b, L.leq b (L.join a b) = true
  join_leq : ∀ a b c, L.leq a c = true → L.leq b c = true → L.leq (L.join a b) c = true
  equivalence : Equivalence fun a b => L.eq a b = true
  join_congr : ∀ a a' b b', L.eq a a' = true → L.eq b b' = true →
    L.eq (L.join a b) (L.join a' b') = true
  join_comm : ∀ a b, L.eq (L.join a b) (L.join b a) = true
  join_assoc : ∀ a b c, L.eq (L.join (L.join a b) c) (L.join a (L.join b c)) = true
  join_self : ∀ a, L.eq (L.join a a) a = true
  bottom_join : ∀ a, L.eq (L.join L.bottom a) a = true
  join_bottom : ∀ a, L.eq (L.join a L.bottom) a = true

namespace Laws

theorem join_right_comm (h : L.Laws) (a b c : α) :
    L.eq (L.join (L.join a b) c) (L.join (L.join a c) b) = true := by
  have hswap : L.eq (L.join a (L.join b c)) (L.join a (L.join c b)) = true :=
    h.join_congr _ _ _ _ (h.equivalence.refl a) (h.join_comm b c)
  exact h.equivalence.trans (h.join_assoc a b c)
    (h.equivalence.trans hswap (h.equivalence.symm (h.join_assoc a c b)))

theorem foldl_join_congr (h : L.Laws) {a b : α} (hab : L.eq a b = true) (l : List α) :
    L.eq (l.foldl L.join a) (l.foldl L.join b) = true := by
  induction l generalizing a b with
  | nil => exact hab
  | cons c l ih => exact ih (h.join_congr _ _ _ _ hab (h.equivalence.refl c))

/-- The order in which facts are joined does not count. -/
theorem foldl_join_perm (h : L.Laws) {l l' : List α} (hl : l.Perm l') (a : α) :
    L.eq (l.foldl L.join a) (l'.foldl L.join a) = true := by
  induction hl generalizing a with
  | nil => exact h.equivalence.refl a
  | cons b _ ih => exact ih (L.join a b)
  | swap b c l => exact h.foldl_join_congr (h.join_right_comm a c b) l
  | trans _ _ ih₁ ih₂ => exact h.equivalence.trans (ih₁ a) (ih₂ a)

end Laws

end FactLattice

/-! ## Maps of constants -/

namespace ConstMap

variable {m n : ConstMap} {x : String}

theorem lookup_of_get? {c : Const} (h : m.get? x = some c) : m.lookup x = c := by
  rw [lookup_eq, reading_of_get? h, WithBot.unbotD_coe]

theorem lookup_of_get?_none (h : m.get? x = none) : m.lookup x = ⊥ := by
  rw [lookup_eq, reading_of_get?_none h, WithBot.unbotD_bot]

/-- Maps are compared name by name; a missing name is undefined. -/
theorem leq_iff : lattice.leq m n = true ↔ m.lookup ≤ n.lookup := by
  have hentries : lattice.leq m n = true ↔ ∀ e ∈ m.entries, e.2 ≤ n.lookup e.1 :=
    List.all_eq_true
  rw [hentries]
  constructor
  · intro h x
    cases hx : m.get? x with
    | none =>
      rw [lookup_of_get?_none hx]
      exact bot_le
    | some c =>
      rw [lookup_of_get? hx]
      exact h (x, c) (Table.get?_eq_some_iff.mp hx)
  · intro h e he
    rw [← lookup_of_get? (Table.get?_eq_some_iff.mpr he)]
    exact h e.1

theorem lookup_insert (m : ConstMap) (k : String) (c : Const) :
    lookup (m.insert k c) = Function.update m.lookup k c := by
  funext x
  rw [lookup_eq, reading_insert]
  by_cases h : x = k
  · subst h
    rw [Function.update_self, Function.update_self, WithBot.unbotD_coe]
  · rw [Function.update_of_ne h, Function.update_of_ne h, lookup_eq]

theorem lookup_join (m n : ConstMap) : (lattice.join m n).lookup = m.lookup ⊔ n.lookup := by
  funext x
  rw [Pi.sup_apply, lookup_eq, lookup_eq, lookup_eq, reading_join, Pi.sup_apply]
  cases m.reading x with
  | bot => rw [bot_sup_eq, WithBot.unbotD_bot, bot_sup_eq]
  | coe c =>
    cases n.reading x with
    | bot => rw [sup_bot_eq, WithBot.unbotD_bot, sup_bot_eq]
    | coe d => rfl

theorem mem_keys_join : x ∈ (lattice.join m n).keys ↔ x ∈ m.keys ∨ x ∈ n.keys := by
  rw [mem_keys_iff_reading, mem_keys_iff_reading, mem_keys_iff_reading, reading_join, Pi.sup_apply,
    ne_eq, sup_eq_bot_iff, not_and_or]

/-- Maps are equal if they have the same names and say the same of each. -/
theorem eq_iff_keys_lookup : lattice.eq m n = true ↔
    (∀ x, x ∈ m.keys ↔ x ∈ n.keys) ∧ m.lookup = n.lookup := by
  rw [eq_iff_reading]
  simp only [mem_keys_iff_reading, ne_eq, not_iff_not, funext_iff, lookup_eq]
  constructor
  · intro h
    exact ⟨fun x => by rw [h], fun x => by rw [h]⟩
  · rintro ⟨hkeys, hlookup⟩ x
    have hx := hkeys x
    have hl := hlookup x
    cases hm : m.reading x with
    | bot => exact (hx.mp hm).symm
    | coe c =>
      cases hn : n.reading x with
      | bot => exact absurd (hx.mpr hn) (hm ▸ WithBot.coe_ne_bot)
      | coe d =>
        rw [hm, hn] at hl
        exact congrArg WithBot.some hl

theorem eq_iff_keys_leq : lattice.eq m n = true ↔
    (∀ x, x ∈ m.keys ↔ x ∈ n.keys) ∧ lattice.leq m n = true ∧ lattice.leq n m = true := by
  rw [eq_iff_keys_lookup, leq_iff, leq_iff, le_antisymm_iff]

/-- The order is that of lookups, and the equality is that of readings. -/
theorem laws : lattice.Laws where
  leq_refl _ := leq_iff.mpr le_rfl
  leq_trans _ _ _ hab hbc := leq_iff.mpr ((leq_iff.mp hab).trans (leq_iff.mp hbc))
  leq_join_left a b := by
    rw [leq_iff, lookup_join]
    exact le_sup_left
  leq_join_right a b := by
    rw [leq_iff, lookup_join]
    exact le_sup_right
  join_leq a b c hac hbc := by
    rw [leq_iff, lookup_join]
    exact sup_le (leq_iff.mp hac) (leq_iff.mp hbc)
  equivalence := by
    simp only [eq_iff_reading]
    exact ⟨fun _ => rfl, Eq.symm, Eq.trans⟩
  join_congr a a' b b' ha hb := by
    rw [eq_iff_reading] at *
    rw [reading_join, reading_join, ha, hb]
  join_comm a b := by
    rw [eq_iff_reading, reading_join, reading_join, sup_comm]
  join_assoc a b c := by
    simp only [eq_iff_reading, reading_join, sup_assoc]
  join_self a := by
    rw [eq_iff_reading, reading_join, sup_idem]
  bottom_join a := by
    rw [eq_iff_reading, reading_join]
    exact bot_sup_eq _
  join_bottom a := by
    rw [eq_iff_reading, reading_join]
    exact sup_bot_eq _

/-- **Maps of constants.**  The order is a preorder whose least upper bounds are the joins; up to
equality the join is commutative, associative and idempotent, and the empty map is its unit.  So
the maps of a list may be joined in any order.  Equal maps are those that have the same names and
are below each other, and a join has the names of both maps and no others. -/
theorem joins_are_lawful :
    lattice.Laws ∧
    (∀ l l' : List ConstMap, l.Perm l' →
      lattice.eq (lattice.joinAll l) (lattice.joinAll l') = true) ∧
    (∀ m n : ConstMap, lattice.eq m n = true ↔
      (∀ x, x ∈ m.keys ↔ x ∈ n.keys) ∧ lattice.leq m n = true ∧ lattice.leq n m = true) ∧
    ∀ (m n : ConstMap) (x : String),
      x ∈ (lattice.join m n).keys ↔ x ∈ m.keys ∨ x ∈ n.keys :=
  ⟨laws, fun _ _ hl => laws.foldl_join_perm hl _, fun _ _ => eq_iff_keys_leq,
    fun _ _ _ => mem_keys_join⟩

/-- An undefined name and a missing one are alike for the order and not for the equality. -/
example : let m : ConstMap := .ofList [("x", .unset)]
    lattice.leq m .empty = true ∧ lattice.leq .empty m = true ∧ lattice.eq m .empty = false := by
  decide

end ConstMap

end FlowTrace
