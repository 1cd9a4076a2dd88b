import FlowTrace.Dataflow.Constants
import Mathlib.Algebra.Order.Field.Basic
import Mathlib.Data.Int.Order.Lemmas
import Mathlib.Data.Rat.Cast.Order
import Mathlib.Order.Bounds.Basic

/-!
# Division and remainder

The quotient is rounded down.  The remainder is computed from absolute values and follows the sign
of the dividend, so the two come from different divisions.  Each is characterized on its own; they
fit together where rounding down is the same as truncating.
-/

namespace FlowTrace

namespace Arithmetic

variable {a b s r : Int}

/-! ## Quotients -/

theorem le_fdiv_iff_of_pos (hb : 0 < b) {k : Int} : k ≤ a.fdiv b ↔ (k : ℚ) ≤ a / b := by
  rw [Int.fdiv_eq_ediv_of_nonneg a hb.le, Int.le_ediv_iff_mul_le hb,
    le_div_iff₀ (Int.cast_pos.mpr hb)]
  exact_mod_cast Iff.rfl

/-- Quotients are rounded down, whatever the signs: a negative divisor is turned around together
with the dividend. -/
theorem le_fdiv_iff (hb : b ≠ 0) {k : Int} : k ≤ a.fdiv b ↔ (k : ℚ) ≤ a / b := by
  rcases hb.lt_or_gt with hb | hb
  · have hneg := le_fdiv_iff_of_pos (a := -a) (Int.neg_pos.mpr hb) (k := k)
    rwa [Int.neg_fdiv_neg, Int.cast_neg, Int.cast_neg, neg_div_neg_eq] at hneg
  · exact le_fdiv_iff_of_pos hb

/-! ## Remainders -/

/-- A remainder of `a` by `b` that is zero or has the sign of `s`. -/
structure IsRemainder (a b s r : Int) : Prop where
  small : |r| < |b|
  dvd : b ∣ a - r
  sign_eq : r = 0 ∨ r.sign = s.sign

/-- Taking the remainder of the absolute values and giving it the sign of the dividend is dividing
towards zero. -/
theorem truncatedRemainder_eq_tmod (a b : Int) : truncatedRemainder a b = a.tmod b := by
  have hmod : ∀ k m : Nat, Int.fmod k m = Int.tmod k m := fun k m =>
    Int.fmod_eq_tmod_of_nonneg (Int.natCast_nonneg k) (Int.natCast_nonneg m)
  have hdivisor : ∀ k : Int, k.tmod b.natAbs = k.tmod b := by
    intro k
    rcases b.natAbs_eq with h | h
    · rw [← h]
    · rw [← Int.tmod_neg, ← h]
  rw [truncatedRemainder, hmod, hdivisor]
  split
  · next h => rw [Int.ofNat_natAbs_of_nonpos h.le, Int.neg_tmod, Int.neg_neg]
  · next h => rw [Int.natAbs_of_nonneg (Int.not_lt.mp h)]

theorem isRemainder_tmod (hb : b ≠ 0) : IsRemainder a b a (a.tmod b) where
  small := by
    rw [Int.abs_eq_natAbs, Int.abs_eq_natAbs, Int.natAbs_tmod]
    exact_mod_cast Nat.mod_lt _ (Int.natAbs_pos.mpr hb)
  dvd := Int.dvd_self_sub_tmod
  sign_eq := by
    rw [Int.sign_tmod]
    by_cases h : b ∣ a
    · exact .inl (Int.tmod_eq_zero_of_dvd h)
    · exact .inr (if_neg h)

theorem isRemainder_fmod_of_pos (hb : 0 < b) : IsRemainder a b b (a.fmod b) := by
  have hnonneg := Int.fmod_nonneg_of_pos a hb
  refine ⟨?_, Int.dvd_self_sub_fmod, ?_⟩
  · rw [abs_of_nonneg hnonneg, abs_of_pos hb]
    exact Int.fmod_lt_of_pos a hb
  · rcases hnonneg.eq_or_lt with h | h
    · exact .inl h.symm
    · exact .inr (by rw [Int.sign_eq_one_of_pos h, Int.sign_eq_one_of_pos hb])

theorem isRemainder_fmod (hb : b ≠ 0) : IsRemainder a b b (a.fmod b) := by
  rcases hb.lt_or_gt with hb | hb
  · obtain ⟨hsmall, -, hsign⟩ := isRemainder_fmod_of_pos (a := -a) (Int.neg_pos.mpr hb)
    rw [Int.neg_fmod_neg] at hsmall hsign
    refine ⟨by simpa using hsmall, Int.dvd_self_sub_fmod, ?_⟩
    simpa [Int.sign_neg] using hsign
  · exact isRemainder_fmod_of_pos hb

namespace IsRemainder

theorem nonneg (h : IsRemainder a b s r) (hs : 0 ≤ s) : 0 ≤ r := by
  rcases h.sign_eq with rfl | hr
  · exact le_rfl
  · rwa [← Int.sign_nonneg_iff, hr, Int.sign_nonneg_iff]

theorem nonpos (h : IsRemainder a b s r) (hs : s ≤ 0) : r ≤ 0 := by
  rcases h.sign_eq with rfl | hr
  · exact le_rfl
  · rwa [← Int.sign_nonpos_iff, hr, Int.sign_nonpos_iff]

/-- Two remainders of one sign differ by less than the divisor. -/
theorem unique {r' : Int} (h : IsRemainder a b s r) (h' : IsRemainder a b s r') : r = r' := by
  have hdvd : |b| ∣ r - r' := by
    rw [abs_dvd]
    have hsub := dvd_sub h'.dvd h.dvd
    rwa [sub_sub_sub_cancel_left] at hsub
  have hr := abs_lt.mp h.small
  have hr' := abs_lt.mp h'.small
  have hlt : |r - r'| < |b| := by
    rw [abs_lt]
    rcases le_total 0 s with hs | hs
    · have := h.nonneg hs
      have := h'.nonneg hs
      omega
    · have := h.nonpos hs
      have := h'.nonpos hs
      omega
  exact sub_eq_zero.mp (Int.eq_zero_of_abs_lt_dvd hdvd hlt)

end IsRemainder

/-! ## Quotients and remainders -/

/-- The quotient belongs to the remainder that has the sign of the divisor. -/
theorem fdiv_mul_add_tmod_eq_iff (hb : b ≠ 0) :
    a.fdiv b * b + a.tmod b = a ↔ b ∣ a ∨ a.sign = b.sign := by
  have hfmod : a.fdiv b * b + a.tmod b = a ↔ a.tmod b = a.fmod b := by
    have := Int.fdiv_mul_add_fmod a b
    omega
  have htrunc := isRemainder_tmod (a := a) hb
  have hfloor := isRemainder_fmod (a := a) hb
  rw [hfmod]
  constructor
  · intro h
    rcases htrunc.sign_eq with hzero | htsign
    · exact .inl (Int.dvd_of_tmod_eq_zero hzero)
    · rcases hfloor.sign_eq with hzero | hfsign
      · exact .inl (Int.dvd_iff_fmod_eq_zero.mpr hzero)
      · rw [← htsign, ← hfsign, h]
        exact .inr rfl
  · rintro (hdvd | hsign)
    · rw [Int.tmod_eq_zero_of_dvd hdvd, Int.dvd_iff_fmod_eq_zero.mp hdvd]
    · exact htrunc.unique ⟨hfloor.small, hfloor.dvd, hsign ▸ hfloor.sign_eq⟩

/-- **Division and remainder.**  A quotient is the greatest integer that is not above the exact
quotient.  A remainder is the only one that is smaller than the divisor, leaves a multiple of it,
and is zero or has the sign of the dividend.  They fit together only if the divisor divides the
dividend or both have one sign.  By zero there is neither, and constant propagation then has no
constant. -/
theorem div_floors_mod_truncates (a b : Int) :
    (b ≠ 0 → ∃ q r, div.eval a b = some q ∧ mod.eval a b = some r ∧
      IsGreatest {k : Int | (k : ℚ) ≤ (a : ℚ) / (b : ℚ)} q ∧
      (∀ x, x = r ↔ |x| < |b| ∧ b ∣ a - x ∧ (x = 0 ∨ x.sign = a.sign)) ∧
      (q * b + r = a ↔ b ∣ a ∨ a.sign = b.sign)) ∧
    (b = 0 → div.eval a b = none ∧ mod.eval a b = none ∧
      ∀ (env : ConstMap) (dest : String) (left right : Operand),
        Constants.resolve env left = .known a → Constants.resolve env right = .known b →
        Constants.eval? env (.binary dest left (.arithmetic div) right) = some .nac ∧
        Constants.eval? env (.binary dest left (.arithmetic mod) right) = some .nac) := by
  constructor
  · intro hb
    have hmod : mod.eval a b = some (a.tmod b) := by
      rw [← truncatedRemainder_eq_tmod]
      exact if_neg hb
    refine ⟨a.fdiv b, a.tmod b, if_neg hb, hmod, ?_, ?_, fdiv_mul_add_tmod_eq_iff hb⟩
    · exact ⟨(le_fdiv_iff hb).mp le_rfl, fun k hk => (le_fdiv_iff hb).mpr hk⟩
    · intro x
      have hr := isRemainder_tmod (a := a) hb
      constructor
      · rintro rfl
        exact ⟨hr.small, hr.dvd, hr.sign_eq⟩
      · rintro ⟨habs, hdvd, hsign⟩
        exact IsRemainder.unique ⟨habs, hdvd, hsign⟩ hr
  · rintro rfl
    refine ⟨rfl, rfl, fun env dest left right hleft hright => ?_⟩
    simp [Constants.eval?, hleft, hright, Constants.evalBinary, BinaryOp.eval, eval]

end Arithmetic

end FlowTrace
