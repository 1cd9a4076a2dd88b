import FlowTrace.Text.Numeral
import FlowTrace.Proofs.Text.Cutting
import Mathlib.Data.List.Induction

/-!
# Decimal numerals

What reading makes of plain decimal digits: the number that they write, unless there are too many.
Digits that do not start with a superfluous zero are the way in which their number is written, so
they can be told from the number.
-/

namespace FlowTrace.Text

variable {c : Char} {cs : List Char} {s : String}

/-- The value of a plain digit. -/
def digitOf (c : Char) : Nat := c.toNat - '0'.toNat

theorem toNat_of_isDigit (hc : c.isDigit = true) : 48 ≤ c.toNat ∧ c.toNat ≤ 57 := by
  simpa [Char.isDigit, UInt32.le_iff_toNat_le] using hc

theorem decimalValue?_of_isDigit (hc : c.isDigit = true) :
    decimalValue? c = some (digitOf c) := by
  have hlo := (toNat_of_isDigit hc).1
  have hhi : c.toNat < 58 := by
    have := (toNat_of_isDigit hc).2
    omega
  simp [decimalValue?, decimalZeros, hlo, hhi, digitOf]

theorem isBlank_of_isDigit (hc : c.isDigit = true) : isBlank c = false := by
  obtain ⟨hlo, hhi⟩ := toNat_of_isDigit hc
  exact isBlank_of_graphic (by omega) (by omega)

/-- Reading runs through all digits. -/
theorem digitRun_of_isDigit (hcs : ∀ c ∈ cs, c.isDigit = true) {primed : Bool}
    (h : primed = true ∨ cs ≠ []) : digitRun primed cs = some (cs.map digitOf, []) := by
  induction cs generalizing primed with
  | nil =>
    rcases h with rfl | h
    · rfl
    · exact absurd rfl h
  | cons c cs ih =>
    have hvalue := decimalValue?_of_isDigit (hcs c List.mem_cons_self)
    have hrest := ih (fun d hd => hcs d (List.mem_cons_of_mem _ hd)) (.inl rfl)
    simp [digitRun, hvalue, hrest]

theorem trimBy_of_forall {p : Char → Bool} (h : ∀ c ∈ cs, p c = false) : trimBy p cs = cs := by
  have hdrop : ∀ {l : List Char}, (∀ c ∈ l, p c = false) → l.dropWhile p = l := by
    intro l hl
    cases l with
    | nil => rfl
    | cons c l => simp [hl c List.mem_cons_self]
  rw [trimBy, hdrop h, hdrop fun c hc => h c (List.mem_reverse.mp hc), List.reverse_reverse]

/-- What is read from plain digits. -/
theorem readInt_of_isDigit (hne : s.toList ≠ []) (hs : ∀ c ∈ s.toList, c.isDigit = true) :
    readInt s = if digitLimit < s.toList.length then .error (.longText s.toList.length)
      else .ok (ofDigits (s.toList.map digitOf) : Int) := by
  have htrim : trimBy isNumeralBlank s.toList = s.toList :=
    trimBy_of_forall fun c hc => by simp [isNumeralBlank, isBlank_of_isDigit (hs c hc)]
  have hsign : splitSign s.toList = (false, s.toList) := by
    generalize hcs : s.toList = cs at hs
    unfold splitSign
    split
    · exact absurd (hs '-' List.mem_cons_self) (by decide)
    · exact absurd (hs '+' List.mem_cons_self) (by decide)
    · rfl
  simp only [readInt, htrim, hsign, digitRun_of_isDigit hs (.inr hne), List.length_map]
  rfl

theorem digitOf_lt (hc : c.isDigit = true) : digitOf c < 10 := by
  have := (toNat_of_isDigit hc).2
  show c.toNat - 48 < 10
  omega

theorem digitChar_digitOf (hc : c.isDigit = true) : (digitOf c).digitChar = c := by
  have hall : ∀ k < 10, k.digitChar = Char.ofNat (48 + k) := by decide
  have hnat : 48 + digitOf c = c.toNat := by
    have := (toNat_of_isDigit hc).1
    show 48 + (c.toNat - 48) = c.toNat
    omega
  rw [hall _ (digitOf_lt hc), hnat, Char.ofNat_toNat]

theorem ofDigits_snoc (ds : List Nat) (d : Nat) :
    ofDigits (ds ++ [d]) = 10 * ofDigits ds + d := by
  simp [ofDigits, Nat.mul_comm]

theorem toDigits_digitOf (hc : c.isDigit = true) : Nat.toDigits 10 (digitOf c) = [c] := by
  rw [Nat.toDigits_of_lt_base (digitOf_lt hc), digitChar_digitOf hc]

/-- Digits that do not start with zero write the number whose digits they are. -/
theorem toDigits_ofDigits (hc : c.isDigit = true) (hzero : c ≠ '0')
    (hcs : ∀ d ∈ cs, d.isDigit = true) :
    0 < ofDigits ((c :: cs).map digitOf) ∧
      Nat.toDigits 10 (ofDigits ((c :: cs).map digitOf)) = c :: cs := by
  -- From the right, since the last digit is what division by ten leaves.
  induction cs using List.reverseRecOn with
  | nil =>
    have hvalue : ofDigits ([c].map digitOf) = digitOf c := by simp [ofDigits]
    rw [hvalue, toDigits_digitOf hc]
    refine ⟨Nat.pos_of_ne_zero fun h => hzero ?_, rfl⟩
    rw [← digitChar_digitOf hc, h]
    rfl
  | append_singleton cs d ih =>
    obtain ⟨hpos, hdigits⟩ := ih fun e he => hcs e (List.mem_append_left _ he)
    have hd : d.isDigit = true := hcs d (by simp)
    have hvalue : ofDigits ((c :: (cs ++ [d])).map digitOf) =
        10 * ofDigits ((c :: cs).map digitOf) + digitOf d := by
      rw [← ofDigits_snoc, ← List.cons_append, List.map_append]
      rfl
    rw [hvalue]
    refine ⟨by omega, ?_⟩
    rw [← Nat.toDigits_append_toDigits (by decide) hpos (digitOf_lt hd), hdigits,
      toDigits_digitOf hd]
    rfl

/-- A numeral without a superfluous zero is how its value is written. -/
theorem toString_of_readInt {v : Int} (hs : ∀ c ∈ s.toList, c.isDigit = true)
    (hzero : s = "0" ∨ ∃ c cs, s.toList = c :: cs ∧ c ≠ '0') (h : readInt s = .ok v) :
    toString v = s := by
  rcases hzero with rfl | ⟨c, cs, hcs, hc⟩
  · obtain rfl : (0 : Int) = v := Except.ok.inj h
    rfl
  · rw [readInt_of_isDigit (by simp [hcs]) hs] at h
    split at h
    · cases h
    · obtain rfl := Except.ok.inj h
      rw [hcs] at hs ⊢
      have hdigits := (toDigits_ofDigits (hs c List.mem_cons_self) hc
        fun d hd => hs d (List.mem_cons_of_mem _ hd)).2
      show toString (ofDigits ((c :: cs).map digitOf)) = s
      rw [Nat.toString_eq_ofList_toDigits, hdigits, ← hcs, String.ofList_toList]

end FlowTrace.Text

namespace FlowTrace

/-- A literal of ones. -/
def Token.ones (k : Nat) : String := String.ofList (List.replicate k '1')

theorem Text.readInt_ones {k : Nat} (hk : digitLimit < k) :
    readInt (Token.ones k) = .error (.longText k) := by
  have hne : (Token.ones k).toList ≠ [] := by
    simp [Token.ones, Nat.ne_of_gt (Nat.zero_lt_of_lt hk)]
  have hdigits : ∀ c ∈ (Token.ones k).toList, c.isDigit = true := by
    intro c hc
    rw [Token.ones, String.toList_ofList, List.mem_replicate] at hc
    rw [hc.2]
    rfl
  have hlength : (Token.ones k).toList.length = k := by simp [Token.ones]
  rw [readInt_of_isDigit hne hdigits, hlength, if_pos hk]

end FlowTrace
