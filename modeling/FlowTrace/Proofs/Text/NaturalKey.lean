import FlowTrace.Text.NaturalOrder
import FlowTrace.Proofs.Text.Decimal
import Mathlib.Data.List.TakeWhile

/-!
# Keys of names

The key of a name alternates between texts and numbers and starts with a text, so pieces that are
compared are of the same sort.  A number has lost the zeros in front of it and nothing else: names
have equal keys if they differ in such zeros only.
-/

namespace FlowTrace.Text

/-! ## The order of keys -/

namespace KeyPiece

def isNumber : KeyPiece → Bool
  | text _ => false
  | number _ => true

instance : Std.OrientedCmp compare where
  eq_swap {p q} := by
    match p, q with
    | text _, text _ => exact Std.OrientedOrd.eq_swap
    | number _, number _ => exact Std.OrientedOrd.eq_swap
    | text _, number _ => rfl
    | number _, text _ => rfl

instance : Std.TransCmp compare where
  isLE_trans {p q r} hpq hqr := by
    match p, q, r with
    | text _, text _, text _ => exact Std.TransOrd.isLE_trans hpq hqr
    | number _, number _, number _ => exact Std.TransOrd.isLE_trans hpq hqr
    | text _, _, number _ => rfl
    | text _, number _, text _ => cases hqr
    | number _, text _, _ => cases hpq
    | number _, number _, text _ => cases hqr

instance : Std.LawfulEqCmp compare where
  eq_of_compare {p q} h := by
    match p, q with
    | text _, text _ => rw [Std.LawfulEqOrd.eq_of_compare h]
    | number _, number _ => rw [Std.LawfulEqOrd.eq_of_compare h]
    | text _, number _ => cases h
    | number _, text _ => cases h

end KeyPiece

/-- Keys are in lexicographic order. -/
theorem keyLe_eq_isLE (j k : List KeyPiece) :
    keyLe j k = (List.compareLex KeyPiece.compare j k).isLE := by
  fun_induction keyLe j k with
  | case1 k => cases k <;> rfl
  | case2 => rfl
  | case3 p ps q qs h => simp [List.compareLex_cons_cons, h]
  | case4 p ps q qs h ih => simp [List.compareLex_cons_cons, h, ih]
  | case5 p ps q qs h => simp [List.compareLex_cons_cons, h]

theorem compareLex_swap (j k : List KeyPiece) : List.compareLex KeyPiece.compare k j =
    (List.compareLex KeyPiece.compare j k).swap := Std.OrientedCmp.eq_swap

theorem keyLe_total (j k : List KeyPiece) : keyLe j k ∨ keyLe k j := by
  rw [keyLe_eq_isLE, keyLe_eq_isLE, compareLex_swap j k]
  cases List.compareLex KeyPiece.compare j k <;> simp

theorem keyLe_refl (k : List KeyPiece) : keyLe k k := (keyLe_total k k).elim id id

theorem keyLe_trans (i j k : List KeyPiece) (hij : keyLe i j) (hjk : keyLe j k) : keyLe i k := by
  rw [keyLe_eq_isLE] at *
  exact Std.TransCmp.isLE_trans hij hjk

theorem keyLe_antisymm {j k : List KeyPiece} (hjk : keyLe j k) (hkj : keyLe k j) : j = k := by
  rw [keyLe_eq_isLE] at hjk
  rw [keyLe_eq_isLE, compareLex_swap j k] at hkj
  cases h : List.compareLex KeyPiece.compare j k with
  | lt => simp [h] at hkj
  | eq => exact Std.LawfulEqCmp.eq_of_compare h
  | gt => simp [h] at hjk

/-! ## Runs -/

variable {c : Char} {cs w ds rest : List Char}

/-- The text does not start with a digit. -/
def NotInDigits (cs : List Char) : Prop := ∀ c, cs.head? = some c → isDecimal c = false

theorem runsFrom_fst (h : NotInDigits cs) : (runsFrom cs).1 = false := by
  cases cs with
  | nil => rfl
  | cons c cs =>
    have hc := h c rfl
    rw [runsFrom]
    cases hb : (runsFrom cs).1 <;> simp [hb, hc]

/-- A run of digits by itself, in front of what does not start with a digit. -/
theorem runsFrom_digits (hne : ds ≠ []) (hds : ∀ c ∈ ds, isDecimal c = true)
    (hrest : NotInDigits rest) : runsFrom (ds ++ rest) = (true, ds :: (runsFrom rest).2) := by
  induction ds with
  | nil => exact absurd rfl hne
  | cons c ds ih =>
    have hc := hds c List.mem_cons_self
    cases ds with
    | nil => simp [runsFrom, runsFrom_fst hrest, hc]
    | cons d ds =>
      have hrun := ih (List.cons_ne_nil d ds) fun e he => hds e (List.mem_cons_of_mem c he)
      rw [List.cons_append, runsFrom, hrun]
      simp [hc, runsFrom.consRun]

/-- A character of a text goes to the first run. -/
theorem runs_cons_text (hc : isDecimal c = false) {r : List Char} {rs : List (List Char)}
    (h : runs cs = r :: rs) : runs (c :: cs) = (c :: r) :: rs := by
  unfold runs at h ⊢
  rw [runsFrom]
  cases hb : (runsFrom cs).1 <;> simp_all [runsFrom.consRun]

theorem runs_text_append (hw : ∀ c ∈ w, isDecimal c = false) {r : List Char}
    {rs : List (List Char)} (h : runs cs = r :: rs) : runs (w ++ cs) = (w ++ r) :: rs := by
  induction w with
  | nil => exact h
  | cons c w ih =>
    exact runs_cons_text (hw c List.mem_cons_self)
      (ih fun d hd => hw d (List.mem_cons_of_mem c hd))

theorem runs_text (hw : ∀ c ∈ w, isDecimal c = false) : runs w = [w] := by
  have hnil : runs [] = [[]] := rfl
  simpa using runs_text_append hw hnil

/-- A text, a number, and what follows them. -/
theorem runs_text_digits (hw : ∀ c ∈ w, isDecimal c = false) (hne : ds ≠ [])
    (hds : ∀ c ∈ ds, isDecimal c = true) (hrest : NotInDigits rest) :
    runs (w ++ (ds ++ rest)) = w :: ds :: runs rest := by
  have hdigits : runs (ds ++ rest) = [] :: ds :: runs rest := by
    simp [runs, runsFrom_digits hne hds hrest, runsFrom_fst hrest]
  simpa using runs_text_append hw hdigits

/-! ## Keys -/

/-- A text without digits of any sort. -/
def NoDigits (w : List Char) : Prop := ∀ c ∈ w, isDecimal c = false ∧ isDigitSign c = false

/-- The only digits in a text are plain ones. -/
def PlainDigits (cs : List Char) : Prop :=
  ∀ c ∈ cs, isDecimal c = c.isDigit ∧ isDigitSign c = false

/-- No run of digits is longer than what can be read. -/
def ShortRuns (cs : List Char) : Prop :=
  ∀ ds, ds <:+: cs → (∀ c ∈ ds, c.isDigit = true) → ds.length ≤ digitLimit

/-- The key of a text with plain digits: text and numbers in turn. -/
inductive IsKey : List Char → List KeyPiece → Prop
  | text {w : List Char} (hw : NoDigits w) : IsKey w [.text (String.ofList w)]
  | number {w ds rest : List Char} {k : List KeyPiece} (hw : NoDigits w) (hne : ds ≠ [])
    (hds : ∀ c ∈ ds, c.isDigit = true) (hshort : ds.length ≤ digitLimit)
    (hrest : NotInDigits rest) (h : IsKey rest k) :
    IsKey (w ++ (ds ++ rest)) (.text (String.ofList w) :: .number (ofDigits (ds.map digitOf)) :: k)

theorem isDecimal_of_isDigit (hc : c.isDigit = true) : isDecimal c = true := by
  rw [isDecimal, decimalValue?_of_isDigit hc]
  rfl

theorem isDigit_of_isDecimal_eq_false (hc : isDecimal c = false) : c.isDigit = false := by
  rw [← Bool.not_eq_true] at hc ⊢
  exact fun h => hc (isDecimal_of_isDigit h)

theorem keyPiece_text (hw : NoDigits w) : keyPiece w = .ok (.text (String.ofList w)) := by
  have hall : (!w.isEmpty && w.all fun c => isDecimal c || isDigitSign c) = false := by
    cases w with
    | nil => rfl
    | cons c w => simp [hw c List.mem_cons_self]
  rw [keyPiece, hall]
  rfl

theorem keyPiece_number (hne : ds ≠ []) (hds : ∀ c ∈ ds, c.isDigit = true)
    (hshort : ds.length ≤ digitLimit) :
    keyPiece ds = .ok (.number (ofDigits (ds.map digitOf))) := by
  have hall : (!ds.isEmpty && ds.all fun c => isDecimal c || isDigitSign c) = true := by
    simp only [Bool.and_eq_true, Bool.not_eq_true', List.isEmpty_eq_false_iff, List.all_eq_true,
      Bool.or_eq_true]
    exact ⟨hne, fun c hc => .inl (isDecimal_of_isDigit (hds c hc))⟩
  have hread := readInt_of_isDigit (s := String.ofList ds) (by simpa using hne) (by simpa using hds)
  rw [String.toList_ofList, if_neg (Nat.not_lt.mpr hshort)] at hread
  rw [keyPiece, hall, if_pos rfl, hread]
  rfl

theorem ShortRuns.of_infix (h : ShortRuns cs) (hw : w <:+: cs) : ShortRuns w :=
  fun ds hds => h ds (hds.trans hw)

theorem PlainDigits.noDigits (h : PlainDigits cs) (hw : ∀ c ∈ cs, c.isDigit = false) :
    NoDigits cs :=
  fun c hc => ⟨(h c hc).1.trans (hw c hc), (h c hc).2⟩

/-- The first number in a text, with what comes before and after it. -/
theorem exists_first_number (h : ∃ c ∈ cs, c.isDigit = true) :
    ∃ w ds rest, cs = w ++ (ds ++ rest) ∧ (∀ c ∈ w, c.isDigit = false) ∧ ds ≠ [] ∧
      (∀ c ∈ ds, c.isDigit = true) ∧ ∀ c, rest.head? = some c → c.isDigit = false := by
  induction cs with
  | nil => simp at h
  | cons c cs ih =>
    by_cases hc : c.isDigit = true
    · refine ⟨[], c :: cs.takeWhile Char.isDigit, cs.dropWhile Char.isDigit, ?_, by simp, by simp,
        ?_, fun d hd => ?_⟩
      · simp [List.takeWhile_append_dropWhile]
      · exact List.forall_mem_cons.mpr ⟨hc, fun d => List.mem_takeWhile_imp⟩
      · simpa [hd] using List.head?_dropWhile_not Char.isDigit cs
    · obtain ⟨w, ds, rest, rfl, hw, hrest⟩ := ih (by simpa [hc] using h)
      refine ⟨c :: w, ds, rest, rfl, ?_, hrest⟩
      exact List.forall_mem_cons.mpr ⟨by simpa using hc, hw⟩

/-- A text with plain digits and short runs has a key. -/
theorem exists_isKey {cs : List Char} (hplain : PlainDigits cs) (hshort : ShortRuns cs) :
    ∃ k, IsKey cs k := by
  by_cases h : ∃ c ∈ cs, c.isDigit = true
  · obtain ⟨w, ds, rest, hcs, hw, hne, hds, hrest⟩ := exists_first_number h
    have hlt : rest.length < cs.length := by
      have hpos := List.length_pos_iff.mpr hne
      rw [hcs, List.length_append, List.length_append]
      omega
    have hplainRest : PlainDigits rest := fun c hc => hplain c (by simp [hcs, hc])
    have hshortRest : ShortRuns rest := hshort.of_infix ⟨w ++ ds, [], by simp [hcs]⟩
    obtain ⟨k, hk⟩ := exists_isKey hplainRest hshortRest
    rw [hcs] at hplain hshort ⊢
    refine ⟨_, .number ?_ hne hds (hshort ds ⟨w, rest, by simp⟩ hds) ?_ hk⟩
    · exact PlainDigits.noDigits (fun c hc => hplain c (by simp [hc])) hw
    · exact fun c hc => (hplainRest c (List.mem_of_mem_head? hc)).1.trans (hrest c hc)
  · refine ⟨_, .text (hplain.noDigits fun c hc => ?_)⟩
    rw [← Bool.not_eq_true]
    exact fun hd => h ⟨c, hc, hd⟩
termination_by cs.length

namespace IsKey

variable {j k : List KeyPiece}

theorem mapM_keyPiece (h : IsKey cs k) : (runs cs).mapM keyPiece = .ok k := by
  induction h with
  | text hw =>
    rw [runs_text fun c hc => (hw c hc).1, List.mapM_cons, keyPiece_text hw]
    rfl
  | number hw hne hds hshort hrest h ih =>
    rw [runs_text_digits (fun c hc => (hw c hc).1) hne
      (fun c hc => isDecimal_of_isDigit (hds c hc)) hrest, List.mapM_cons, List.mapM_cons,
      keyPiece_text hw, keyPiece_number hne hds hshort, ih]
    rfl

theorem unique (h : IsKey cs j) (h' : IsKey cs k) : j = k :=
  Except.ok.inj (h.mapM_keyPiece.symm.trans h'.mapM_keyPiece)

/-- Numbers stand at the odd places. -/
theorem isNumber_eq (h : IsKey cs k) {i : Nat} {p : KeyPiece} (hp : k[i]? = some p) :
    p.isNumber = decide (i % 2 = 1) := by
  induction h generalizing i with
  | text hw =>
    match i with
    | 0 =>
      obtain rfl := Option.some.inj hp
      rfl
    | i + 1 => simp at hp
  | number hw hne hds hshort hrest h ih =>
    match i with
    | 0 =>
      obtain rfl := Option.some.inj hp
      rfl
    | 1 =>
      obtain rfl := Option.some.inj hp
      rfl
    | i + 2 => simpa using ih hp

end IsKey

/-! ## Superfluous zeros -/

/-- Leave out the zeros that a run of digits starts with, unless they are its last digit; `inRun`
says that the run has a digit already. -/
def dropZeros (inRun : Bool) : List Char → List Char
  | [] => []
  | c :: cs =>
    if !inRun && c == '0' && cs.head?.any Char.isDigit then dropZeros false cs
    else c :: dropZeros c.isDigit cs

theorem ne_zero_of_isDecimal_eq_false (hc : isDecimal c = false) : c ≠ '0' := by
  rintro rfl
  cases isDigit_of_isDecimal_eq_false hc

theorem dropZeros_text_append (hw : NoDigits w) (cs : List Char) :
    dropZeros false (w ++ cs) = w ++ dropZeros false cs := by
  induction w with
  | nil => rfl
  | cons c w ih =>
    obtain ⟨hc, htail⟩ := List.forall_mem_cons.mp hw
    rw [List.cons_append, dropZeros, isDigit_of_isDecimal_eq_false hc.1, ih htail]
    simp [ne_zero_of_isDecimal_eq_false hc.1]

theorem dropZeros_text (hw : NoDigits w) : dropZeros false w = w := by
  simpa [dropZeros] using dropZeros_text_append hw []

/-- All digits that come after another one are kept. -/
theorem dropZeros_digits_append (hds : ∀ c ∈ ds, c.isDigit = true) (cs : List Char) :
    dropZeros true (ds ++ cs) = ds ++ dropZeros true cs := by
  induction ds with
  | nil => rfl
  | cons c ds ih =>
    rw [List.cons_append, dropZeros, hds c List.mem_cons_self,
      ih fun d hd => hds d (List.mem_cons_of_mem c hd)]
    simp

theorem dropZeros_true (h : NotInDigits cs) : dropZeros true cs = dropZeros false cs := by
  cases cs with
  | nil => rfl
  | cons c cs => simp [dropZeros, ne_zero_of_isDecimal_eq_false (h c rfl)]

theorem dropZeros_zero_cons {d : Char} (hd : d.isDigit = true) (cs : List Char) :
    dropZeros false ('0' :: d :: cs) = dropZeros false (d :: cs) := by
  simp [dropZeros, hd]

/-- A number that has no superfluous zeros. -/
theorem dropZeros_kept (hc : c.isDigit = true) (hds : ∀ d ∈ ds, d.isDigit = true)
    (hkept : c ≠ '0' ∨ ds = []) (hrest : NotInDigits rest) :
    dropZeros false (c :: ds ++ rest) = c :: ds ++ dropZeros false rest := by
  have hstart : (c == '0' && (ds ++ rest).head?.any Char.isDigit) = false := by
    rcases hkept with hne | rfl
    · simp [hne]
    · cases rest with
      | nil => simp
      | cons d rest => simp [isDigit_of_isDecimal_eq_false (hrest d rfl)]
  rw [List.cons_append, dropZeros, Bool.not_false, Bool.true_and, hstart, hc,
    dropZeros_digits_append hds, dropZeros_true hrest]
  rfl

theorem dropZeros_kept_nil (hc : c.isDigit = true) (hds : ∀ d ∈ ds, d.isDigit = true)
    (hkept : c ≠ '0' ∨ ds = []) : dropZeros false (c :: ds) = c :: ds := by
  have hnil : NotInDigits [] := fun _ h => by cases h
  simpa [dropZeros] using dropZeros_kept hc hds hkept hnil

/-- A run of digits ends where the text goes on. -/
theorem dropZeros_number (hne : ds ≠ []) (hds : ∀ c ∈ ds, c.isDigit = true)
    (hrest : NotInDigits rest) :
    dropZeros false (ds ++ rest) = dropZeros false ds ++ dropZeros false rest := by
  induction ds with
  | nil => exact absurd rfl hne
  | cons c ds ih =>
    obtain ⟨hc, htail⟩ := List.forall_mem_cons.mp hds
    by_cases hkept : c ≠ '0' ∨ ds = []
    · rw [dropZeros_kept hc htail hkept hrest, dropZeros_kept_nil hc htail hkept]
    · obtain ⟨rfl, hds'⟩ : c = '0' ∧ ds ≠ [] := by simpa using hkept
      obtain ⟨d, ds, rfl⟩ := List.exists_cons_of_ne_nil hds'
      have hd := htail d List.mem_cons_self
      rw [List.cons_append, List.cons_append, dropZeros_zero_cons hd, dropZeros_zero_cons hd]
      exact ih hds' htail

/-- What is left of a run of digits is how its number is written. -/
theorem dropZeros_digits (hne : ds ≠ []) (hds : ∀ c ∈ ds, c.isDigit = true) :
    dropZeros false ds <:+ ds ∧ dropZeros false ds ≠ [] ∧
      ofDigits ((dropZeros false ds).map digitOf) = ofDigits (ds.map digitOf) ∧
      Nat.toDigits 10 (ofDigits (ds.map digitOf)) = dropZeros false ds := by
  induction ds with
  | nil => exact absurd rfl hne
  | cons c ds ih =>
    obtain ⟨hc, htail⟩ := List.forall_mem_cons.mp hds
    by_cases hkept : c ≠ '0' ∨ ds = []
    · rw [dropZeros_kept_nil hc htail hkept]
      refine ⟨List.suffix_refl _, hne, rfl, ?_⟩
      rcases hkept with hzero | rfl
      · exact (toDigits_ofDigits hc hzero htail).2
      · simpa [ofDigits] using toDigits_digitOf hc
    · obtain ⟨rfl, hds'⟩ : c = '0' ∧ ds ≠ [] := by simpa using hkept
      obtain ⟨hsuffix, hleft, hvalue, hdigits⟩ := ih hds' htail
      obtain ⟨d, ds, rfl⟩ := List.exists_cons_of_ne_nil hds'
      rw [dropZeros_zero_cons (htail d List.mem_cons_self)]
      -- a zero in front does not count
      exact ⟨hsuffix.trans (List.suffix_cons _ _), hleft, hvalue, hdigits⟩

theorem NotInDigits.dropZeros (h : NotInDigits cs) : NotInDigits (dropZeros false cs) := by
  cases cs with
  | nil => exact h
  | cons c cs =>
    have hhead : Text.dropZeros false (c :: cs) = c :: Text.dropZeros c.isDigit cs := by
      simp [Text.dropZeros, ne_zero_of_isDecimal_eq_false (h c rfl)]
    rw [hhead]
    exact h

/-- A piece of a key as text. -/
def KeyPiece.written : KeyPiece → List Char
  | text s => s.toList
  | number n => (toString n).toList

namespace IsKey

variable {j k : List KeyPiece} {a b : List Char}

/-- Superfluous zeros do not count. -/
theorem dropZeros (h : IsKey cs k) : IsKey (dropZeros false cs) k := by
  induction h with
  | text hw =>
    rw [dropZeros_text hw]
    exact .text hw
  | number hw hne hds hshort hrest h ih =>
    obtain ⟨hsuffix, hleft, hvalue, -⟩ := dropZeros_digits hne hds
    rw [dropZeros_text_append hw, dropZeros_number hne hds hrest, ← hvalue]
    exact .number hw hleft (fun c hc => hds c (hsuffix.subset hc))
      (hsuffix.length_le.trans hshort) hrest.dropZeros ih

/-- The pieces of a key, written one after the other, are the name without superfluous zeros. -/
theorem written_eq (h : IsKey cs k) : k.flatMap KeyPiece.written = Text.dropZeros false cs := by
  induction h with
  | text hw => simp [KeyPiece.written, dropZeros_text hw]
  | number hw hne hds hshort hrest h ih =>
    obtain ⟨-, -, -, hdigits⟩ := dropZeros_digits hne hds
    rw [dropZeros_text_append hw, dropZeros_number hne hds hrest, ← ih, ← hdigits,
      List.flatMap_cons, List.flatMap_cons, KeyPiece.written, String.toList_ofList,
      KeyPiece.written]
    change _ ++ ((toString (ofDigits _)).toList ++ _) = _
    rw [Nat.toString_eq_ofList_toDigits, String.toList_ofList]

/-- Names have equal keys exactly if they differ in superfluous zeros only. -/
theorem eq_iff (ha : IsKey a j) (hb : IsKey b k) :
    j = k ↔ Text.dropZeros false a = Text.dropZeros false b := by
  constructor
  · rintro rfl
    rw [← ha.written_eq, hb.written_eq]
  · intro h
    have hj := ha.dropZeros
    rw [h] at hj
    exact hj.unique hb.dropZeros

end IsKey

end FlowTrace.Text
