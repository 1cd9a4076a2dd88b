import FlowTrace.Proofs.Source.Spelling
import Mathlib.Computability.RegularExpressions

/-!
# The vocabulary

Each kind of token has a regular expression for its texts.  Classification does not look for the
expression that matches a piece: it keeps the first kind that matches an initial part.  The outcome
is the same, because the first character of a piece leaves one kind only, keywords apart, and a
keyword is found only where the word ends.
-/

namespace FlowTrace.Token

open RegularExpression (char)

variable {c : Char} {w cs : List Char} {s : String} {k : Kind} {L : Lexeme}

/-! ## Expressions -/

/-- Any of the characters. -/
def anyOf (cs : List Char) : RegularExpression Char := (cs.map char).sum

/-- Any of the characters from the first one to the last one. -/
def between (first last : Char) : RegularExpression Char :=
  anyOf ((List.range' first.toNat (last.toNat + 1 - first.toNat)).map Char.ofNat)

/-- The characters one after the other. -/
def inTurn (cs : List Char) : RegularExpression Char := (cs.map char).prod

namespace Kind

def upper : RegularExpression Char := between 'A' 'Z'

def lower : RegularExpression Char := between 'a' 'z'

def digit : RegularExpression Char := between '0' '9'

/-- What the texts of a kind look like. -/
def pattern : Kind → RegularExpression Char
  | ifTrue => inTurn "if".toList
  | ifFalse => inTurn "ifFalse".toList
  | goto => inTurn "goto".toList
  | label => upper * (1 + (upper + digit + char '_').star * (upper + digit))
  | integerLiteral => char '0' + between '1' '9' * digit.star
  | identifier => lower * (lower + digit).star
  | symbol => anyOf "+-*/%<>=:!".toList + anyOf "=<>!".toList * char '='
  | eol => 0

/-- The texts of a kind.  A keyword is no identifier. -/
def texts : Kind → Language Char
  | identifier =>
    identifier.pattern.matches' - (ifTrue.pattern + ifFalse.pattern + goto.pattern).matches'
  | k => k.pattern.matches'

end Kind

/-- The expression matches just the single characters of a class. -/
def IsClass (P : RegularExpression Char) (p : Char → Bool) : Prop :=
  ∀ w, w ∈ P.matches' ↔ ∃ c, p c = true ∧ w = [c]

theorem mem_anyOf : w ∈ (anyOf cs).matches' ↔ ∃ c ∈ cs, w = [c] := by
  induction cs with
  | nil => simp [anyOf]
  | cons c cs ih =>
    rw [anyOf, List.map_cons, List.sum_cons, RegularExpression.matches'_add, Language.mem_add]
    simp only [List.mem_cons, exists_eq_or_imp]
    exact or_congr Iff.rfl ih

theorem mem_inTurn : w ∈ (inTurn cs).matches' ↔ w = cs := by
  induction cs generalizing w with
  | nil => exact Language.mem_one w
  | cons c cs ih =>
    rw [inTurn, List.map_cons, List.prod_cons, RegularExpression.matches'_mul, Language.mem_mul]
    constructor
    · rintro ⟨_, rfl, v, hv, rfl⟩
      rw [ih.mp hv]
      rfl
    · rintro rfl
      exact ⟨[c], rfl, cs, ih.mpr rfl, rfl⟩

namespace IsClass

variable {P Q : RegularExpression Char} {p q : Char → Bool}

theorem char (c : Char) : IsClass (.char c) (· == c) := by
  intro w
  constructor
  · intro hw
    exact ⟨c, beq_self_eq_true c, hw⟩
  · rintro ⟨d, hd, rfl⟩
    rw [beq_iff_eq.mp hd]
    rfl

theorem between {first last : Char} (hlast : last.toNat < 0xD800) :
    IsClass (between first last) fun c => first ≤ c && c ≤ last := by
  intro w
  rw [Token.between, mem_anyOf]
  refine exists_congr fun c => and_congr_left fun _ => ?_
  simp only [List.mem_map, List.mem_range'_1, Bool.and_eq_true, decide_eq_true_eq, Char.le_def,
    UInt32.le_iff_toNat_le, Char.toNat_val]
  constructor
  · rintro ⟨n, hn, rfl⟩
    have hvalid : n.isValidChar := .inl (by omega)
    have hn : (Char.ofNat n).toNat = n := by
      rw [Char.ofNat, dif_pos hvalid]
      rfl
    omega
  · intro h
    exact ⟨c.toNat, by omega, Char.ofNat_toNat c⟩

theorem add (hP : IsClass P p) (hQ : IsClass Q q) : IsClass (P + Q) fun c => p c || q c := by
  intro w
  rw [RegularExpression.matches'_add, Language.mem_add, hP, hQ]
  simp only [Bool.or_eq_true, or_and_right, exists_or]

/-- A text of any length is made of characters of the class. -/
theorem mem_star (hP : IsClass P p) : w ∈ P.star.matches' ↔ ∀ c ∈ w, p c = true := by
  rw [RegularExpression.matches'_star, Language.mem_kstar]
  constructor
  · rintro ⟨ws, rfl, hws⟩ c hc
    obtain ⟨v, hv, hc⟩ := List.mem_flatten.mp hc
    obtain ⟨d, hd, rfl⟩ := (hP v).mp (hws v hv)
    rwa [List.mem_singleton.mp hc]
  · intro hw
    refine ⟨w.map fun c => [c], ?_, ?_⟩
    · rw [← List.flatMap_def, List.flatMap_singleton']
    intro v hv
    obtain ⟨c, hc, rfl⟩ := List.mem_map.mp hv
    exact (hP _).mpr ⟨c, hw c hc, rfl⟩

/-- A character of the class stands in front. -/
theorem mem_mul (hP : IsClass P p) :
    w ∈ (P * Q).matches' ↔ ∃ c cs, w = c :: cs ∧ p c = true ∧ cs ∈ Q.matches' := by
  rw [RegularExpression.matches'_mul, Language.mem_mul]
  constructor
  · rintro ⟨u, hu, cs, hcs, rfl⟩
    obtain ⟨c, hc, rfl⟩ := (hP u).mp hu
    exact ⟨c, cs, rfl, hc, hcs⟩
  · rintro ⟨c, cs, rfl, hc, hcs⟩
    exact ⟨[c], (hP _).mpr ⟨c, hc, rfl⟩, cs, hcs, rfl⟩

/-- A character of the class stands at the end. -/
theorem concat_mem_mul (hQ : IsClass Q q) :
    cs ++ [c] ∈ (P * Q).matches' ↔ cs ∈ P.matches' ∧ q c = true := by
  rw [RegularExpression.matches'_mul, Language.mem_mul]
  constructor
  · rintro ⟨v, hv, u, hu, heq⟩
    obtain ⟨d, hd, rfl⟩ := (hQ u).mp hu
    obtain ⟨rfl, rfl⟩ := by simpa using heq
    exact ⟨hv, hd⟩
  · rintro ⟨hcs, hc⟩
    exact ⟨cs, hcs, [c], (hQ _).mpr ⟨c, hc, rfl⟩, rfl⟩

end IsClass

/-! ## Patterns -/

theorem isClass_upper : IsClass Kind.upper isUpper := .between (by decide)

theorem isClass_lower : IsClass Kind.lower isLower := .between (by decide)

theorem isClass_digit : IsClass Kind.digit isDigit := .between (by decide)

theorem isUpper_iff : isUpper c = true ↔ 0x41 ≤ c.toNat ∧ c.toNat ≤ 0x5A := by
  simp [isUpper, Char.le_def, UInt32.le_iff_toNat_le]

theorem isLower_iff : isLower c = true ↔ 0x61 ≤ c.toNat ∧ c.toNat ≤ 0x7A := by
  simp [isLower, Char.le_def, UInt32.le_iff_toNat_le]

theorem isDigit_iff : isDigit c = true ↔ 0x30 ≤ c.toNat ∧ c.toNat ≤ 0x39 := by
  simp [isDigit, Char.le_def, UInt32.le_iff_toNat_le]

theorem mem_identifier_iff :
    w ∈ Kind.identifier.pattern.matches' ↔
      ∃ c cs, w = c :: cs ∧ isLower c = true ∧ ∀ d ∈ cs, (isLower d || isDigit d) = true := by
  rw [Kind.pattern, isClass_lower.mem_mul]
  simp only [(isClass_lower.add isClass_digit).mem_star]

theorem mem_integerLiteral_iff :
    w ∈ Kind.integerLiteral.pattern.matches' ↔
      w = ['0'] ∨
        ∃ c cs, w = c :: cs ∧ (c ≠ '0' ∧ isDigit c = true) ∧ ∀ d ∈ cs, isDigit d = true := by
  have hnonzero : ∀ c : Char, ('1' ≤ c && c ≤ '9') = true ↔ c ≠ '0' ∧ isDigit c = true := by
    intro c
    have hzero : c = '0' ↔ c.toNat = 0x30 := Char.toNat_inj.symm
    simp only [Bool.and_eq_true, decide_eq_true_eq, Char.le_def, UInt32.le_iff_toNat_le,
      Char.toNat_val, Char.reduceToNat, Ne, hzero, isDigit_iff]
    omega
  have hclass : IsClass (between '1' '9') fun c => '1' ≤ c && c ≤ '9' := .between (by decide)
  rw [Kind.pattern, RegularExpression.matches'_add, Language.mem_add, hclass.mem_mul]
  simp only [isClass_digit.mem_star, hnonzero]
  exact Iff.rfl

/-- A label does not end in an underscore. -/
theorem mem_label_iff :
    w ∈ Kind.label.pattern.matches' ↔
      ∃ c cs, w = c :: cs ∧ isUpper c = true ∧
        (∀ d ∈ cs, (isUpper d || isDigit d || d == '_') = true) ∧ cs.getLast? ≠ some '_' := by
  have hend := isClass_upper.add isClass_digit
  have hinner := hend.add (.char '_')
  have htail : ∀ cs : List Char,
      cs ∈ (1 + (Kind.upper + Kind.digit + char '_').star * (Kind.upper + Kind.digit)).matches' ↔
        (∀ d ∈ cs, (isUpper d || isDigit d || d == '_') = true) ∧ cs.getLast? ≠ some '_' := by
    intro cs
    rw [RegularExpression.matches'_add, Language.mem_add, RegularExpression.matches'_epsilon,
      Language.mem_one]
    rcases List.eq_nil_or_concat cs with rfl | ⟨mid, d, rfl⟩
    · simp
    · have hd : (isUpper d || isDigit d) = true ↔
          (isUpper d || isDigit d || d == '_') = true ∧ d ≠ '_' := by
        have hunderscore : d = '_' ↔ d.toNat = 0x5F := Char.toNat_inj.symm
        simp only [Bool.or_eq_true, beq_iff_eq, Ne, hunderscore, isUpper_iff, isDigit_iff]
        omega
      rw [List.concat_eq_append, hend.concat_mem_mul, hinner.mem_star, hd]
      simp [and_assoc, or_imp, forall_and]
  rw [Kind.pattern, isClass_upper.mem_mul]
  simp only [htail]

theorem mem_symbol_iff : w ∈ Kind.symbol.pattern.matches' ↔ ∃ s ∈ symbols, w = s.toList := by
  constructor
  · rw [Kind.pattern, RegularExpression.matches'_add, Language.mem_add, mem_anyOf,
      RegularExpression.matches'_mul, Language.mem_mul]
    rintro (⟨c, hc, rfl⟩ | ⟨_, hu, _, rfl, rfl⟩)
    · have hall : "+-*/%<>=:!".toList.all fun c => symbols.any fun s => [c] == s.toList := by decide
      simpa using List.all_eq_true.mp hall c hc
    · obtain ⟨c, hc, rfl⟩ := mem_anyOf.mp hu
      have hall : "=<>!".toList.all fun c => symbols.any fun s => [c, '='] == s.toList := by decide
      simpa using List.all_eq_true.mp hall c hc
  · rintro ⟨s, hs, rfl⟩
    have hall : symbols.all fun s => Kind.symbol.pattern.rmatch s.toList := by decide
    exact (RegularExpression.rmatch_iff_matches' _ _).mp (List.all_eq_true.mp hall s hs)

/-! ## Kinds one by one -/

/-- The matcher takes the whole of a piece if and only if the piece is of the kind. -/
def Finds (x : List Char → Option Match) (k : Kind) : Prop :=
  ∀ w L, x w = some (L, []) ↔ w ∈ k.pattern.matches' ∧ L = .ofKind k (some (String.ofList w))

theorem finds_identifier : Finds identifier? .identifier := by
  intro w L
  rw [mem_identifier_iff]
  cases w with
  | nil => simp [identifier?]
  | cons c cs =>
    by_cases hc : isLower c = true
    · have hmatch : identifier? (c :: cs) =
          some (.identifier (String.ofList (c :: cs.takeWhile fun d => isLower d || isDigit d)),
            cs.dropWhile fun d => isLower d || isDigit d) := if_pos hc
      rw [hmatch, Option.some.injEq, Prod.mk.injEq, List.dropWhile_eq_nil_iff]
      constructor
      · rintro ⟨rfl, hcs⟩
        rw [List.takeWhile_eq_self_iff.mpr hcs]
        exact ⟨⟨c, cs, rfl, hc, hcs⟩, rfl⟩
      · rintro ⟨⟨_, _, ⟨⟩, -, hcs⟩, rfl⟩
        rw [List.takeWhile_eq_self_iff.mpr hcs]
        exact ⟨rfl, hcs⟩
    · simp [identifier?, hc]

theorem finds_integerLiteral : Finds integerLiteral? .integerLiteral := by
  intro w L
  rw [mem_integerLiteral_iff]
  cases w with
  | nil => simp [integerLiteral?]
  | cons c cs =>
    by_cases hzero : c = '0'
    · subst hzero
      have hmatch : integerLiteral? ('0' :: cs) = some (.integerLiteral "0", cs) := by
        simp [integerLiteral?]
      rw [hmatch]
      constructor
      · rintro ⟨⟩
        exact ⟨.inl rfl, rfl⟩
      · rintro ⟨hcs | ⟨_, _, ⟨⟩, ⟨hne, -⟩, -⟩, rfl⟩
        · obtain rfl : cs = [] := by simpa using hcs
          rfl
        · exact absurd rfl hne
    · by_cases hc : isDigit c = true
      · have hmatch : integerLiteral? (c :: cs) =
            some (.integerLiteral (String.ofList (c :: cs.takeWhile isDigit)),
              cs.dropWhile isDigit) := by
          simp [integerLiteral?, hzero, hc]
        rw [hmatch, Option.some.injEq, Prod.mk.injEq, List.dropWhile_eq_nil_iff]
        constructor
        · rintro ⟨rfl, hcs⟩
          rw [List.takeWhile_eq_self_iff.mpr hcs]
          exact ⟨.inr ⟨c, cs, rfl, ⟨hzero, hc⟩, hcs⟩, rfl⟩
        · rintro ⟨hcs | ⟨_, _, ⟨⟩, -, hcs⟩, rfl⟩
          · exact absurd (List.cons.inj hcs).1 hzero
          · rw [List.takeWhile_eq_self_iff.mpr hcs]
            exact ⟨rfl, hcs⟩
      · simp [integerLiteral?, hzero, hc]

/-- No underscores are cut off if and only if none stands at the end. -/
theorem splitUnderscores_eq_iff : splitUnderscores cs = (cs, []) ↔ cs.getLast? ≠ some '_' := by
  rcases List.eq_nil_or_concat cs with rfl | ⟨mid, d, rfl⟩
  · simp [splitUnderscores]
  · by_cases hd : d = '_'
    · simp [splitUnderscores, hd]
    · simp [splitUnderscores, hd]

theorem finds_label : Finds label? .label := by
  intro w L
  rw [mem_label_iff]
  cases w with
  | nil => simp [label?]
  | cons c cs =>
    by_cases hc : isUpper c = true
    · let run := cs.takeWhile fun d => isUpper d || isDigit d || d == '_'
      have hmatch : label? (c :: cs) =
          some (.label (String.ofList (c :: (splitUnderscores run).1)),
            (splitUnderscores run).2 ++
              cs.dropWhile fun d => isUpper d || isDigit d || d == '_') := if_pos hc
      rw [hmatch, Option.some.injEq, Prod.mk.injEq, List.append_eq_nil_iff,
        List.dropWhile_eq_nil_iff]
      constructor
      · rintro ⟨rfl, hnone, hcs⟩
        have hrun : run = cs := List.takeWhile_eq_self_iff.mpr hcs
        have happend := splitUnderscores_append cs
        rw [hrun] at hnone ⊢
        rw [hnone, List.append_nil] at happend
        rw [happend]
        exact ⟨⟨c, cs, rfl, hc, hcs, splitUnderscores_eq_iff.mp (Prod.ext happend hnone)⟩, rfl⟩
      · rintro ⟨⟨_, _, ⟨⟩, -, hcs, hlast⟩, rfl⟩
        have hrun : run = cs := List.takeWhile_eq_self_iff.mpr hcs
        rw [hrun, splitUnderscores_eq_iff.mpr hlast]
        exact ⟨rfl, rfl, hcs⟩
    · simp [label?, hc]

theorem finds_symbol : Finds symbol? .symbol := by
  intro w L
  rw [mem_symbol_iff]
  constructor
  · intro h
    obtain ⟨s, hs, hmatch⟩ := List.exists_of_findSome?_eq_some h
    obtain ⟨rest, hrest, heq⟩ := Option.map_eq_some_iff.mp hmatch
    obtain ⟨rfl, rfl⟩ := Prod.mk.inj heq
    have hw : w = s.toList := by simpa using afterWord?_eq_some_iff.mp hrest
    exact ⟨⟨s, hs, hw⟩, by rw [hw, String.ofList_toList]; rfl⟩
  · rintro ⟨⟨s, hs, rfl⟩, rfl⟩
    have hall : symbols.all fun s => symbol? s.toList == some (.symbol s, []) := by decide
    simpa [Lexeme.ofKind] using List.all_eq_true.mp hall s hs

/-! ## Keywords -/

/-- A keyword is found where its word does not go on. -/
theorem keyword?_cases {K : Lexeme} {rest : List Char} (h : keyword? s K cs = some (L, rest)) :
    L = K ∧ cs = s.toList ++ rest ∧ ∀ c ∈ rest.head?, continuesWord c = false := by
  obtain ⟨rfl, hcs⟩ := keyword?_eq_some h
  refine ⟨rfl, hcs, fun c hc => ?_⟩
  obtain ⟨after, rfl⟩ := List.head?_eq_some_iff.mp hc
  simpa [keyword?, afterWord?_eq_some_iff.mpr hcs] using h

theorem anyKeyword?_cases {rest : List Char} (h : anyKeyword? cs = some (L, rest)) :
    ∃ (k : Kind) (w : List Char), k.isKeyword = true ∧ w ∈ k.pattern.matches' ∧
      (∀ v, L = .ofKind k v) ∧ cs = w ++ rest ∧ ∀ c ∈ rest.head?, continuesWord c = false := by
  simp only [anyKeyword?, Option.orElse_eq_orElse, Option.orElse_eq_or, Option.or_eq_some_iff] at h
  rcases h with h | ⟨-, h | ⟨-, h⟩⟩
  · obtain ⟨rfl, hrest⟩ := keyword?_cases h
    exact ⟨.ifFalse, _, rfl, mem_inTurn.mpr rfl, fun _ => rfl, hrest⟩
  · obtain ⟨rfl, hrest⟩ := keyword?_cases h
    exact ⟨.ifTrue, _, rfl, mem_inTurn.mpr rfl, fun _ => rfl, hrest⟩
  · obtain ⟨rfl, hrest⟩ := keyword?_cases h
    exact ⟨.goto, _, rfl, mem_inTurn.mpr rfl, fun _ => rfl, hrest⟩

theorem anyKeyword?_of_mem (hk : k.isKeyword = true) (hw : w ∈ k.pattern.matches') :
    anyKeyword? w = some (.ofKind k (some (String.ofList w)), []) := by
  cases k with
  | ifTrue | ifFalse | goto =>
    obtain rfl := mem_inTurn.mp hw
    rfl
  | _ => cases hk

/-- Where every character goes on a word, nothing but a whole keyword is found. -/
theorem anyKeyword?_eq_none_iff (hw : ∀ c ∈ w, continuesWord c = true) :
    anyKeyword? w = none ↔ ∀ k : Kind, k.isKeyword = true → w ∉ k.pattern.matches' := by
  constructor
  · intro hnone k hk hmem
    rw [anyKeyword?_of_mem hk hmem] at hnone
    cases hnone
  · intro hall
    rw [Option.eq_none_iff_forall_ne_some]
    rintro ⟨L, rest⟩ h
    obtain ⟨k, v, hk, hv, -, rfl, hrest⟩ := anyKeyword?_cases h
    cases rest with
    | nil => exact hall k hk (by rwa [List.append_nil])
    | cons c rest =>
      have hc := hw c (List.mem_append_right _ List.mem_cons_self)
      rw [hrest c rfl] at hc
      cases hc

theorem Kind.mem_texts_iff (hk : k ≠ .identifier) : w ∈ k.texts ↔ w ∈ k.pattern.matches' := by
  cases k with
  | identifier => exact absurd rfl hk
  | _ => exact Iff.rfl

theorem mem_texts_identifier_iff :
    w ∈ Kind.identifier.texts ↔ w ∈ Kind.identifier.pattern.matches' ∧ anyKeyword? w = none := by
  rw [Kind.texts, Language.mem_sub]
  refine and_congr_right fun hw => ?_
  obtain ⟨c, cs, rfl, hc, hcs⟩ := mem_identifier_iff.mp hw
  have hword : ∀ d ∈ c :: cs, continuesWord d = true := by
    refine List.forall_mem_cons.mpr ⟨by simp [continuesWord, hc], fun d hd => ?_⟩
    rcases Bool.or_eq_true_iff.mp (hcs d hd) with hd | hd <;> simp [continuesWord, hd]
  rw [anyKeyword?_eq_none_iff hword, RegularExpression.matches'_add, RegularExpression.matches'_add,
    Language.mem_add, Language.mem_add]
  constructor
  · intro hnot k hk hmem
    cases k with
    | ifTrue => exact hnot (.inl (.inl hmem))
    | ifFalse => exact hnot (.inl (.inr hmem))
    | goto => exact hnot (.inr hmem)
    | _ => cases hk
  · rintro hall ((hmem | hmem) | hmem)
    · exact hall .ifTrue rfl hmem
    · exact hall .ifFalse rfl hmem
    · exact hall .goto rfl hmem

/-! ## The first character -/

/-- Whether a piece of the kind may start with the character. -/
def Kind.starts : Kind → Char → Bool
  | label, c => isUpper c
  | integerLiteral, c => isDigit c
  | identifier, c | ifTrue, c | ifFalse, c | goto, c => isLower c
  | symbol, c => !isUpper c && !isDigit c && !isLower c
  | eol, _ => false

theorem Kind.starts_of_mem (h : w ∈ k.pattern.matches') :
    ∃ c cs, w = c :: cs ∧ k.starts c = true := by
  cases k with
  | label =>
    obtain ⟨c, cs, rfl, hc, -⟩ := mem_label_iff.mp h
    exact ⟨c, cs, rfl, hc⟩
  | integerLiteral =>
    rcases mem_integerLiteral_iff.mp h with rfl | ⟨c, cs, rfl, ⟨-, hc⟩, -⟩
    · exact ⟨_, _, rfl, rfl⟩
    · exact ⟨c, cs, rfl, hc⟩
  | identifier =>
    obtain ⟨c, cs, rfl, hc, -⟩ := mem_identifier_iff.mp h
    exact ⟨c, cs, rfl, hc⟩
  | symbol =>
    obtain ⟨s, hs, rfl⟩ := mem_symbol_iff.mp h
    have hall : symbols.all fun s => s.toList.head?.any Kind.symbol.starts := by decide
    obtain ⟨c, hc, hstarts⟩ := (Option.any_eq_true _ _).mp (List.all_eq_true.mp hall s hs)
    obtain ⟨cs, hcs⟩ := List.head?_eq_some_iff.mp hc
    exact ⟨c, cs, hcs, hstarts⟩
  | ifTrue | ifFalse | goto => exact ⟨_, _, mem_inTurn.mp h, rfl⟩
  | eol => exact h.elim

theorem not_isLower_of_isUpper (hc : isUpper c = true) : isLower c = false := by
  rw [isUpper_iff] at hc
  rw [← Bool.not_eq_true, isLower_iff]
  omega

theorem not_isUpper_of_isDigit (hc : isDigit c = true) : isUpper c = false := by
  rw [isDigit_iff] at hc
  rw [← Bool.not_eq_true, isUpper_iff]
  omega

theorem not_isLower_of_isDigit (hc : isDigit c = true) : isLower c = false := by
  rw [isDigit_iff] at hc
  rw [← Bool.not_eq_true, isLower_iff]
  omega

theorem anyKeyword?_cons (hc : isLower c = false) : anyKeyword? (c :: cs) = none := by
  rw [Option.eq_none_iff_forall_ne_some]
  rintro ⟨L, rest⟩ h
  obtain ⟨k, w, hk, hw, -, heq, -⟩ := anyKeyword?_cases h
  obtain ⟨d, ds, rfl, hd⟩ := Kind.starts_of_mem hw
  obtain ⟨rfl, -⟩ := List.cons.inj heq
  cases k with
  | ifTrue | ifFalse | goto => cases hc.symm.trans hd
  | _ => cases hk

theorem isSome_label? (c : Char) (cs : List Char) : (label? (c :: cs)).isSome = isUpper c := by
  by_cases hc : isUpper c = true <;> simp [label?, hc]

theorem isSome_integerLiteral? (c : Char) (cs : List Char) :
    (integerLiteral? (c :: cs)).isSome = isDigit c := by
  by_cases hzero : c = '0'
  · subst hzero
    rfl
  · by_cases hc : isDigit c = true <;> simp [integerLiteral?, hzero, hc]

theorem isSome_identifier? (c : Char) (cs : List Char) :
    (identifier? (c :: cs)).isSome = isLower c := by
  by_cases hc : isLower c = true <;> simp [identifier?, hc]

/-- The first character leaves one kind only, keywords apart. -/
theorem firstMatch?_cons :
    firstMatch? (c :: cs) =
      if isUpper c then label? (c :: cs)
      else if isDigit c then integerLiteral? (c :: cs)
      else if isLower c then (anyKeyword? (c :: cs)).or (identifier? (c :: cs))
      else symbol? (c :: cs) := by
  have hlabel := isSome_label? c cs
  have hliteral := isSome_integerLiteral? c cs
  have hidentifier := isSome_identifier? c cs
  simp only [firstMatch?, Option.orElse_eq_orElse, Option.orElse_eq_or]
  split
  · next hc =>
    rw [anyKeyword?_cons (not_isLower_of_isUpper hc), Option.none_or,
      Option.or_of_isSome (hlabel.trans hc)]
  · next hupper =>
    have hlabel : label? (c :: cs) = none := by simpa [hupper] using hlabel
    rw [hlabel, Option.none_or]
    split
    · next hc =>
      rw [anyKeyword?_cons (not_isLower_of_isDigit hc), Option.none_or,
        Option.or_of_isSome (hliteral.trans hc)]
    · next hdigit =>
      have hliteral : integerLiteral? (c :: cs) = none := by simpa [hdigit] using hliteral
      rw [hliteral, Option.none_or]
      split
      · next hc => rw [Option.or_of_isSome (hidentifier.trans hc)]
      · next hlower =>
        have hidentifier : identifier? (c :: cs) = none := by simpa [hlower] using hidentifier
        rw [anyKeyword?_cons (by simpa using hlower), hidentifier, Option.none_or, Option.none_or]

theorem firstMatch?_of_isLower (hc : isLower c = true) :
    firstMatch? (c :: cs) = (anyKeyword? (c :: cs)).or (identifier? (c :: cs)) := by
  have hupper : ¬isUpper c = true := by
    intro hupper
    cases hc.symm.trans (not_isLower_of_isUpper hupper)
  have hdigit : ¬isDigit c = true := by
    intro hdigit
    cases hc.symm.trans (not_isLower_of_isDigit hdigit)
  rw [firstMatch?_cons, if_neg hupper, if_neg hdigit, if_pos hc]

/-! ## Classification -/

theorem classify?_iff_firstMatch? : classify? w = some L ↔ firstMatch? w = some (L, []) := by
  unfold classify?
  split
  · next hmatch => simp [hmatch]
  · next hother =>
    constructor
    · nofun
    · intro h
      exact absurd h (hother L)

theorem Kind.mem_pattern_of_mem_texts (h : w ∈ k.texts) : w ∈ k.pattern.matches' := by
  by_cases hk : k = .identifier
  · subst hk
    exact h.1
  · exact (Kind.mem_texts_iff hk).mp h

/-- A text of a kind is classified as that kind, whatever is tried before it. -/
theorem classify?_of_mem_texts (h : w ∈ k.texts) :
    classify? w = some (.ofKind k (some (String.ofList w))) := by
  have hpattern := Kind.mem_pattern_of_mem_texts h
  obtain ⟨c, cs, rfl, hc⟩ := Kind.starts_of_mem hpattern
  rw [classify?_iff_firstMatch?]
  cases k with
  | label =>
    rw [firstMatch?_cons, if_pos (show isUpper c = true from hc)]
    exact (finds_label _ _).mpr ⟨hpattern, rfl⟩
  | integerLiteral =>
    rw [firstMatch?_cons, not_isUpper_of_isDigit hc, if_neg Bool.false_ne_true,
      if_pos (show isDigit c = true from hc)]
    exact (finds_integerLiteral _ _).mpr ⟨hpattern, rfl⟩
  | symbol =>
    simp only [Kind.starts, Bool.and_eq_true, Bool.not_eq_true'] at hc
    simp only [firstMatch?_cons, hc, Bool.false_eq_true, if_false]
    exact (finds_symbol _ _).mpr ⟨hpattern, rfl⟩
  | identifier =>
    rw [firstMatch?_of_isLower hc, (mem_texts_identifier_iff.mp h).2, Option.none_or]
    exact (finds_identifier _ _).mpr ⟨hpattern, rfl⟩
  | ifTrue | ifFalse | goto =>
    rw [firstMatch?_of_isLower hc, anyKeyword?_of_mem rfl hpattern, Option.some_or]
  | eol => cases hc

theorem mem_texts_of_classify? (h : classify? w = some L) :
    ∃ k : Kind, w ∈ k.texts ∧ L = .ofKind k (some (String.ofList w)) := by
  cases w with
  | nil => cases h
  | cons c cs =>
    rw [classify?_iff_firstMatch?, firstMatch?_cons] at h
    split at h
    · exact ⟨.label, (finds_label _ _).mp h⟩
    split at h
    · exact ⟨.integerLiteral, (finds_integerLiteral _ _).mp h⟩
    split at h
    · rcases Option.or_eq_some_iff.mp h with h | ⟨hnone, h⟩
      · obtain ⟨k, w, hk, hw, hL, heq, -⟩ := anyKeyword?_cases h
        have hne : k ≠ .identifier := by
          rintro rfl
          cases hk
        rw [List.append_nil] at heq
        exact ⟨k, heq ▸ (Kind.mem_texts_iff hne).mpr hw, hL _⟩
      · obtain ⟨hpattern, hL⟩ := (finds_identifier _ _).mp h
        exact ⟨.identifier, mem_texts_identifier_iff.mpr ⟨hpattern, hnone⟩, hL⟩
    · exact ⟨.symbol, (finds_symbol _ _).mp h⟩

/-- What is not an identifier because it is a keyword is a text of another kind. -/
theorem exists_mem_texts_iff : (∃ k : Kind, w ∈ k.texts) ↔ ∃ k : Kind, w ∈ k.pattern.matches' := by
  constructor
  · rintro ⟨k, h⟩
    exact ⟨k, Kind.mem_pattern_of_mem_texts h⟩
  · rintro ⟨k, h⟩
    by_cases hk : k = .identifier
    · subst hk
      by_cases hkeyword : w ∈ (Kind.ifTrue.pattern + Kind.ifFalse.pattern +
          Kind.goto.pattern).matches'
      · rcases hkeyword with (hmem | hmem) | hmem
        · exact ⟨.ifTrue, hmem⟩
        · exact ⟨.ifFalse, hmem⟩
        · exact ⟨.goto, hmem⟩
      · exact ⟨.identifier, h, hkeyword⟩
    · exact ⟨k, (Kind.mem_texts_iff hk).mpr h⟩

theorem Lexeme.kind_ofKind (k : Kind) (value : Option String) :
    (Lexeme.ofKind k value).kind = k := by
  cases k <;> cases value <;> rfl

theorem Lexeme.value?_ofKind (hk : k ≠ .eol) (s : String) :
    (Lexeme.ofKind k (some s)).value? = if k.isKeyword then none else some s := by
  cases k with
  | eol => exact absurd rfl hk
  | _ => rfl

/-- **The vocabulary.**  A text is a token if and only if it matches the expression of a kind as a
whole.  Once the keywords are taken out of the identifiers no two kinds share a text, and a text is
classified as the kind that it belongs to.  The token carries the text itself, unless it is a
keyword. -/
theorem classify?_by_vocabulary (s : String) :
    ((∃ L, classify? s.toList = some L) ↔ ∃ k : Kind, s.toList ∈ k.pattern.matches') ∧
    (∀ k k' : Kind, s.toList ∈ k.texts → s.toList ∈ k'.texts → k = k') ∧
    ∀ (k : Kind) (value : Option String),
      (∃ L, classify? s.toList = some L ∧ L.kind = k ∧ L.value? = value) ↔
        s.toList ∈ k.texts ∧ value = if k.isKeyword then none else some s := by
  have hclassify : ∀ k : Kind, s.toList ∈ k.texts →
      classify? s.toList = some (.ofKind k (some s)) := by
    intro k hk
    rw [classify?_of_mem_texts hk, String.ofList_toList]
  have hvalue : ∀ k : Kind, s.toList ∈ k.texts →
      (Lexeme.ofKind k (some s)).value? = if k.isKeyword then none else some s := by
    intro k hk
    refine Lexeme.value?_ofKind ?_ s
    rintro rfl
    exact hk.elim
  refine ⟨?_, ?_, ?_⟩
  · rw [← exists_mem_texts_iff]
    constructor
    · rintro ⟨L, h⟩
      obtain ⟨k, hk, -⟩ := mem_texts_of_classify? h
      exact ⟨k, hk⟩
    · rintro ⟨k, hk⟩
      exact ⟨_, hclassify k hk⟩
  · intro k k' hk hk'
    have heq : Lexeme.ofKind k (some s) = .ofKind k' (some s) :=
      Option.some.inj ((hclassify k hk).symm.trans (hclassify k' hk'))
    rw [← Lexeme.kind_ofKind k (some s), heq, Lexeme.kind_ofKind]
  · intro k value
    constructor
    · rintro ⟨L, h, rfl, rfl⟩
      obtain ⟨k, hk, rfl⟩ := mem_texts_of_classify? h
      rw [String.ofList_toList, Lexeme.kind_ofKind]
      exact ⟨hk, hvalue k hk⟩
    · rintro ⟨hk, rfl⟩
      exact ⟨_, hclassify k hk, Lexeme.kind_ofKind k _, hvalue k hk⟩

/-- Words that start like a keyword, a label, a number or a symbol, and go on otherwise. -/
example : (["iffy", "ifFalsex", "A_", "01", "=!"].map fun s => (classify? s.toList).map (·.kind)) =
    [some .identifier, none, none, none, none] := by
  decide

end FlowTrace.Token
