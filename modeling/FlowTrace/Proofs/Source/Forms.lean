import FlowTrace.Proofs.Source.Grammar
import Mathlib.Data.List.Forall2

/-!
# Forms of lines

A line has one of finitely many forms, each of them a sequence of classes of tokens.  After some
tokens of a line only the rests of some forms are left, and these are the place that was reached.
Tokens start a line of the grammar if and only if they lead to a place where a form is left.
-/

namespace FlowTrace

open Token (Lexeme)

/-! ## Classes of tokens -/

/-- A class of tokens that the grammar does not tell apart. -/
inductive Token.Class where
  | exactly (L : Lexeme)
  | label
  | identifier
  | operand
  | relation
  | unary
  | binary

namespace Token.Class

def accepts : Class → Lexeme → Bool
  | exactly K, L => L == K
  | label, .label _ => true
  | identifier, .identifier _ => true
  | operand, .identifier _ => true
  | operand, .integerLiteral digits => (Text.readInt digits).isOk
  | relation, .symbol s => (Relation.ofSymbol? s).isSome
  | unary, .symbol s => (UnaryOp.ofSymbol? s).isSome
  | binary, .symbol s => (BinaryOp.ofSymbol? s).isSome
  | _, _ => false

variable {K L : Lexeme}

@[simp] theorem accepts_exactly_iff : (exactly K).accepts L = true ↔ L = K := by
  simp [accepts]

@[simp] theorem accepts_label_iff : label.accepts L = true ↔ ∃ name, L = .label name := by
  cases L <;> simp [accepts]

@[simp] theorem accepts_identifier_iff :
    identifier.accepts L = true ↔ ∃ name, L = .identifier name := by
  cases L <;> simp [accepts]

@[simp] theorem accepts_operand_iff : operand.accepts L = true ↔ ∃ o : Operand, o.Derives L := by
  constructor
  · intro h
    cases L with
    | identifier name => exact ⟨.var name, .var name⟩
    | integerLiteral digits =>
      cases hvalue : Text.readInt digits with
      | ok value => exact ⟨.lit value, .lit hvalue⟩
      | error e => simp [accepts, hvalue, Except.isOk, Except.toBool] at h
    | _ => cases h
  · rintro ⟨o, ho⟩
    cases ho with
    | var name => rfl
    | lit hvalue => simp [accepts, hvalue, Except.isOk, Except.toBool]

@[simp] theorem accepts_relation_iff :
    relation.accepts L = true ↔ ∃ s op, L = .symbol s ∧ Relation.ofSymbol? s = some op := by
  cases L <;> simp [accepts, Option.isSome_iff_exists]

@[simp] theorem accepts_unary_iff :
    unary.accepts L = true ↔ ∃ s op, L = .symbol s ∧ UnaryOp.ofSymbol? s = some op := by
  cases L <;> simp [accepts, Option.isSome_iff_exists]

@[simp] theorem accepts_binary_iff :
    binary.accepts L = true ↔ ∃ s op, L = .symbol s ∧ BinaryOp.ofSymbol? s = some op := by
  cases L <;> simp [accepts, Option.isSome_iff_exists]

theorem exists_accepts (C : Class) : ∃ L, C.accepts L = true := by
  cases C with
  | exactly L => exact ⟨L, accepts_exactly_iff.mpr rfl⟩
  | label => exact ⟨.label "L", rfl⟩
  | identifier => exact ⟨.identifier "x", rfl⟩
  | operand => exact ⟨.identifier "x", rfl⟩
  | relation => exact ⟨.symbol "==", rfl⟩
  | unary => exact ⟨.symbol "-", rfl⟩
  | binary => exact ⟨.symbol "+", rfl⟩

end Token.Class

/-! ## Places -/

/-- What is left of the forms that a line may have. -/
abbrev Place := List (List Token.Class)

namespace Place

variable {A B : Place} {L : Lexeme} {ls ks : List Lexeme} {form : List Token.Class}

/-- The place that a token leads to. -/
def after (A : Place) (L : Lexeme) : Place :=
  A.filterMap fun
    | C :: form => if C.accepts L then some form else none
    | [] => none

/-- The place that some tokens lead to. -/
def afterAll (A : Place) (ls : List Lexeme) : Place := ls.foldl after A

/-- The tokens go through one of the forms. -/
def Accepts (A : Place) (ls : List Lexeme) : Prop :=
  ∃ form ∈ A, List.Forall₂ (fun C L => Token.Class.accepts C L = true) form ls

theorem mem_after_iff : form ∈ A.after L ↔ ∃ C, C.accepts L = true ∧ C :: form ∈ A := by
  simp only [after, List.mem_filterMap]
  constructor
  · rintro ⟨_ | ⟨C, form'⟩, hmem, h⟩
    · cases h
    · by_cases hC : C.accepts L = true
      · obtain rfl : form' = form := by simpa [hC] using h
        exact ⟨C, hC, hmem⟩
      · simp [hC] at h
  · rintro ⟨C, hC, hmem⟩
    exact ⟨_, hmem, if_pos hC⟩

@[simp] theorem afterAll_nil : A.afterAll [] = A := rfl

@[simp] theorem afterAll_cons : A.afterAll (L :: ls) = (A.after L).afterAll ls := rfl

theorem afterAll_append : A.afterAll (ls ++ ks) = (A.afterAll ls).afterAll ks := List.foldl_append

theorem accepts_cons_iff : A.Accepts (L :: ls) ↔ (A.after L).Accepts ls := by
  constructor
  · rintro ⟨_, hmem, _ | ⟨hC, hls⟩⟩
    exact ⟨_, mem_after_iff.mpr ⟨_, hC, hmem⟩, hls⟩
  · rintro ⟨form, hmem, hls⟩
    obtain ⟨C, hC, hmem⟩ := mem_after_iff.mp hmem
    exact ⟨_, hmem, .cons hC hls⟩

theorem accepts_append_iff : A.Accepts (ls ++ ks) ↔ (A.afterAll ls).Accepts ks := by
  induction ls generalizing A with
  | nil => rfl
  | cons L ls ih => rw [List.cons_append, accepts_cons_iff, ih, afterAll_cons]

/-- As long as a form is left, there are tokens that go through it. -/
theorem exists_accepts_iff : (∃ ls, A.Accepts ls) ↔ A ≠ [] := by
  constructor
  · rintro ⟨ls, form, hmem, -⟩
    exact List.ne_nil_of_mem hmem
  · intro hne
    obtain ⟨form, hmem⟩ := List.exists_mem_of_ne_nil A hne
    obtain ⟨ls, hls⟩ : ∃ ls, List.Forall₂ (fun C L => Token.Class.accepts C L = true) form ls := by
      clear hmem
      induction form with
      | nil => exact ⟨[], .nil⟩
      | cons C form ih =>
        obtain ⟨ls, hls⟩ := ih
        obtain ⟨L, hL⟩ := C.exists_accepts
        exact ⟨L :: ls, .cons hL hls⟩
    exact ⟨ls, form, hmem, hls⟩

theorem accepts_union_iff : Accepts (A ++ B) ls ↔ A.Accepts ls ∨ B.Accepts ls := by
  simp only [Accepts, List.mem_append, or_and_right, exists_or]

theorem accepts_map_cons_iff {C : Token.Class} :
    Accepts (A.map (C :: ·)) ls ↔ ∃ L ks, C.accepts L = true ∧ A.Accepts ks ∧ ls = L :: ks := by
  constructor
  · rintro ⟨_, hmem, h⟩
    obtain ⟨form, hform, rfl⟩ := List.mem_map.mp hmem
    obtain ⟨L, ks, hL, hks, rfl⟩ := List.forall₂_cons_left_iff.mp h
    exact ⟨L, ks, hL, ⟨form, hform, hks⟩, rfl⟩
  · rintro ⟨L, ks, hL, ⟨form, hform, hks⟩, rfl⟩
    exact ⟨_, List.mem_map_of_mem hform, .cons hL hks⟩

theorem after_append : (A ++ B).after L = A.after L ++ B.after L := List.filterMap_append

/-- Where all forms start with the same class, a token of the class leads on and others do not. -/
theorem after_map_cons (C : Token.Class) (A : Place) (L : Lexeme) :
    after (A.map (C :: ·)) L = if C.accepts L then A else [] := by
  by_cases hC : C.accepts L = true <;> simp [after, hC, List.filterMap_map]

open Token.Class

/-- `"goto" label eol` -/
abbrev jump : List Token.Class := [exactly .goto, label, exactly .eol]

/-- What follows `"if"`. -/
def conditions : Place := [operand :: relation :: operand :: jump, identifier :: jump]

/-- What follows `"="`. -/
def sources : Place :=
  [[unary, operand, exactly .eol], [operand, binary, operand, exactly .eol],
    [operand, exactly .eol]]

/-- The forms of a line without a label. -/
def bodies : Place :=
  [jump] ++ conditions.map (exactly .ifTrue :: ·) ++ [exactly .ifFalse :: identifier :: jump] ++
    (sources.map (exactly (.symbol "=") :: ·)).map (identifier :: ·)

/-- The forms of a line with a label. -/
def labelled : Place := (bodies.map (exactly (.symbol ":") :: ·)).map (label :: ·)

/-- The forms of a line. -/
def lines : Place := bodies ++ labelled

end Place

/-! ## The forms of the grammar -/

namespace Instr

variable {ls : List Lexeme}

/-- The grammar derives a line with these tokens. -/
def Derivable (ls : List Lexeme) : Prop :=
  ∃ (i : Instr) (ks : List Lexeme), i.Derives ks ∧ ls = ks ++ [.eol]

/-- The tokens start a line that the grammar derives. -/
def Viable (ls : List Lexeme) : Prop := ∃ ks, Derivable (ls ++ ks)

/-- The grammar of bodies derives just what goes through the forms. -/
theorem Body.accepts_bodies_iff :
    Place.bodies.Accepts ls ↔
      ∃ (b : Body) (ks : List Lexeme), b.Derives ks ∧ ls = ks ++ [.eol] := by
  constructor
  · rintro ⟨form, hmem, h⟩
    simp only [Place.bodies, Place.conditions, Place.sources, List.map_cons, List.map_nil,
      List.cons_append, List.nil_append, List.mem_cons, List.not_mem_nil, or_false] at hmem
    rcases hmem with rfl | rfl | rfl | rfl | rfl | rfl | rfl
    · obtain ⟨target, rfl⟩ := by simpa [List.forall₂_cons_left_iff] using h
      exact ⟨_, _, .jump target, rfl⟩
    · obtain ⟨a, s, b, ⟨⟨left, ha⟩, ⟨op, hs⟩, right, hb⟩, target, rfl⟩ := by
        simpa [List.forall₂_cons_left_iff] using h
      exact ⟨_, _, .branch ha hs hb target, rfl⟩
    · obtain ⟨name, target, rfl⟩ := by simpa [List.forall₂_cons_left_iff] using h
      exact ⟨_, _, .branchIf name target, rfl⟩
    · obtain ⟨name, target, rfl⟩ := by simpa [List.forall₂_cons_left_iff] using h
      exact ⟨_, _, .branchUnless name target, rfl⟩
    · obtain ⟨dest, s, a, ⟨⟨op, hs⟩, source, ha⟩, rfl⟩ := by
        simpa [List.forall₂_cons_left_iff] using h
      exact ⟨_, _, .unary dest hs ha, rfl⟩
    · obtain ⟨dest, a, s, b, ⟨⟨left, ha⟩, ⟨op, hs⟩, right, hb⟩, rfl⟩ := by
        simpa [List.forall₂_cons_left_iff] using h
      exact ⟨_, _, .binary dest ha hs hb, rfl⟩
    · obtain ⟨dest, a, ⟨source, ha⟩, rfl⟩ := by simpa [List.forall₂_cons_left_iff] using h
      exact ⟨_, _, .copy dest ha, rfl⟩
  · rintro ⟨b, ks, h, rfl⟩
    cases h with
    | jump target => exact ⟨_, .head _, by simp⟩
    | branch ha hs hb target =>
      exact ⟨_, .tail _ (.head _), by simpa [hs] using ⟨⟨_, ha⟩, _, hb⟩⟩
    | branchIf name target => exact ⟨_, .tail _ (.tail _ (.head _)), by simp⟩
    | branchUnless name target => exact ⟨_, .tail _ (.tail _ (.tail _ (.head _))), by simp⟩
    | unary dest hs ha =>
      refine ⟨[.identifier, .exactly (.symbol "="), .unary, .operand, .exactly .eol], ?_, ?_⟩
      · simp [Place.bodies, Place.sources]
      · simpa [hs] using ⟨_, ha⟩
    | binary dest ha hs hb =>
      refine ⟨[.identifier, .exactly (.symbol "="), .operand, .binary, .operand, .exactly .eol],
        ?_, ?_⟩
      · simp [Place.bodies, Place.sources]
      · simpa [hs] using ⟨⟨_, ha⟩, _, hb⟩
    | copy dest ha =>
      refine ⟨[.identifier, .exactly (.symbol "="), .operand, .exactly .eol], ?_, ?_⟩
      · simp [Place.bodies, Place.sources]
      · simpa using ⟨_, ha⟩

/-- The grammar derives just what goes through the forms of a line. -/
theorem derivable_iff : Derivable ls ↔ Place.lines.Accepts ls := by
  rw [Place.lines, Place.accepts_union_iff, Place.labelled, Place.accepts_map_cons_iff]
  simp only [Place.accepts_map_cons_iff, Body.accepts_bodies_iff, Token.Class.accepts_label_iff,
    Token.Class.accepts_exactly_iff]
  constructor
  · rintro ⟨⟨line, label, b⟩, _, ⟨ks, hb, rfl⟩, rfl⟩
    cases label with
    | none => exact .inl ⟨b, ks, hb, rfl⟩
    | some name => exact .inr ⟨_, _, ⟨name, rfl⟩, ⟨_, _, rfl, ⟨b, ks, hb, rfl⟩, rfl⟩, rfl⟩
  · rintro (⟨b, ks, hb, rfl⟩ | ⟨_, _, ⟨name, rfl⟩, ⟨_, _, rfl, ⟨b, ks, hb, rfl⟩, rfl⟩, rfl⟩)
    · exact ⟨⟨0, none, b⟩, ks, ⟨ks, hb, rfl⟩, rfl⟩
    · exact ⟨⟨0, some name, b⟩, _, ⟨ks, hb, rfl⟩, rfl⟩

theorem viable_iff : Viable ls ↔ Place.lines.afterAll ls ≠ [] := by
  simp only [Viable, derivable_iff, Place.accepts_append_iff, Place.exists_accepts_iff]

end Instr

end FlowTrace
