import FlowTrace.Source.Scan
import FlowTrace.Proofs.Text.Cutting
import Mathlib.Data.List.TakeWhile

/-!
# How tokens are written

A piece that is a token is the text of that token, so a token that was found in a text is found
again wherever its text stands between blanks.  Only the colon needs no blanks around it.
-/

namespace FlowTrace.Token

variable {c : Char} {w cs rest : List Char} {L : Lexeme}

/-! ## Classes -/

namespace Lexeme

/-- The text of a token; the end of a line has none. -/
def spelling : Lexeme → String
  | identifier s | integerLiteral s | symbol s | label s => s
  | ifTrue => "if"
  | ifFalse => "ifFalse"
  | goto => "goto"
  | eol | blank _ => ""

/-- What the text of a token is made of. -/
def Shaped : Lexeme → Prop
  | identifier s | label s => s.toList ≠ [] ∧ ∀ c ∈ s.toList, continuesWord c = true
  | integerLiteral s =>
    (∀ c ∈ s.toList, isDigit c = true) ∧ (s = "0" ∨ ∃ c cs, s.toList = c :: cs ∧ c ≠ '0')
  | symbol s => s ∈ symbols
  | ifTrue | ifFalse | goto => True
  | eol | blank _ => False

/-- The text of the token is classified as the token. -/
def Legal (L : Lexeme) : Prop := classify? L.spelling.toList = some L

end Lexeme

open Lexeme

theorem afterWord?_eq_some_iff : afterWord? w cs = some rest ↔ cs = w ++ rest := by
  fun_induction afterWord? w cs with
  | case1 cs => simp [eq_comm]
  | case2 => simp
  | case3 w ws cs ih => simpa using ih
  | case4 w ws c cs hne => simp [Ne.symm hne]

theorem keyword?_eq_some {word : String} {K : Lexeme} (h : keyword? word K cs = some (L, rest)) :
    L = K ∧ cs = word.toList ++ rest := by
  unfold keyword? at h
  split at h
  · next hw =>
    obtain ⟨rfl, rfl⟩ := by simpa using h
    exact ⟨rfl, afterWord?_eq_some_iff.mp hw⟩
  · next hw =>
    split at h
    · cases h
    · obtain ⟨rfl, rfl⟩ := by simpa using h
      exact ⟨rfl, afterWord?_eq_some_iff.mp hw⟩
  · cases h

theorem anyKeyword?_eq_some (h : anyKeyword? cs = some (L, rest)) :
    L.Shaped ∧ cs = L.spelling.toList ++ rest := by
  simp only [anyKeyword?, Option.orElse_eq_orElse, Option.orElse_eq_or, Option.or_eq_some_iff] at h
  rcases h with h | ⟨-, h | ⟨-, h⟩⟩
  all_goals
    obtain ⟨rfl, hcs⟩ := keyword?_eq_some h
    exact ⟨trivial, hcs⟩

/-- Cutting off the underscores at the end loses nothing. -/
theorem splitUnderscores_append (cs : List Char) :
    (splitUnderscores cs).1 ++ (splitUnderscores cs).2 = cs := by
  obtain ⟨init, hinit⟩ : ∃ init, cs = init ++ (cs.reverse.takeWhile (· == '_')).reverse := by
    refine ⟨(cs.reverse.dropWhile (· == '_')).reverse, ?_⟩
    rw [← List.reverse_append, List.takeWhile_append_dropWhile, List.reverse_reverse]
  simp only [splitUnderscores]
  generalize (cs.reverse.takeWhile (· == '_')).reverse = tail at hinit
  subst hinit
  simp

/-- The characters of a run go on as the first one does. -/
theorem continuesWord_of_mem_run {p : Char → Bool} (hp : ∀ d, p d = true → continuesWord d = true)
    (hc : continuesWord c = true) : ∀ d ∈ c :: cs.takeWhile p, continuesWord d = true := by
  intro d hd
  rcases List.mem_cons.mp hd with rfl | hd
  · exact hc
  · exact hp d (List.mem_takeWhile_imp hd)

theorem label?_eq_some (h : label? cs = some (L, rest)) :
    L.Shaped ∧ cs = L.spelling.toList ++ rest := by
  cases cs with
  | nil => cases h
  | cons c cs =>
    simp only [label?] at h
    split at h
    · next hc =>
      simp only [Option.some.injEq, Prod.mk.injEq] at h
      obtain ⟨rfl, rfl⟩ := h
      have hsplit := splitUnderscores_append
        (cs.takeWhile fun c => isUpper c || isDigit c || c == '_')
      have hrun : ∀ d ∈ c :: cs.takeWhile fun c => isUpper c || isDigit c || c == '_',
          continuesWord d = true :=
        continuesWord_of_mem_run (by grind [continuesWord]) (by simp [continuesWord, hc])
      refine ⟨⟨by simp, fun d hd => hrun d ?_⟩, ?_⟩
      · rw [String.toList_ofList, List.mem_cons] at hd
        rw [← hsplit, List.mem_cons, List.mem_append]
        exact hd.imp_right .inl
      · rw [spelling, String.toList_ofList, List.cons_append, ← List.append_assoc, hsplit,
          List.takeWhile_append_dropWhile]
    · cases h

theorem integerLiteral?_eq_some (h : integerLiteral? cs = some (L, rest)) :
    L.Shaped ∧ cs = L.spelling.toList ++ rest := by
  cases cs with
  | nil => cases h
  | cons c cs =>
    simp only [integerLiteral?] at h
    split at h
    · next hc =>
      obtain ⟨rfl, rfl⟩ := by simpa using h
      exact ⟨⟨List.all_eq_true.mp (by decide), .inl rfl⟩, by rw [hc]; rfl⟩
    · next hzero =>
      split at h
      · next hc =>
        simp only [Option.some.injEq, Prod.mk.injEq] at h
        obtain ⟨rfl, rfl⟩ := h
        refine ⟨⟨fun d hd => ?_, .inr ⟨c, _, String.toList_ofList, hzero⟩⟩, ?_⟩
        · rw [String.toList_ofList, List.mem_cons] at hd
          rcases hd with rfl | hd
          · exact hc
          · exact List.mem_takeWhile_imp hd
        · rw [spelling, String.toList_ofList, List.cons_append, List.takeWhile_append_dropWhile]
      · cases h

theorem identifier?_eq_some (h : identifier? cs = some (L, rest)) :
    L.Shaped ∧ cs = L.spelling.toList ++ rest := by
  cases cs with
  | nil => cases h
  | cons c cs =>
    simp only [identifier?] at h
    split at h
    · next hc =>
      simp only [Option.some.injEq, Prod.mk.injEq] at h
      obtain ⟨rfl, rfl⟩ := h
      refine ⟨⟨by simp, fun d hd => ?_⟩, ?_⟩
      · rw [String.toList_ofList] at hd
        refine continuesWord_of_mem_run ?_ ?_ d hd
        · grind [continuesWord]
        · simp [continuesWord, hc]
      · rw [spelling, String.toList_ofList, List.cons_append, List.takeWhile_append_dropWhile]
    · cases h

theorem symbol?_eq_some (h : symbol? cs = some (L, rest)) :
    L.Shaped ∧ cs = L.spelling.toList ++ rest := by
  obtain ⟨s, hs, hmatch⟩ := List.exists_of_findSome?_eq_some h
  obtain ⟨after, hafter, heq⟩ := Option.map_eq_some_iff.mp hmatch
  obtain ⟨rfl, rfl⟩ := Prod.mk.inj heq
  exact ⟨hs, afterWord?_eq_some_iff.mp hafter⟩

/-- What a class matches is the text of its token, and what is left follows it. -/
theorem firstMatch?_eq_some (h : firstMatch? cs = some (L, rest)) :
    L.Shaped ∧ cs = L.spelling.toList ++ rest := by
  simp only [firstMatch?, Option.orElse_eq_orElse, Option.orElse_eq_or,
    Option.or_eq_some_iff] at h
  rcases h with h | ⟨-, h | ⟨-, h | ⟨-, h | ⟨-, h⟩⟩⟩⟩
  · exact anyKeyword?_eq_some h
  · exact label?_eq_some h
  · exact integerLiteral?_eq_some h
  · exact identifier?_eq_some h
  · exact symbol?_eq_some h

/-- A piece that is a token is the text of the token. -/
theorem classify?_eq_some (h : classify? cs = some L) : L.Shaped ∧ cs = L.spelling.toList := by
  unfold classify? at h
  split at h
  · next hmatch =>
    obtain rfl := Option.some.inj h
    simpa using firstMatch?_eq_some hmatch
  · cases h

theorem legal_of_classify? (h : classify? cs = some L) : L.Legal := by
  obtain ⟨-, rfl⟩ := classify?_eq_some h
  exact h

theorem Lexeme.Legal.shaped (h : L.Legal) : L.Shaped := (classify?_eq_some h).1

/-! ## Pieces -/

/-- A piece of a line other than a colon. -/
structure IsPiece (w : List Char) : Prop extends Text.IsWord w where
  notMem_colon : ':' ∉ w

theorem toNat_of_continuesWord (hc : continuesWord c = true) :
    0x30 ≤ c.toNat ∧ c.toNat ≤ 0x7A ∧ c.toNat ≠ 0x3A := by
  simp only [continuesWord, isUpper, isLower, isDigit, Bool.or_eq_true, Bool.and_eq_true,
    decide_eq_true_eq, beq_iff_eq, Char.le_def, UInt32.le_iff_toNat_le, Char.toNat_val,
    Char.reduceToNat] at hc
  rcases hc with ((⟨hlo, hhi⟩ | ⟨hlo, hhi⟩) | ⟨hlo, hhi⟩) | rfl
  · omega
  · omega
  · omega
  · decide

theorem isPiece_of_continuesWord (hne : w ≠ []) (hw : ∀ c ∈ w, continuesWord c = true) :
    IsPiece w where
  ne_nil := hne
  not_blank c hc := by
    obtain ⟨hlo, hhi, -⟩ := toNat_of_continuesWord (hw c hc)
    exact Text.isBlank_of_graphic (by omega) (by omega)
  notMem_colon hc := (toNat_of_continuesWord (hw ':' hc)).2.2 rfl

theorem isPiece_of_mem_symbols {s : String} (hs : s ∈ symbols) (hcolon : s ≠ ":") :
    IsPiece s.toList := by
  have hall : (symbols.all fun s => s == ":" ||
      !s.toList.isEmpty && s.toList.all fun c => !Text.isBlank c && c != ':') = true := by decide
  obtain ⟨hne, hchars⟩ : s.toList ≠ [] ∧ ∀ c ∈ s.toList, Text.isBlank c = false ∧ c ≠ ':' := by
    simpa [hcolon] using List.all_eq_true.mp hall s hs
  exact ⟨⟨hne, fun c hc => (hchars c hc).1⟩, fun hc => (hchars ':' hc).2 rfl⟩

theorem Lexeme.Shaped.isPiece (h : L.Shaped) (hcolon : L ≠ .symbol ":") :
    IsPiece L.spelling.toList := by
  cases L with
  | identifier s => exact isPiece_of_continuesWord h.1 h.2
  | label s => exact isPiece_of_continuesWord h.1 h.2
  | integerLiteral s =>
    refine isPiece_of_continuesWord ?_ fun c hc => ?_
    · rcases h.2 with rfl | ⟨c, cs, hcs, -⟩
      · decide
      · simp [spelling, hcs]
    · have := h.1 c hc
      simp [continuesWord, this]
  | symbol s => exact isPiece_of_mem_symbols h fun hs => hcolon (congrArg _ hs)
  | ifTrue => exact isPiece_of_continuesWord (by decide) (List.all_eq_true.mp (by decide))
  | ifFalse => exact isPiece_of_continuesWord (by decide) (List.all_eq_true.mp (by decide))
  | goto => exact isPiece_of_continuesWord (by decide) (List.all_eq_true.mp (by decide))
  | eol => exact h.elim
  | blank k => exact h.elim

/-- A colon with blanks around it; every other character alone. -/
def spaceColon (c : Char) : List Char := if c = ':' then [' ', ':', ' '] else [c]

/-- To cut a line at its colons and to put it together with blanks is to put blanks around each
colon. -/
theorem pieces_eq (line : List Char) : pieces line = Text.words (line.flatMap spaceColon) := by
  rw [pieces, Text.intercalate_splitKeeping]
  rfl

theorem flatMap_spaceColon (h : ':' ∉ w) : w.flatMap spaceColon = w := by
  induction w with
  | nil => rfl
  | cons c w ih =>
    obtain ⟨hc, hw⟩ := by simpa using h
    rw [List.flatMap_cons, ih hw, spaceColon, if_neg fun h => hc h.symm]
    rfl

theorem ne_colon_of_isBlank (hc : Text.isBlank c = true) : c ≠ ':' := by
  rintro rfl
  exact absurd hc (by decide)

/-- No piece goes across a blank. -/
theorem pieces_append_blank (hc : Text.isBlank c = true) (cs ds : List Char) :
    pieces (cs ++ c :: ds) = pieces cs ++ pieces ds := by
  rw [pieces_eq, pieces_eq, pieces_eq, List.flatMap_append, List.flatMap_cons, spaceColon,
    if_neg (ne_colon_of_isBlank hc)]
  exact Text.words_append_blank hc _ _

/-- A colon divides a line and is a piece too. -/
theorem pieces_append_colon (cs ds : List Char) :
    pieces (cs ++ ':' :: ds) = pieces cs ++ [':'] :: pieces ds := by
  have hcolon : Text.IsWord [':'] := ⟨by simp, List.forall_mem_singleton.mpr (by decide)⟩
  rw [pieces_eq, pieces_eq, pieces_eq, List.flatMap_append, List.flatMap_cons]
  show Text.words (cs.flatMap spaceColon ++ ' ' :: ([':'] ++ ' ' :: ds.flatMap spaceColon)) = _
  rw [Text.words_append_blank (by decide), hcolon.words_append (by decide)]

theorem pieces_blank (cs : List Char) : pieces (' ' :: cs) = pieces cs :=
  pieces_append_blank (by decide) [] cs

/-- Pieces that are put together with blanks between them are the pieces of the line. -/
theorem pieces_intercalate_of_forall {ws : List (List Char)} (h : ∀ w ∈ ws, pieces w = [w]) :
    pieces ([' '].intercalate ws) = ws := by
  induction ws with
  | nil => rfl
  | cons w ws ih =>
    have hw := h w List.mem_cons_self
    have hrest := ih fun v hv => h v (List.mem_cons_of_mem _ hv)
    cases ws with
    | nil => rw [List.intercalate_singleton, hw]
    | cons v ws =>
      rw [List.intercalate_cons_cons, List.append_assoc, List.singleton_append,
        pieces_append_blank (by decide), hw, hrest, List.singleton_append]

namespace IsPiece

theorem pieces_eq (hw : IsPiece w) : pieces w = [w] := by
  rw [Token.pieces_eq, flatMap_spaceColon hw.notMem_colon, hw.words_eq]

/-- A piece ends at a colon, which is a piece too. -/
theorem pieces_append_colon (hw : IsPiece w) (cs : List Char) :
    pieces (w ++ ':' :: cs) = w :: [':'] :: pieces cs := by
  rw [Token.pieces_append_colon, hw.pieces_eq, List.singleton_append]

end IsPiece

theorem pieces_intercalate {ws : List (List Char)} (h : ∀ w ∈ ws, IsPiece w) :
    pieces ([' '].intercalate ws) = ws :=
  pieces_intercalate_of_forall fun w hw => (h w hw).pieces_eq

/-- Only blank lines have no pieces. -/
theorem pieces_eq_nil_iff : pieces cs = [] ↔ ∀ c ∈ cs, Text.isBlank c = true := by
  rw [pieces_eq, Text.words_eq_nil_iff, List.forall_mem_flatMap]
  refine forall₂_congr fun c _ => ?_
  by_cases hc : c = ':'
  · simp [spaceColon, hc]
    decide
  · simp [spaceColon, hc]

/-! ## Scanning -/

/-- The tokens of a line that holds the given ones. -/
def lineOf (line : Int) (ls : List Lexeme) : List Token := (ls ++ [eol]).map fun L => ⟨L, line⟩

/-- Legal tokens are found again. -/
theorem scanPieces_spelling {ls : List Lexeme} (line : Int) (h : ∀ L ∈ ls, L.Legal) :
    scanPieces line (ls.map (·.spelling.toList)) = (lineOf line ls, none) := by
  induction ls with
  | nil => rfl
  | cons L ls ih =>
    have hL : classify? L.spelling.toList = some L := h L List.mem_cons_self
    have hrest := ih fun K hK => h K (List.mem_cons_of_mem _ hK)
    simp [scanPieces, hL, hrest, lineOf]

/-- Scanning gives legal tokens and ends of lines only. -/
def Scanned (t : Token) : Prop := t.lexeme = .eol ∨ t.lexeme.Legal

theorem scanned_scanPieces (line : Int) (ps : List (List Char)) :
    ∀ t ∈ (scanPieces line ps).1, t.Scanned := by
  induction ps with
  | nil => simp [scanPieces, Scanned]
  | cons piece ps ih =>
    unfold scanPieces
    split
    · next hL =>
      intro t ht
      rcases List.mem_cons.mp ht with rfl | ht
      · exact .inr (legal_of_classify? hL)
      · exact ih t ht
    · simp [Scanned]

theorem scanned_scanLine (line : Int) (chars : List Char) :
    ∀ t ∈ (scanLine line chars).1, t.Scanned := by
  unfold scanLine
  split
  · simp
  · exact scanned_scanPieces line _

theorem scanned_scanLines (line : Int) (lines : List (List Char)) :
    ∀ t ∈ (scanLines line lines).1, t.Scanned := by
  induction lines generalizing line with
  | nil => simp [scanLines]
  | cons chars lines ih =>
    intro t ht
    rcases List.mem_append.mp ht with ht | ht
    · exact scanned_scanLine line chars t ht
    · exact ih (line + 1) t ht

theorem scan_eq_ok_iff {text : String} {tokens : List Token} :
    scan text = .ok tokens ↔ scanLines 1 (Text.sourceLines text.toList) = (tokens, []) := by
  simp only [scan]
  rcases scanLines 1 (Text.sourceLines text.toList) with ⟨found, faults⟩
  cases faults with
  | nil => simp
  | cons f faults => simp

theorem scanned_of_scan {text : String} {tokens : List Token} (h : scan text = .ok tokens) :
    ∀ t ∈ tokens, t.Scanned := by
  have := scanned_scanLines 1 (Text.sourceLines text.toList)
  rwa [scan_eq_ok_iff.mp h] at this

end FlowTrace.Token
