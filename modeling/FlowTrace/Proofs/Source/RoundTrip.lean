import FlowTrace.Proofs.Source.Spelling
import FlowTrace.Proofs.Source.Acceptance
import FlowTrace.Proofs.Text.Decimal

/-!
# Writing and reading instructions

An instruction that was read from some text is read back from its own text.  Its text is the texts
of its tokens with blanks between them, and its tokens are found again because they are legal.  So
a program that is written instruction by instruction is read as the same program, and instructions
that are written alike are alike.
-/

namespace FlowTrace

open Token (Lexeme)

/-! ## The text of an instruction -/

/-- An operator that is looked up by its symbol has that symbol. -/
theorem symbol_of_find? {ω : Type} {all : List ω} {symbol : ω → String} {s : String} {op : ω}
    (h : all.find? (symbol · == s) = some op) : symbol op = s := by
  simpa using List.find?_some h

/-- A symbol that is no operator is not looked up. -/
theorem ne_of_lookup {ω : Type} {ofSymbol? : String → Option ω} {s t : String} {op : ω}
    (ht : ofSymbol? t = none) (h : ofSymbol? s = some op) : s ≠ t := by
  rintro rfl
  rw [ht] at h
  cases h

theorem BinaryOp.symbol_of_ofSymbol? {op : BinaryOp} {s : String} (h : ofSymbol? s = some op) :
    op.symbol = s := by
  simp only [ofSymbol?, Option.orElse_eq_orElse, Option.orElse_eq_or, Option.or_eq_some_iff,
    Option.map_eq_some_iff] at h
  rcases h with ⟨r, hr, rfl⟩ | ⟨-, a, ha, rfl⟩
  · show r.symbol = s
    exact symbol_of_find? hr
  · show a.symbol = s
    exact symbol_of_find? ha

namespace Operand.Derives

variable {o : Operand} {L : Lexeme}

theorem text_eq (h : o.Derives L) (hL : L.Legal) : o.text = L.spelling := by
  cases h with
  | var name => rfl
  | lit hvalue =>
    obtain ⟨hdigits, hzero⟩ := hL.shaped
    refine Text.toString_of_readInt (fun c hc => ?_) hzero hvalue
    simpa [Token.isDigit, Char.isDigit, Char.le_def] using hdigits c hc

theorem inner (h : o.Derives L) : L ≠ .symbol ":" ∧ L ≠ .eol := by
  cases h <;> simp

end Operand.Derives

namespace Instr

variable {i j : Instr} {ls : List Lexeme}

theorem Body.Derives.text_eq {b : Body} (h : b.Derives ls) (hls : ∀ L ∈ ls, L.Legal) :
    b.text.toList = [' '].intercalate (ls.map (·.spelling.toList)) := by
  cases h with
  | jump target => simp [Body.text, gotoText, Lexeme.spelling]
  | @branch left right A B op s ha hs hb target =>
    have hleft := ha.text_eq (hls A (by simp))
    have hright := hb.text_eq (hls B (by simp))
    have hop : op.symbol = s := symbol_of_find? hs
    simp [Body.text, gotoText, Lexeme.spelling, hleft, hright, hop]
  | branchIf name target => simp [Body.text, gotoText, Lexeme.spelling]
  | branchUnless name target => simp [Body.text, gotoText, Lexeme.spelling]
  | @copy dest source A ha =>
    have hsource := ha.text_eq (hls A (by simp))
    simp [Body.text, Lexeme.spelling, hsource]
  | @unary dest operand A op s hs ha =>
    have hoperand := ha.text_eq (hls A (by simp))
    have hop : op.symbol = s := symbol_of_find? hs
    simp [Body.text, Lexeme.spelling, hoperand, hop]
  | @binary dest left right A B op s ha hs hb =>
    have hleft := ha.text_eq (hls A (by simp))
    have hright := hb.text_eq (hls B (by simp))
    have hop : op.symbol = s := BinaryOp.symbol_of_ofSymbol? hs
    simp [Body.text, Lexeme.spelling, hleft, hright, hop]

/-- Colons and ends of lines stand outside of bodies. -/
theorem Body.Derives.inner {b : Body} (h : b.Derives ls) :
    ∀ L ∈ ls, L ≠ .symbol ":" ∧ L ≠ .eol := by
  cases h with
  | jump target => simp
  | @branch left right A B op s ha hs hb target =>
    have hcolon : s ≠ ":" := ne_of_lookup (by decide) hs
    simp [ha.inner, hb.inner, hcolon]
  | branchIf name target => simp
  | branchUnless name target => simp
  | copy dest ha => simp [ha.inner]
  | @unary dest operand A op s hs ha =>
    have hcolon : s ≠ ":" := ne_of_lookup (by decide) hs
    simp [ha.inner, hcolon]
  | @binary dest left right A B op s ha hs hb =>
    have hcolon : s ≠ ":" := ne_of_lookup (by decide) hs
    simp [ha.inner, hb.inner, hcolon]

/-- The instruction is made up of legal tokens. -/
def Legible (i : Instr) : Prop := ∃ ls, i.Derives ls ∧ ∀ L ∈ ls, L.Legal

theorem Body.Derives.isPiece {b : Body} (h : b.Derives ls) (hls : ∀ L ∈ ls, L.Legal) :
    ∀ w ∈ ls.map (·.spelling.toList), Token.IsPiece w := by
  intro w hw
  obtain ⟨L, hL, rfl⟩ := List.mem_map.mp hw
  exact (hls L hL).shaped.isPiece (h.inner L hL).1

theorem text_of_no_label (hlabel : i.label = none) : i.text = i.body.text := by
  simp [text, hlabel]

theorem text_of_label {label : String} (hlabel : i.label = some label)
    (hl : Lexeme.Legal (.label label)) :
    i.text.toList = label.toList ++ ([':', ' '] ++ i.body.text.toList) := by
  have hne : label.isEmpty = false := by
    rw [← Bool.not_eq_true, String.isEmpty_iff]
    rintro rfl
    exact hl.shaped.1 rfl
  simp [text, hlabel, hne]

namespace Derives

/-- The text of an instruction: pieces with blanks between them, and in front of them the label, if
there is one. -/
theorem text_cases (h : i.Derives ls) (hls : ∀ L ∈ ls, L.Legal) :
    ∃ ws, (∀ w ∈ ws, Token.IsPiece w) ∧
      (i.text.toList = [' '].intercalate ws ∧ ls.map (·.spelling.toList) = ws ∨
        ∃ w, Token.IsPiece w ∧ i.text.toList = w ++ ([':', ' '] ++ [' '].intercalate ws) ∧
          ls.map (·.spelling.toList) = w :: [':'] :: ws) := by
  obtain ⟨body, hb, rfl⟩ := h
  have hbody : ∀ L ∈ body, L.Legal := fun L hL => hls L (List.mem_append_right _ hL)
  refine ⟨body.map (·.spelling.toList), hb.isPiece hbody, ?_⟩
  rw [← hb.text_eq hbody]
  cases hlabel : i.label with
  | none => exact .inl ⟨congrArg _ (text_of_no_label hlabel), rfl⟩
  | some label =>
    have hl : Lexeme.Legal (.label label) := hls _ (by simp [hlabel, labelTokens])
    exact .inr ⟨label.toList, hl.shaped.isPiece (by simp), text_of_label hlabel hl, rfl⟩

/-- The pieces of the text of an instruction are its tokens. -/
theorem pieces_text (h : i.Derives ls) (hls : ∀ L ∈ ls, L.Legal) :
    Token.pieces i.text.toList = ls.map (·.spelling.toList) := by
  obtain ⟨ws, hws, ⟨htext, hmap⟩ | ⟨w, hw, htext, hmap⟩⟩ := h.text_cases hls
  · rw [htext, hmap, Token.pieces_intercalate hws]
  · rw [htext, hmap]
    show Token.pieces (w ++ ':' :: ' ' :: [' '].intercalate ws) = _
    rw [hw.pieces_append_colon, Token.pieces_blank, Token.pieces_intercalate hws]

/-- The text of an instruction is one line. -/
theorem unbroken_text (h : i.Derives ls) (hls : ∀ L ∈ ls, L.Legal) :
    Text.Unbroken i.text.toList := by
  obtain ⟨ws, hws, htext⟩ := h.text_cases hls
  have hbody : Text.Unbroken ([' '].intercalate ws) :=
    Text.unbroken_intercalate (by simp [Text.Unbroken]) fun w hw => (hws w hw).unbroken
  rcases htext with ⟨htext, -⟩ | ⟨w, hw, htext, -⟩
  · rwa [htext]
  · rw [htext]
    exact hw.unbroken.append (Text.Unbroken.append (by simp [Text.Unbroken]) hbody)

theorem ne_nil (h : i.Derives ls) : ls ≠ [] := by
  obtain ⟨body, hb, rfl⟩ := h
  obtain ⟨L, ks, rfl, -⟩ := hb.head
  simp

theorem ne_eol (h : i.Derives ls) : ∀ L ∈ ls, L ≠ .eol := by
  obtain ⟨body, hb, rfl⟩ := h
  intro L hL
  rcases List.mem_append.mp hL with hL | hL
  · cases hlabel : i.label with
    | none => simp [hlabel, labelTokens] at hL
    | some label =>
      rintro rfl
      simp [hlabel, labelTokens] at hL
  · exact (hb.inner L hL).2

theorem scanLine_text (h : i.Derives ls) (hls : ∀ L ∈ ls, L.Legal) (n : Int) :
    Token.scanLine n i.text.toList = (Token.lineOf n ls, none) := by
  obtain ⟨L, ks, rfl⟩ := List.exists_cons_of_ne_nil h.ne_nil
  rw [Token.scanLine, h.pieces_text hls]
  exact Token.scanPieces_spelling n hls

end Derives

end Instr

/-! ## Reading a written line -/

namespace Reader

variable {rest : List Token} {ls : List Lexeme}

/-- Tokens that stand on one line are taken from it. -/
theorem takes_line (hls : ls ≠ []) (m n : Int) :
    Takes ⟨ls.map (fun L => ⟨L, n⟩) ++ rest, m⟩ ls ⟨rest, n⟩ := by
  induction ls generalizing m with
  | nil => exact absurd rfl hls
  | cons L ls ih =>
    refine .step m ?_
    cases ls with
    | nil => exact .done _
    | cons K ls => exact ih (List.cons_ne_nil K ls) n

/-- The tokens of an instruction on a line are taken as the instruction on that line. -/
theorem takesInstr_line {i : Instr} (h : i.Derives ls) (m n : Int) :
    TakesInstr ⟨Token.lineOf n ls ++ rest, m⟩ { i with line := n } ⟨rest, n⟩ := by
  obtain ⟨body, hb, rfl⟩ := h
  have hbody : body ++ [.eol] ≠ [] := by simp
  have hline : ∀ k,
      nextLine? ⟨(body ++ [Lexeme.eol]).map (fun L => ⟨L, n⟩) ++ rest, k⟩ = some n := by
    intro k
    obtain ⟨L, ks, rfl, -⟩ := hb.head
    rfl
  cases hlabel : i.label with
  | none => exact ⟨body, _, hb, .done _, takes_line hbody m n, hline m⟩
  | some label =>
    exact ⟨body, _, hb, .step m (.step n (.done _)), takes_line hbody n n, hline n⟩

theorem whole_of_scanned {r : Reader} (h : ∀ t ∈ r.pending, t.Scanned) : r.Whole := by
  intro t ht k hk
  rcases h t ht with heol | hlegal
  · rw [heol] at hk
    cases hk
  · rw [hk] at hlegal
    exact hlegal.shaped

/-- Instructions that are read from scanned tokens are made up of legal tokens. -/
theorem Reads.legible {r : Reader} {is : List Instr} (h : r.Reads is)
    (hr : ∀ t ∈ r.pending, t.Scanned) : ∀ i ∈ is, i.Legible := by
  induction h with
  | done n =>
    intro i hi
    cases hi
  | @step r r' i is hi his ih =>
    obtain ⟨ls, hls, htakes⟩ := hi.derives
    have hlegal : ∀ L ∈ ls, L.Legal := by
      intro L hL
      obtain ⟨t, ht, rfl⟩ := htakes.exists_mem (List.mem_append_left _ hL)
      rcases hr t ht with heol | hlegal
      · exact absurd heol (hls.ne_eol _ hL)
      · exact hlegal
    have hrest := ih fun t ht => hr t (htakes.pending_subset ht)
    intro j hj
    rcases List.mem_cons.mp hj with rfl | hj
    · exact ⟨ls, hls, hlegal⟩
    · exact hrest j hj

end Reader

/-! ## Round trip -/

namespace Instr

variable {text : String} {i j : Instr} {is : List Instr}

theorem ofText_eq_ok_iff :
    ofText text = .ok is ↔
      ∃ tokens, Token.scan text = .ok tokens ∧ (Reader.ofTokens tokens).Reads is := by
  unfold ofText
  cases hscan : Token.scan text with
  | error e =>
    show Except.error (SourceError.rejected e) = .ok is ↔ _
    simp
  | ok tokens =>
    have hscanned : ∀ t ∈ (Reader.ofTokens tokens).pending, t.Scanned :=
      Token.scanned_of_scan hscan
    show ofTokens tokens = .ok is ↔ _
    rw [ofTokens_eq_ok_iff (Reader.whole_of_scanned hscanned)]
    constructor
    · intro h
      exact ⟨tokens, rfl, h⟩
    · rintro ⟨_, ⟨⟩, h⟩
      exact h

theorem legible_of_ofText (h : ofText text = .ok is) : ∀ i ∈ is, i.Legible := by
  obtain ⟨tokens, hscan, hreads⟩ := ofText_eq_ok_iff.mp h
  exact hreads.legible (Token.scanned_of_scan hscan)

/-- Lines that hold one instruction each hold these instructions. -/
theorem reads_texts (h : ∀ i ∈ is, i.Legible) (n : Int) :
    ∃ tokens, Token.scanLines n (is.map (·.text.toList)) = (tokens, []) ∧
      ∀ m, Reader.Reads ⟨tokens, m⟩ (is.mapIdx fun k i => { i with line := k + n }) := by
  induction is generalizing n with
  | nil => exact ⟨[], rfl, .done⟩
  | cons i is ih =>
    obtain ⟨ls, hls, hlegal⟩ := h i List.mem_cons_self
    obtain ⟨tokens, hscan, hreads⟩ := ih (fun j hj => h j (List.mem_cons_of_mem _ hj)) (n + 1)
    refine ⟨Token.lineOf n ls ++ tokens, ?_, fun m => ?_⟩
    · simp [Token.scanLines, hls.scanLine_text hlegal, hscan]
    · have hlines : (fun (k : Nat) (j : Instr) => { j with line := ↑(k + 1) + n }) =
          fun (k : Nat) (j : Instr) => { j with line := k + (n + 1) } := by
        funext k j
        congr 1
        omega
      rw [List.mapIdx_cons, hlines]
      refine .step ?_ (hreads n)
      simpa using Reader.takesInstr_line hls m n

theorem sourceLines_texts (hne : is ≠ []) (h : ∀ i ∈ is, i.Legible) :
    Text.sourceLines ("\n".intercalate (is.map Instr.text)).toList =
      is.map (·.text.toList) := by
  have hunbroken : ∀ line ∈ is.map (·.text.toList), Text.Unbroken line := by
    intro line hline
    obtain ⟨i, hi, rfl⟩ := List.mem_map.mp hline
    obtain ⟨ls, hls, hlegal⟩ := h i hi
    exact hls.unbroken_text hlegal
  have hlines : is.map (·.text.toList) ≠ [] := by simpa using hne
  rw [String.toList_intercalate, List.map_map]
  exact Text.sourceLines_intercalate hlines hunbroken

/-- Legible instructions that are written one to a line are read back, each on its line. -/
theorem ofText_texts_of_legible (h : ∀ i ∈ is, i.Legible) :
    ofText ("\n".intercalate (is.map Instr.text)) =
      .ok (is.mapIdx fun k i => { i with line := k + 1 }) := by
  cases is with
  | nil => rfl -- No instructions make the empty text, whose one line is blank.
  | cons i is =>
    obtain ⟨tokens, hscan, hreads⟩ := reads_texts h 1
    refine ofText_eq_ok_iff.mpr ⟨tokens, ?_, hreads _⟩
    rw [Token.scan_eq_ok_iff, sourceLines_texts (List.cons_ne_nil i is) h, hscan]

theorem Legible.ofText_text (h : i.Legible) : ofText i.text = .ok [{ i with line := 1 }] := by
  have hall : ∀ j ∈ [i], j.Legible := by simpa using h
  simpa using ofText_texts_of_legible hall

/-- Legible instructions that are written alike differ in their lines at most. -/
theorem Legible.eq_of_text (hi : i.Legible) (hj : j.Legible) (h : i.text = j.text) :
    { i with line := j.line } = j := by
  have hread := hi.ofText_text
  rw [h, hj.ofText_text] at hread
  obtain ⟨_, _, _⟩ := i
  obtain ⟨_, _, _⟩ := j
  simpa [eq_comm] using hread

/-- **Round trip.**  The instructions of a text, written one to a line, are read back as the same
instructions, the k-th one from the k-th line.  So instructions that are written alike differ in
their lines at most. -/
theorem ofText_texts (h : ofText text = .ok is) :
    ofText ("\n".intercalate (is.map Instr.text)) =
        .ok (is.mapIdx fun k i => { i with line := k + 1 }) ∧
      ∀ (other : String) (js : List Instr), ofText other = .ok js →
        ∀ i ∈ is, ∀ j ∈ js, i.text = j.text → { i with line := j.line } = j := by
  have his := legible_of_ofText h
  refine ⟨ofText_texts_of_legible his, ?_⟩
  intro other js hother i hi j hj htext
  exact (his i hi).eq_of_text (legible_of_ofText hother j hj) htext

/-- A labelled loop with blank lines and wide spacing: what is read when it is written, and that
its first instruction is the same up to the line. -/
theorem ofText_texts_of_loop :
    ofText "\r\n TOP :  x =  - 5\n\n if x >= 10 goto TOP" =
        .ok [⟨2, some "TOP", .unary "x" .neg (.lit 5)⟩,
          ⟨4, none, .branch (.var "x") .ge (.lit 10) (some "TOP")⟩] ∧
      ofText "TOP: x = - 5\nif x >= 10 goto TOP" =
        .ok [⟨1, some "TOP", .unary "x" .neg (.lit 5)⟩,
          ⟨2, none, .branch (.var "x") .ge (.lit 10) (some "TOP")⟩] ∧
      { (⟨2, some "TOP", .unary "x" .neg (.lit 5)⟩ : Instr) with line := 1 } =
        ⟨1, some "TOP", .unary "x" .neg (.lit 5)⟩ := by
  have h : ofText "\r\n TOP :  x =  - 5\n\n if x >= 10 goto TOP" =
      .ok [⟨2, some "TOP", .unary "x" .neg (.lit 5)⟩,
        ⟨4, none, .branch (.var "x") .ge (.lit 10) (some "TOP")⟩] := by decide +kernel
  have hjoined : "\n".intercalate
      ([⟨2, some "TOP", .unary "x" .neg (.lit 5)⟩,
        ⟨4, none, .branch (.var "x") .ge (.lit 10) (some "TOP")⟩].map Instr.text) =
      "TOP: x = - 5\nif x >= 10 goto TOP" := by decide +kernel
  obtain ⟨hback, hsame⟩ := ofText_texts h
  refine ⟨h, hjoined ▸ hback, ?_⟩
  exact hsame _ _ hback _ List.mem_cons_self _ List.mem_cons_self (by decide +kernel)

end Instr

end FlowTrace
