import FlowTrace.Proofs.Source.Segments
import FlowTrace.Proofs.Source.Spelling
import FlowTrace.Proofs.Text.Decimal

/-!
# Diagnosis line by line

A text is rejected for what is wrong with its lines, each taken alone.  If a line has an illegal
token, the illegal tokens of all lines are reported; otherwise the faults of syntax of all lines
are; otherwise the instructions of all lines are returned.  What a line adds does not depend on the
others, apart from its number.
-/

namespace FlowTrace

open Token (Lexeme)

/-! ## Lines and phases -/

/-- The lines of a text, each as a text of its own. -/
def Text.lineTexts (text : String) : List String := (sourceLines text.toList).map String.ofList

/-- An integer literal has no more digits than can be read. -/
def Token.Lexeme.Short : Lexeme → Prop
  | integerLiteral digits => digits.length ≤ Text.digitLimit
  | _ => True

instance : DecidablePred Lexeme.Short
  | .integerLiteral digits => inferInstanceAs (Decidable (digits.length ≤ Text.digitLimit))
  | .identifier _ | .symbol _ | .label _ | .ifTrue | .ifFalse | .goto | .eol | .blank _ =>
    inferInstanceAs (Decidable True)

/-- The line has no integer literal with more digits than can be read. -/
def Token.ShortLine (line : List Char) : Prop :=
  ∀ piece ∈ pieces line, ∀ L ∈ classify? piece, L.Short

/-- The text has no integer literal with more digits than can be read. -/
def Token.ShortText (text : String) : Prop :=
  ∀ line ∈ Text.sourceLines text.toList, ShortLine line

instance : DecidablePred Token.ShortLine := fun line =>
  inferInstanceAs (Decidable (∀ piece ∈ Token.pieces line, ∀ L ∈ Token.classify? piece, L.Short))

instance : DecidablePred Token.ShortText := fun text =>
  inferInstanceAs (Decidable (∀ line ∈ Text.sourceLines text.toList, Token.ShortLine line))

namespace Instr

/-- The faults of a phase that a text is rejected for. -/
def faultsIn (phase : FaultPhase) (text : String) : List Fault :=
  (reported (ofText text)).filter (·.code.phase = phase)

/-- The faults that lines have alone, if they are numbered from `n` on. -/
def faultsFrom (phase : FaultPhase) (n : Int) : List String → List Fault
  | [] => []
  | line :: lines =>
    (faultsIn phase line).map (Fault.renumber fun _ => n) ++ faultsFrom phase (n + 1) lines

/-- The instructions that lines have alone, if they are numbered from `n` on. -/
def instrsFrom (n : Int) : List String → List Instr
  | [] => []
  | line :: lines =>
    (found (ofText line)).map (Instr.renumber fun _ => n) ++ instrsFrom (n + 1) lines

end Instr

/-! ## Scanning one line -/

namespace Token

variable {line : List Char}

/-- What scanning makes of a line, whatever number it has. -/
inductive Scans (line : List Char) : Prop
  | blank (hline : ∀ c ∈ line, Text.isBlank c = true) (h : ∀ n, scanLine n line = ([], none))
  | illegal (f : Fault) (hf : f.code.phase = .lexical)
    (h : ∀ n, (scanLine n line).2 = some (f.renumber fun _ => n))
  | legal (ls : List Lexeme) (hline : ¬∀ c ∈ line, Text.isBlank c = true)
    (hls : ∀ L ∈ ls, ∃ piece ∈ pieces line, classify? piece = some L)
    (h : ∀ n, scanLine n line = (lineOf n ls, none))

theorem scanPieces_cases (ps : List (List Char)) :
    (∃ f : Fault, f.code.phase = .lexical ∧
      ∀ n, (scanPieces n ps).2 = some (f.renumber fun _ => n)) ∨
    ∃ ls, (∀ L ∈ ls, ∃ piece ∈ ps, classify? piece = some L) ∧
      ∀ n, scanPieces n ps = (lineOf n ls, none) := by
  induction ps with
  | nil => exact .inr ⟨[], nofun, fun n => rfl⟩
  | cons piece ps ih =>
    cases hpiece : classify? piece with
    | none =>
      refine .inl ⟨⟨.illegalToken (String.ofList piece), 0⟩, rfl, fun n => ?_⟩
      simp [scanPieces, hpiece, Fault.renumber]
    | some L =>
      rcases ih with ⟨f, hf, h⟩ | ⟨ls, hls, h⟩
      · refine .inl ⟨f, hf, fun n => ?_⟩
        simp [scanPieces, hpiece, h]
      · refine .inr ⟨L :: ls, ?_, fun n => ?_⟩
        · refine List.forall_mem_cons.mpr ⟨⟨piece, List.mem_cons_self, hpiece⟩, fun K hK => ?_⟩
          obtain ⟨q, hq, hqK⟩ := hls K hK
          exact ⟨q, List.mem_cons_of_mem _ hq, hqK⟩
        · simp [scanPieces, hpiece, h, lineOf]

theorem scans (line : List Char) : Scans line := by
  have hscan : ∀ n, scanLine n line =
      if pieces line = [] then ([], none) else scanPieces n (pieces line) := by
    intro n
    unfold scanLine
    cases pieces line <;> rfl
  by_cases hblank : pieces line = []
  · refine .blank (pieces_eq_nil_iff.mp hblank) fun n => ?_
    rw [hscan, if_pos hblank]
  · simp only [if_neg hblank] at hscan
    rcases scanPieces_cases (pieces line) with ⟨f, hf, h⟩ | ⟨ls, hls, h⟩
    · refine .illegal f hf fun n => ?_
      rw [hscan, h]
    · refine .legal ls (fun hall => hblank (pieces_eq_nil_iff.mpr hall)) hls fun n => ?_
      rw [hscan, h]

/-- Literals that are short enough can be read. -/
theorem readable_of_classify? {piece : List Char} {L : Lexeme} (h : classify? piece = some L)
    (hshort : L.Short) : L.Readable ∧ L ≠ .eol := by
  have hshaped := (legal_of_classify? h).shaped
  cases L with
  | integerLiteral digits =>
    obtain ⟨hdigits, hzero⟩ := hshaped
    have hne : digits.toList ≠ [] := by
      rcases hzero with rfl | ⟨c, cs, hcs, -⟩
      · decide
      · simp [hcs]
    have hdigit : ∀ c ∈ digits.toList, c.isDigit = true := by
      intro c hc
      simpa [isDigit, Char.isDigit, Char.le_def] using hdigits c hc
    have hlimit : ¬Text.digitLimit < digits.toList.length := by
      rw [String.length_toList]
      exact Nat.not_lt.mpr hshort
    refine ⟨?_, by simp⟩
    show (Text.readInt digits).isOk = true
    rw [Text.readInt_of_isDigit hne hdigit, if_neg hlimit]
    rfl
  | eol => exact hshaped.elim
  | blank k => exact hshaped.elim
  | _ => exact ⟨trivial, by simp⟩

theorem scanLines_cons (n : Int) (line : List Char) (lines : List (List Char)) :
    scanLines n (line :: lines) =
      ((scanLine n line).1 ++ (scanLines (n + 1) lines).1,
        (scanLine n line).2.toList ++ (scanLines (n + 1) lines).2) := rfl

/-- The same tokens on a line with another number. -/
theorem amid_lineOf {ls : List Lexeme} (hls : ∀ L ∈ ls, L.Readable ∧ L ≠ .eol) (m n : Int)
    (rest : List Token) :
    Reader.Amid (fun _ => n) rest (lineOf n ls ++ rest) (lineOf m ls) := by
  have hts : ∀ t ∈ ls.map fun L => (⟨L, m⟩ : Token), t.lexeme.Readable ∧ t.lexeme ≠ .eol := by
    intro t ht
    obtain ⟨L, hL, rfl⟩ := List.mem_map.mp ht
    exact hls L hL
  have heol : Reader.Amid (fun _ => n) rest (⟨.eol, n⟩ :: rest) [⟨.eol, m⟩] := .eol m
  have hamid := heol.append hts
  simpa [lineOf, renumber, Function.comp_def] using hamid

end Token

/-! ## What a line gives -/

namespace Instr

variable {text : String} {line : List Char}

theorem ofText_of_legal (h : (Token.scanLines 1 (Text.sourceLines text.toList)).2 = []) :
    ofText text = ofTokens (Token.scanLines 1 (Text.sourceLines text.toList)).1 := by
  have hscan := Token.scan_eq_ok_iff.mpr (Prod.ext rfl h)
  unfold ofText
  rw [hscan]
  rfl

theorem ofText_of_illegal (h : (Token.scanLines 1 (Text.sourceLines text.toList)).2 ≠ []) :
    ofText text =
      .error (.rejected ⟨(Token.scanLines 1 (Text.sourceLines text.toList)).2⟩) := by
  have hempty : (Token.scanLines 1 (Text.sourceLines text.toList)).2.isEmpty = false := by
    simpa using h
  have hscan : Token.scan text =
      .error ⟨(Token.scanLines 1 (Text.sourceLines text.toList)).2⟩ := by
    simp [Token.scan, hempty]
  unfold ofText
  rw [hscan]
  rfl

/-- A reading of the same lines with other numbers. -/
def moved (g : Int → Int) : Except SourceError (List Instr) → Except SourceError (List Instr)
  | .ok is => .ok (is.map (Instr.renumber g))
  | .error (.rejected r) => .error (.rejected ⟨r.faults.map (Fault.renumber g)⟩)
  | .error (.numeral e) => .error (.numeral e)

@[simp] theorem found_moved (g : Int → Int) (x : Except SourceError (List Instr)) :
    found (moved g x) = (found x).map (Instr.renumber g) := by
  rcases x with (_ | _) | _ <;> rfl

@[simp] theorem reported_moved (g : Int → Int) (x : Except SourceError (List Instr)) :
    reported (moved g x) = (reported x).map (Fault.renumber g) := by
  rcases x with (_ | _) | _ <;> rfl

theorem ofTokens_renumber {g : Int → Int} {ts seg : List Token} (h : Reader.Amid g [] ts seg)
    (hne : seg ≠ []) : ofTokens ts = moved g (ofTokens seg) := by
  have hts : ts ≠ [] := by
    rintro rfl
    cases h
    exact hne rfl
  rcases instruction_amid h hne (Reader.ofTokens ts).lastLine with
    ⟨i, r, hseg, hi, hr⟩ | ⟨f, r, -, hseg, hfault, hr⟩
  · rw [hseg, ofTokens_of_ok hts hi hr]
    rfl
  · rw [hseg, ofTokens_of_fault hts hfault hr]
    rfl

/-- What a line gives alone, and what it adds to a text in which it has the number `n`. -/
inductive LineGives (line : List Char) : Prop
  | blank (hblank : ∀ c ∈ line, Text.isBlank c = true)
    (halone : ofText (String.ofList line) = .ok [])
    (hscan : ∀ n, Token.scanLine n line = ([], none))
  | illegal (f : Fault) (hf : f.code.phase = .lexical)
    (halone : ofText (String.ofList line) = .error (.rejected ⟨[f]⟩))
    (hscan : ∀ n, (Token.scanLine n line).2 = some (f.renumber fun _ => n))
  | legal (ls : List Lexeme) (hblank : ¬∀ c ∈ line, Text.isBlank c = true)
    (hls : ∀ L ∈ ls, L.Readable ∧ L ≠ .eol)
    (halone : (∃ i, ofText (String.ofList line) = .ok [i]) ∨
      ∃ f, f.code.phase = .syntactic ∧ ofText (String.ofList line) = .error (.rejected ⟨[f]⟩))
    (hscan : ∀ n, Token.scanLine n line = (Token.lineOf n ls, none))
    (hread : ∀ n,
      ofTokens (Token.lineOf n ls) = moved (fun _ => n) (ofText (String.ofList line)))

theorem lineGives (hline : Text.Unbroken line) (hshort : Token.ShortLine line) :
    LineGives line := by
  have hscanLines : Token.scanLines 1 (Text.sourceLines (String.ofList line).toList) =
      ((Token.scanLine 1 line).1, (Token.scanLine 1 line).2.toList) := by
    rw [String.toList_ofList, Text.sourceLines_of_unbroken hline, Token.scanLines_cons]
    simp [Token.scanLines]
  cases Token.scans line with
  | blank hblank hscan =>
    refine .blank hblank ?_ hscan
    rw [ofText_of_legal (by rw [hscanLines, hscan]; rfl), hscanLines, hscan]
    rfl
  | illegal f hf hscan =>
    refine .illegal (f.renumber fun _ => 1) hf ?_ hscan
    rw [ofText_of_illegal (by rw [hscanLines, hscan]; simp), hscanLines, hscan]
    rfl
  | legal ls hblank hls hscan =>
    have hls : ∀ L ∈ ls, L.Readable ∧ L ≠ .eol := by
      intro L hL
      obtain ⟨piece, hpiece, hclass⟩ := hls L hL
      exact Token.readable_of_classify? hclass (hshort piece hpiece L hclass)
    have hamid : ∀ n, Reader.Amid (fun _ => n) [] (Token.lineOf n ls) (Token.lineOf 1 ls) := by
      intro n
      simpa using Token.amid_lineOf hls 1 n []
    have hne : Token.lineOf 1 ls ≠ [] := by simp [Token.lineOf]
    have halone : ofText (String.ofList line) = ofTokens (Token.lineOf 1 ls) := by
      rw [ofText_of_legal (by rw [hscanLines, hscan]; rfl), hscanLines, hscan]
    refine .legal ls hblank hls ?_ hscan fun n => ?_
    · rw [halone]
      rcases instruction_amid (hamid 1) hne 0 with ⟨i, -, hi, -⟩ | ⟨f, -, hf, hfault, -⟩
      · exact .inl ⟨i, hi⟩
      · exact .inr ⟨f, hf, hfault⟩
    · rw [halone, ofTokens_renumber (hamid n) hne]

namespace LineGives

/-- The illegal token of a line alone is the one that scanning finds. -/
theorem faultsIn_lexical (h : LineGives line) (n : Int) :
    (faultsIn .lexical (String.ofList line)).map (Fault.renumber fun _ => n) =
      (Token.scanLine n line).2.toList := by
  cases h with
  | blank hblank halone hscan =>
    rw [faultsIn, halone, hscan]
    rfl
  | illegal f hf halone hscan =>
    rw [faultsIn, halone, hscan]
    simp [reported, hf]
  | legal ls hblank hls halone hscan hread =>
    rw [hscan]
    rcases halone with ⟨i, hi⟩ | ⟨f, hf, hfault⟩
    · rw [faultsIn, hi]
      rfl
    · rw [faultsIn, hfault]
      simp [reported, hf]

theorem length_faultsIn_le (h : LineGives line) (phase : FaultPhase) :
    (faultsIn phase (String.ofList line)).length ≤ 1 := by
  have hreported : (reported (ofText (String.ofList line))).length ≤ 1 := by
    cases h with
    | blank hblank halone hscan => simp [halone, reported]
    | illegal f hf halone hscan => simp [halone, reported]
    | legal ls hblank hls halone hscan hread =>
      rcases halone with ⟨i, hi⟩ | ⟨f, hf, hfault⟩
      · simp [hi, reported]
      · simp [hfault, reported]
  exact Nat.le_trans (List.length_filter_le _ _) hreported

/-- A line without faults is blank or an instruction. -/
theorem exists_ofText_eq_ok (h : LineGives line)
    (hlexical : faultsIn .lexical (String.ofList line) = [])
    (hsyntactic : faultsIn .syntactic (String.ofList line) = []) :
    ∃ is, ofText (String.ofList line) = .ok is ∧
      is.length = if line.all Text.isBlank then 0 else 1 := by
  cases h with
  | blank hblank halone hscan =>
    rw [← List.all_eq_true] at hblank
    exact ⟨[], halone, by rw [hblank]; rfl⟩
  | illegal f hf halone hscan => simp [faultsIn, halone, reported, hf] at hlexical
  | legal ls hblank hls halone hscan hread =>
    rw [← List.all_eq_true] at hblank
    rcases halone with ⟨i, hi⟩ | ⟨f, hf, hfault⟩
    · exact ⟨[i], hi, by rw [if_neg hblank]; rfl⟩
    · simp [faultsIn, hfault, reported, hf] at hsyntactic

/-- A line without an illegal token adds its tokens as a segment, or none if it is blank. -/
theorem cut (h : LineGives line) {n : Int} (hlegal : (Token.scanLine n line).2 = none)
    {rest : List Token} {segs : List (List Token)} (hrest : Reader.Cut rest segs) :
    ∃ segs', Reader.Cut ((Token.scanLine n line).1 ++ rest) segs' ∧
      segs'.flatMap (reported <| ofTokens ·) =
        (faultsIn .syntactic (String.ofList line)).map (Fault.renumber fun _ => n) ++
          segs.flatMap (reported <| ofTokens ·) ∧
      segs'.flatMap (found <| ofTokens ·) =
        (found (ofText (String.ofList line))).map (Instr.renumber fun _ => n) ++
          segs.flatMap (found <| ofTokens ·) := by
  cases h with
  | blank hblank halone hscan =>
    refine ⟨segs, ?_, ?_, ?_⟩
    · rwa [hscan]
    · rw [faultsIn, halone]
      rfl
    · rw [halone]
      rfl
  | illegal f hf halone hscan =>
    rw [hscan] at hlegal
    cases hlegal
  | legal ls hblank hls halone hscan hread =>
    have hts : ∀ t ∈ ls.map fun L => (⟨L, n⟩ : Token), t.lexeme.Readable ∧ t.lexeme ≠ .eol := by
      intro t ht
      obtain ⟨L, hL, rfl⟩ := List.mem_map.mp ht
      exact hls L hL
    have hall : faultsIn .syntactic (String.ofList line) =
        reported (ofText (String.ofList line)) := by
      rcases halone with ⟨i, hi⟩ | ⟨f, hf, hfault⟩
      · rw [faultsIn, hi]
        rfl
      · rw [faultsIn, hfault]
        simp [reported, hf]
    refine ⟨Token.lineOf n ls :: segs, ?_, ?_, ?_⟩
    · rw [hscan]
      simpa [Token.lineOf] using Reader.Cut.line hts n hrest
    · rw [List.flatMap_cons, hread, reported_moved, hall]
    · rw [List.flatMap_cons, hread, found_moved]

end LineGives

/-! ## Lines one after the other -/

variable {lines pre post : List String} {phase : FaultPhase} {f : Fault}

theorem faultsFrom_eq_nil_iff {n : Int} :
    faultsFrom phase n lines = [] ↔ ∀ line ∈ lines, faultsIn phase line = [] := by
  induction lines generalizing n with
  | nil => simp [faultsFrom]
  | cons line lines ih => simp [faultsFrom, ih]

theorem phase_of_mem_faultsFrom {n : Int} (h : f ∈ faultsFrom phase n lines) :
    f.code.phase = phase := by
  induction lines generalizing n with
  | nil => cases h
  | cons line lines ih =>
    rcases List.mem_append.mp h with h | h
    · obtain ⟨e, he, rfl⟩ := List.mem_map.mp h
      exact of_decide_eq_true (List.mem_filter.mp he).2
    · exact ih h

theorem filter_faultsFrom (n : Int) (phase' : FaultPhase) :
    (faultsFrom phase n lines).filter (·.code.phase = phase') =
      if phase = phase' then faultsFrom phase n lines else [] := by
  split
  · next heq =>
    apply List.filter_eq_self.mpr
    intro f hf
    exact decide_eq_true ((phase_of_mem_faultsFrom hf).trans heq)
  · next hne =>
    apply List.filter_eq_nil_iff.mpr
    intro f hf
    simpa [phase_of_mem_faultsFrom hf] using hne

theorem line_of_mem_faultsFrom {n : Int} (h : f ∈ faultsFrom phase n lines) :
    n ≤ f.line ∧ f.line < n + lines.length := by
  induction lines generalizing n with
  | nil => cases h
  | cons line lines ih =>
    rw [List.length_cons]
    rcases List.mem_append.mp h with h | h
    · obtain ⟨e, -, rfl⟩ := List.mem_map.mp h
      show n ≤ n ∧ n < n + _
      omega
    · have := ih h
      omega

/-- Each line has one fault at most, so the lines of the faults increase. -/
theorem pairwise_faultsFrom (h : ∀ line ∈ lines, (faultsIn phase line).length ≤ 1) (n : Int) :
    ((faultsFrom phase n lines).map (·.line)).Pairwise (· < ·) := by
  induction lines generalizing n with
  | nil => exact .nil
  | cons line lines ih =>
    obtain ⟨hline, hlines⟩ := List.forall_mem_cons.mp h
    rw [faultsFrom, List.map_append, List.pairwise_append]
    refine ⟨?_, ih hlines (n + 1), ?_⟩
    · generalize faultsIn phase line = faults at hline
      rcases faults with _ | ⟨f, _ | ⟨_, _⟩⟩
      · exact .nil
      · exact List.pairwise_singleton _ _
      · simp at hline
    · intro a ha b hb
      simp only [List.map_map, List.mem_map] at ha hb
      obtain ⟨e, -, rfl⟩ := ha
      obtain ⟨f, hf, rfl⟩ := hb
      have := (line_of_mem_faultsFrom hf).1
      show n < f.line
      omega

theorem faultsFrom_append (n : Int) (pre post : List String) :
    faultsFrom phase n (pre ++ post) =
      faultsFrom phase n pre ++ faultsFrom phase (n + pre.length) post := by
  induction pre generalizing n with
  | nil => simp [faultsFrom]
  | cons line pre ih =>
    have hn : n + 1 + (pre.length : Int) = n + ((line :: pre).length : Int) := by
      rw [List.length_cons]
      omega
    rw [List.cons_append, faultsFrom, ih, hn, faultsFrom, List.append_assoc]

theorem map_faultsFrom (n k : Int) :
    (faultsFrom phase n lines).map (Fault.renumber (· + k)) = faultsFrom phase (n + k) lines := by
  induction lines generalizing n with
  | nil => rfl
  | cons line lines ih =>
    have hn : n + 1 + k = n + k + 1 := by omega
    rw [faultsFrom, List.map_append, ih, List.map_map, hn]
    rfl

theorem scanLines_faults {lines : List (List Char)} (h : ∀ line ∈ lines, LineGives line) (n : Int) :
    (Token.scanLines n lines).2 = faultsFrom .lexical n (lines.map String.ofList) := by
  induction lines generalizing n with
  | nil => rfl
  | cons line lines ih =>
    obtain ⟨hline, hlines⟩ := List.forall_mem_cons.mp h
    rw [Token.scanLines_cons, List.map_cons, faultsFrom, hline.faultsIn_lexical, ih hlines]

/-- Lines without illegal tokens are read as the segments that they are. -/
theorem exists_cut {lines : List (List Char)} (h : ∀ line ∈ lines, LineGives line) {n : Int}
    (hlegal : (Token.scanLines n lines).2 = []) :
    ∃ segs, Reader.Cut (Token.scanLines n lines).1 segs ∧
      segs.flatMap (reported <| ofTokens ·) =
        faultsFrom .syntactic n (lines.map String.ofList) ∧
      segs.flatMap (found <| ofTokens ·) = instrsFrom n (lines.map String.ofList) := by
  induction lines generalizing n with
  | nil => exact ⟨[], .nil, rfl, rfl⟩
  | cons line lines ih =>
    obtain ⟨hline, hlines⟩ := List.forall_mem_cons.mp h
    rw [Token.scanLines_cons] at hlegal ⊢
    obtain ⟨hnone, hlegal⟩ := List.append_eq_nil_iff.mp hlegal
    obtain ⟨segs, hcut, hreported, hfound⟩ := ih hlines hlegal
    obtain ⟨segs', hcut', hreported', hfound'⟩ :=
      hline.cut (Option.toList_eq_nil_iff.mp hnone) hcut
    refine ⟨segs', hcut', ?_, ?_⟩
    · rw [hreported', hreported]
      rfl
    · rw [hfound', hfound]
      rfl

/-! ## Diagnosis -/

theorem lineGives_of_shortText (h : Token.ShortText text) :
    ∀ line ∈ Text.sourceLines text.toList, LineGives line :=
  fun line hline => lineGives (Text.unbroken_of_mem_sourceLines hline) (h line hline)

/-- What a text gives, from what its lines give. -/
theorem ofText_eq_of_lines (h : Token.ShortText text) :
    (faultsFrom .lexical 1 (Text.lineTexts text) ≠ [] →
      ofText text = .error (.rejected ⟨faultsFrom .lexical 1 (Text.lineTexts text)⟩)) ∧
    (faultsFrom .lexical 1 (Text.lineTexts text) = [] →
      faultsFrom .syntactic 1 (Text.lineTexts text) ≠ [] →
      ofText text = .error (.rejected ⟨faultsFrom .syntactic 1 (Text.lineTexts text)⟩)) ∧
    (faultsFrom .lexical 1 (Text.lineTexts text) = [] →
      faultsFrom .syntactic 1 (Text.lineTexts text) = [] →
      ofText text = .ok (instrsFrom 1 (Text.lineTexts text))) := by
  have hlines := lineGives_of_shortText h
  have hscan : (Token.scanLines 1 (Text.sourceLines text.toList)).2 =
      faultsFrom .lexical 1 (Text.lineTexts text) := scanLines_faults hlines 1
  refine ⟨?_, ?_, ?_⟩
  · intro hne
    rw [ofText_of_illegal (hscan ▸ hne), hscan]
  all_goals
    intro hnil hsyn
    rw [← hscan] at hnil
    obtain ⟨segs, hcut, hreported, hfound⟩ := exists_cut hlines hnil
    have hreported : segs.flatMap (reported <| ofTokens ·) =
        faultsFrom .syntactic 1 (Text.lineTexts text) := hreported
    rw [ofText_of_legal hnil]
  · rw [(ofTokens_of_cut hcut).2 (hreported ▸ hsyn), hreported]
  · rw [(ofTokens_of_cut hcut).1 (hreported ▸ hsyn), hfound]
    rfl

/-- A text is rejected for the faults of one phase. -/
theorem exists_phase_of_rejected (h : Token.ShortText text) {r : Rejection}
    (hr : ofText text = .error (.rejected r)) :
    ∃ phase, r.faults = faultsFrom phase 1 (Text.lineTexts text) := by
  obtain ⟨hillegal, hrejected, haccepted⟩ := ofText_eq_of_lines h
  by_cases hlex : faultsFrom .lexical 1 (Text.lineTexts text) = []
  · by_cases hsyn : faultsFrom .syntactic 1 (Text.lineTexts text) = []
    · cases hr.symm.trans (haccepted hlex hsyn)
    · cases hr.symm.trans (hrejected hlex hsyn)
      exact ⟨.syntactic, rfl⟩
  · cases hr.symm.trans (hillegal hlex)
    exact ⟨.lexical, rfl⟩

/-- Each phase that a text reaches reports what its lines have alone. -/
theorem faultsIn_eq_of_lines (h : Token.ShortText text) :
    faultsIn .lexical text = faultsFrom .lexical 1 (Text.lineTexts text) ∧
    (faultsIn .lexical text = [] →
      faultsIn .syntactic text = faultsFrom .syntactic 1 (Text.lineTexts text)) := by
  obtain ⟨hillegal, hrejected, haccepted⟩ := ofText_eq_of_lines h
  by_cases hlex : faultsFrom .lexical 1 (Text.lineTexts text) = []
  · by_cases hsyn : faultsFrom .syntactic 1 (Text.lineTexts text) = []
    · simp [faultsIn, haccepted hlex hsyn, reported, hlex, hsyn]
    · simp [faultsIn, hrejected hlex hsyn, reported, filter_faultsFrom, hlex]
  · simp [faultsIn, hillegal hlex, reported, filter_faultsFrom, hlex]

/-- The same faults around a part of a text that was changed: `before` lines stand in front of it,
and it had `old` lines and has `new` ones. -/
def SameAround (before old new : Int) (F F' : List Fault) : Prop :=
  F.filter (·.line ≤ before) = F'.filter (·.line ≤ before) ∧
    (F.filter (before + old < ·.line)).map (Fault.renumber (· + (new - old))) =
      F'.filter (before + new < ·.line)

theorem filter_front (pre post : List String) :
    (faultsFrom phase 1 (pre ++ post)).filter (·.line ≤ (pre.length : Int)) =
      faultsFrom phase 1 pre := by
  rw [faultsFrom_append, List.filter_append, List.filter_eq_self.mpr, List.filter_eq_nil_iff.mpr,
    List.append_nil]
  all_goals
    intro f hf
    have := line_of_mem_faultsFrom hf
    simp only [decide_eq_true_eq]
    omega

theorem filter_back (pre post : List String) :
    (faultsFrom phase 1 (pre ++ post)).filter ((pre.length : Int) < ·.line) =
      faultsFrom phase (1 + pre.length) post := by
  rw [faultsFrom_append, List.filter_append, List.filter_eq_nil_iff.mpr, List.filter_eq_self.mpr,
    List.nil_append]
  all_goals
    intro f hf
    have := line_of_mem_faultsFrom hf
    simp only [decide_eq_true_eq]
    omega

theorem sameAround_faultsFrom (pre mid mid' post : List String) :
    SameAround pre.length mid.length mid'.length (faultsFrom phase 1 (pre ++ mid ++ post))
      (faultsFrom phase 1 (pre ++ mid' ++ post)) := by
  constructor
  · rw [List.append_assoc, List.append_assoc, filter_front, filter_front]
  · have hback : ∀ part : List String,
        (faultsFrom phase 1 (pre ++ part ++ post)).filter
          ((pre.length : Int) + part.length < ·.line) =
            faultsFrom phase (1 + (pre.length + part.length)) post := by
      intro part
      rw [← Int.natCast_add, ← List.length_append]
      exact filter_back (pre ++ part) post
    rw [hback, hback, map_faultsFrom]
    congr 1
    omega

/-- **Line by line.**  If a line alone has an illegal token, the text is rejected for the illegal
tokens that its lines have alone; otherwise, if a line alone has a fault of syntax, it is rejected
for those; otherwise it has the instructions that its lines have alone, none for a blank line and
one for any other.  The faults stand on different lines, in their order.  Changing a part of the
text does not change what a phase reports for the other lines. -/
theorem ofText_by_lines (h : Token.ShortText text) :
    ((∃ line ∈ Text.lineTexts text, faultsIn .lexical line ≠ []) →
      ofText text = .error (.rejected ⟨faultsFrom .lexical 1 (Text.lineTexts text)⟩)) ∧
    ((∀ line ∈ Text.lineTexts text, faultsIn .lexical line = []) →
      (∃ line ∈ Text.lineTexts text, faultsIn .syntactic line ≠ []) →
      ofText text = .error (.rejected ⟨faultsFrom .syntactic 1 (Text.lineTexts text)⟩)) ∧
    ((∀ line ∈ Text.lineTexts text, faultsIn .lexical line = [] ∧ faultsIn .syntactic line = []) →
      ofText text = .ok (instrsFrom 1 (Text.lineTexts text)) ∧
      ∀ line ∈ Text.lineTexts text, ∃ is, ofText line = .ok is ∧
        is.length = if line.toList.all Text.isBlank then 0 else 1) ∧
    (∀ r, ofText text = .error (.rejected r) →
      (r.faults.map (·.line)).Pairwise (· < ·) ∧
      ∀ f ∈ r.faults, 1 ≤ f.line ∧ f.line ≤ (Text.lineTexts text).length) ∧
    (∀ (text' : String) (pre mid mid' post : List String), Token.ShortText text' →
      Text.lineTexts text = pre ++ mid ++ post → Text.lineTexts text' = pre ++ mid' ++ post →
      SameAround pre.length mid.length mid'.length (faultsIn .lexical text)
        (faultsIn .lexical text') ∧
      (faultsIn .lexical text = [] → faultsIn .lexical text' = [] →
        SameAround pre.length mid.length mid'.length (faultsIn .syntactic text)
          (faultsIn .syntactic text'))) := by
  obtain ⟨hillegal, hrejected, haccepted⟩ := ofText_eq_of_lines h
  have hnil : ∀ phase, faultsFrom phase 1 (Text.lineTexts text) = [] ↔
      ∀ line ∈ Text.lineTexts text, faultsIn phase line = [] := fun _ => faultsFrom_eq_nil_iff
  have hlines := lineGives_of_shortText h
  refine ⟨?_, ?_, ?_, ?_, ?_⟩
  · rintro ⟨line, hline, hne⟩
    exact hillegal fun hall => hne ((hnil _).mp hall line hline)
  · rintro hlegal ⟨line, hline, hne⟩
    exact hrejected ((hnil _).mpr hlegal) fun hall => hne ((hnil _).mp hall line hline)
  · intro hall
    refine ⟨haccepted ((hnil _).mpr fun line hline => (hall line hline).1)
      ((hnil _).mpr fun line hline => (hall line hline).2), fun line hline => ?_⟩
    obtain ⟨hlexical, hsyntactic⟩ := hall line hline
    obtain ⟨chars, hchars, rfl⟩ := List.mem_map.mp hline
    rw [String.toList_ofList]
    exact (hlines chars hchars).exists_ofText_eq_ok hlexical hsyntactic
  · intro r hr
    obtain ⟨phase, hfaults⟩ := exists_phase_of_rejected h hr
    rw [hfaults]
    constructor
    · apply pairwise_faultsFrom
      intro line hline
      obtain ⟨chars, hchars, rfl⟩ := List.mem_map.mp hline
      exact (hlines chars hchars).length_faultsIn_le phase
    · intro f hf
      have := line_of_mem_faultsFrom hf
      omega
  · intro text' pre mid mid' post h' hpre hpre'
    obtain ⟨hlexical, hsyntactic⟩ := faultsIn_eq_of_lines h
    obtain ⟨hlexical', hsyntactic'⟩ := faultsIn_eq_of_lines h'
    constructor
    · rw [hlexical, hlexical', hpre, hpre']
      exact sameAround_faultsFrom pre mid mid' post
    · intro hlegal hlegal'
      rw [hsyntactic hlegal, hsyntactic' hlegal', hpre, hpre']
      exact sameAround_faultsFrom pre mid mid' post

/-- Two faults of syntax with a blank line and an instruction between them, and what is reported
when the lines between are taken out. -/
theorem ofText_by_lines_of_gaps :
    Token.ShortText "goto\r\n\nx = 1\rif 5 goto END" ∧ Token.ShortText "goto\nif 5 goto END" ∧
      ofText "goto\r\n\nx = 1\rif 5 goto END" =
        .error (.rejected
          ⟨[⟨.unexpectedEnd ["label"], 1⟩, ⟨.unexpectedToken "goto" ["symbol"], 4⟩]⟩) ∧
      SameAround 1 2 0 (faultsIn .syntactic "goto\r\n\nx = 1\rif 5 goto END")
        (faultsIn .syntactic "goto\nif 5 goto END") := by
  have h : Token.ShortText "goto\r\n\nx = 1\rif 5 goto END" := by decide +kernel
  have h' : Token.ShortText "goto\nif 5 goto END" := by decide +kernel
  obtain ⟨-, hsyn, -, -, hchange⟩ := ofText_by_lines h
  refine ⟨h, h', ?_, ?_⟩
  · rw [hsyn (by decide +kernel) (by decide +kernel)]
    decide +kernel
  · exact (hchange _ ["goto"] ["", "x = 1"] [] ["if 5 goto END"] h' (by decide +kernel)
      (by decide +kernel)).2 (by decide +kernel) (by decide +kernel)

end Instr

end FlowTrace
