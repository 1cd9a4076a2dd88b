import FlowTrace.Proofs.Program.Labels
import FlowTrace.Proofs.Source.Diagnosis
import FlowTrace.Proofs.Source.RoundTrip
import FlowTrace.Proofs.Text.Display
import FlowTrace.Report.Diagnostic

/-!
# What is shown of the line of a fault

Every fault of a text is on one of its lines that is not blank, as the lines of the source are
numbered.  It is shown with what a display has at that number, which is the line itself unless a
character that only a display takes for the end of a line stands above it or within it.
-/

namespace FlowTrace

/-! ## Lines with a number -/

/-- Of lines that are numbered from `n` on, one that is not blank has the number `k`. -/
def Text.HasNumber (lines : List (List Char)) (n k : Int) : Prop :=
  ∃ above line below, lines = above ++ line :: below ∧ k = n + above.length ∧
    ∃ c ∈ line, isBlank c = false

namespace Text.HasNumber

variable {line : List Char} {lines : List (List Char)} {n k : Int}

theorem head (h : ∃ c ∈ line, isBlank c = false) : HasNumber (line :: lines) n n :=
  ⟨[], line, lines, rfl, (Int.add_zero n).symm, h⟩

theorem tail (h : HasNumber lines (n + 1) k) : HasNumber (line :: lines) n k := by
  obtain ⟨above, shown, below, rfl, rfl, hshown⟩ := h
  refine ⟨line :: above, shown, below, rfl, ?_, hshown⟩
  rw [List.length_cons]
  omega

end Text.HasNumber

/-- A text whose lines are blank is blank. -/
theorem Text.isBlank_of_sourceLines {cs : List Char}
    (h : ∀ line ∈ sourceLines cs, ∀ c ∈ line, isBlank c = true) : ∀ c ∈ cs, isBlank c = true := by
  fun_induction sourceLines cs with
  | case1 => exact List.forall_mem_nil _
  | case2 cs ih =>
    have hrest := ih (List.forall_mem_cons.mp h).2
    exact List.forall_mem_cons.mpr ⟨by decide, List.forall_mem_cons.mpr ⟨by decide, hrest⟩⟩
  | case3 c cs _ hc ih =>
    refine List.forall_mem_cons.mpr ⟨?_, ih (List.forall_mem_cons.mp h).2⟩
    rcases hc with rfl | rfl <;> decide
  | case4 c cs _ hc ih =>
    obtain ⟨line, lines, hlines⟩ := List.exists_cons_of_ne_nil (sourceLines_ne_nil cs)
    rw [hlines] at h ih
    obtain ⟨hline, hrest⟩ := List.forall_mem_cons.mp h
    obtain ⟨hc, hline⟩ := List.forall_mem_cons.mp hline
    exact List.forall_mem_cons.mpr ⟨hc, ih (List.forall_mem_cons.mpr ⟨hline, hrest⟩)⟩

namespace Token

theorem line_scanPieces (n : Int) (ps : List (List Char)) :
    (∀ t ∈ (scanPieces n ps).1, t.line = n) ∧ ∀ f ∈ (scanPieces n ps).2, f.line = n := by
  induction ps with
  | nil => simp [scanPieces]
  | cons piece ps ih =>
    unfold scanPieces
    split
    · exact ⟨List.forall_mem_cons.mpr ⟨rfl, ih.1⟩, ih.2⟩
    · simp

theorem scanPieces_ne_nil (n : Int) (ps : List (List Char)) : (scanPieces n ps).1 ≠ [] := by
  cases ps with
  | nil => simp [scanPieces]
  | cons piece ps =>
    unfold scanPieces
    split <;> simp

/-- A line is blank and gives nothing, or else what it gives has its number. -/
theorem scanLine_cases (n : Int) (line : List Char) :
    (∀ c ∈ line, Text.isBlank c = true) ∧ scanLine n line = ([], none) ∨
      (∃ c ∈ line, Text.isBlank c = false) ∧ (scanLine n line).1 ≠ [] ∧
        (∀ t ∈ (scanLine n line).1, t.line = n) ∧ ∀ f ∈ (scanLine n line).2, f.line = n := by
  have hblank : pieces line = [] ↔ ∀ c ∈ line, Text.isBlank c = true := pieces_eq_nil_iff
  unfold scanLine
  split
  · next hpieces => exact .inl ⟨hblank.mp hpieces, rfl⟩
  · next piece ps hpieces =>
    refine .inr ⟨?_, scanPieces_ne_nil n _, line_scanPieces n _⟩
    rw [hpieces] at hblank
    simpa using hblank

/-- Tokens and faults have the numbers of lines that are not blank. -/
theorem hasNumber_scanLines (n : Int) (lines : List (List Char)) :
    (∀ t ∈ (scanLines n lines).1, Text.HasNumber lines n t.line) ∧
      ∀ f ∈ (scanLines n lines).2, Text.HasNumber lines n f.line := by
  induction lines generalizing n with
  | nil => simp [scanLines]
  | cons line lines ih =>
    obtain ⟨htokens, hfaults⟩ := ih (n + 1)
    have htail : (∀ t ∈ (scanLines (n + 1) lines).1, Text.HasNumber (line :: lines) n t.line) ∧
        ∀ f ∈ (scanLines (n + 1) lines).2, Text.HasNumber (line :: lines) n f.line :=
      ⟨fun t ht => (htokens t ht).tail, fun f hf => (hfaults f hf).tail⟩
    rw [scanLines_cons]
    rcases scanLine_cases n line with ⟨-, hscan⟩ | ⟨hline, -, hlines, hlines'⟩
    · rw [hscan]
      exact htail
    · refine ⟨List.forall_mem_append.mpr ⟨fun t ht => ?_, htail.1⟩,
        List.forall_mem_append.mpr ⟨fun f hf => ?_, htail.2⟩⟩
      · rw [hlines t ht]
        exact .head hline
      · rw [hlines' f (Option.mem_toList.mp hf)]
        exact .head hline

theorem isBlank_of_scanLines {n : Int} {lines : List (List Char)}
    (h : (scanLines n lines).1 = []) : ∀ line ∈ lines, ∀ c ∈ line, Text.isBlank c = true := by
  induction lines generalizing n with
  | nil => exact List.forall_mem_nil _
  | cons line lines ih =>
    rw [scanLines_cons] at h
    obtain ⟨hline, hlines⟩ := List.append_eq_nil_iff.mp h
    refine List.forall_mem_cons.mpr ⟨?_, ih hlines⟩
    rcases scanLine_cases n line with ⟨hblank, -⟩ | ⟨-, hne, -⟩
    · exact hblank
    · exact absurd hline hne

end Token

/-! ## The lines of faults -/

/-- Instructions are on the lines of their tokens. -/
theorem Reader.Reads.exists_line {r : Reader} {is : List Instr} (h : r.Reads is) :
    ∀ i ∈ is, ∃ t ∈ r.pending, i.line = t.line := by
  induction h with
  | done n => exact List.forall_mem_nil _
  | @step r r' i is hi _ ih =>
    refine List.forall_mem_cons.mpr ⟨?_, fun j hj => ?_⟩
    · obtain ⟨ls, r₁, -, hlabel, -, hline⟩ := hi
      obtain ⟨t, ht, hline⟩ := Option.map_eq_some_iff.mp hline
      exact ⟨t, hlabel.pending_subset (List.mem_of_mem_head? ht), hline.symm⟩
    · obtain ⟨t, ht, hline⟩ := ih j hj
      obtain ⟨ls, -, htakes⟩ := hi.derives
      exact ⟨t, htakes.pending_subset ht, hline⟩

theorem Parsing.faults_of_rejected {p : Parsing} {r : Rejection}
    (h : p.result.mapError SourceError.rejected = .error (.rejected r)) : r.faults = p.faults := by
  unfold result at h
  split at h
  · cases h
  · cases h
    rfl

theorem Reader.Reads.pending_eq_nil {r : Reader} (h : r.Reads []) : r.pending = [] := by
  cases h
  rfl

/-- Faults of syntax are on the lines of tokens. -/
theorem Instr.exists_line_of_rejected {tokens : List Token} {r : Rejection}
    (h : ofTokens tokens = .error (.rejected r)) :
    ∀ f ∈ r.faults, ∃ t ∈ tokens, f.line = t.line := by
  intro f hf
  have hsplits := Reader.splits_segments tokens
  rw [ofTokens_eq] at h
  rcases Parsing.readOn_splits (p := .ofTokens tokens) hsplits rfl (Nat.le_refl _) with
    ⟨-, p, hread, -, -, -, hfaults⟩ | ⟨e, p, -, hread, -⟩
  · rw [hread] at h
    rw [Parsing.faults_of_rejected h, hfaults] at hf
    obtain ⟨seg, hseg, hf⟩ := List.mem_flatMap.mp hf
    rcases segment_gives hsplits seg hseg with ⟨i, hi⟩ | ⟨g, hg, t, ht, hline⟩ | ⟨e, he⟩
    · rw [hi] at hf
      cases hf
    · rw [hg] at hf
      obtain rfl := List.mem_singleton.mp hf
      refine ⟨t, ?_, hline⟩
      rw [← List.flatten_splitBy (fun t _ => t.lexeme != .eol) tokens]
      exact List.mem_flatten_of_mem hseg ht
    · rw [he] at hf
      cases hf
  · rw [hread] at h
    cases h

/-- Faults of labels are on the lines of instructions. -/
theorem Program.exists_line_of_labelFaults {instrs : List Instr} :
    ∀ f ∈ labelFaults instrs, ∃ i ∈ instrs, f.line = i.line := by
  intro f hf
  rcases List.mem_append.mp hf with hf | hf
  · obtain ⟨⟨i, k⟩, he, hf⟩ := List.mem_filterMap.mp hf
    refine ⟨i, List.fst_mem_of_mem_zipIdx he, ?_⟩
    simp only [repeatedAt, Option.bind_eq_bind, Option.bind_eq_some_iff] at hf
    obtain ⟨label, -, -, -, hf⟩ := hf
    cases hf
    rfl
  · obtain ⟨i, hi, hf⟩ := List.mem_filterMap.mp hf
    refine ⟨i, hi, ?_⟩
    simp only [undefinedAt, Option.bind_eq_bind, Option.bind_eq_some_iff] at hf
    obtain ⟨label, -, -, -, hf⟩ := hf
    cases hf
    rfl

namespace Instr

variable {text : String}

/-- What is wrong with the lines of a text has the number of one of them. -/
theorem hasNumber_of_rejected {r : Rejection} (h : ofText text = .error (.rejected r)) :
    ∀ f ∈ r.faults, Text.HasNumber (Text.sourceLines text.toList) 1 f.line := by
  intro f hf
  obtain ⟨htokens, hfaults⟩ := Token.hasNumber_scanLines 1 (Text.sourceLines text.toList)
  by_cases hlegal : (Token.scanLines 1 (Text.sourceLines text.toList)).2 = []
  · rw [ofText_of_legal hlegal] at h
    obtain ⟨t, ht, hline⟩ := exists_line_of_rejected h f hf
    rw [hline]
    exact htokens t ht
  · rw [ofText_of_illegal hlegal] at h
    cases h
    exact hfaults f hf

/-- The instructions of a text have the numbers of its lines, and there are some if the text is not
blank. -/
theorem hasNumber_of_ok {is : List Instr} (h : ofText text = .ok is) :
    (∀ i ∈ is, Text.HasNumber (Text.sourceLines text.toList) 1 i.line) ∧
      (is = [] → ∀ c ∈ text.toList, Text.isBlank c = true) := by
  have hlegal : (Token.scanLines 1 (Text.sourceLines text.toList)).2 = [] := by
    by_contra hillegal
    rw [ofText_of_illegal hillegal] at h
    cases h
  have hwhole := Reader.whole_of_scanned
    (r := .ofTokens (Token.scanLines 1 (Text.sourceLines text.toList)).1)
    (Token.scanned_scanLines 1 (Text.sourceLines text.toList))
  rw [ofText_of_legal hlegal, ofTokens_eq_ok_iff hwhole] at h
  refine ⟨fun i hi => ?_, ?_⟩
  · obtain ⟨t, ht, hline⟩ := h.exists_line i hi
    rw [hline]
    exact (Token.hasNumber_scanLines 1 _).1 t ht
  · rintro rfl
    exact Text.isBlank_of_sourceLines (Token.isBlank_of_scanLines h.pending_eq_nil)

end Instr

/-- The faults that a text is rejected for have the numbers of lines that are not blank, unless the
whole text is blank. -/
theorem Program.hasNumber_of_rejected {text : String} {supply : Supply} {r : Rejection}
    (h : ofText text supply = .error (.rejected r))
    (htext : ∃ c ∈ text.toList, Text.isBlank c = false) :
    ∀ f ∈ r.faults, Text.HasNumber (Text.sourceLines text.toList) 1 f.line := by
  rw [ofText] at h
  cases hinstrs : Instr.ofText text with
  | error e =>
    rw [hinstrs] at h
    cases h
    exact Instr.hasNumber_of_rejected hinstrs
  | ok instrs =>
    obtain ⟨hlines, hblank⟩ := Instr.hasNumber_of_ok hinstrs
    have hne : instrs ≠ [] := by
      intro hnil
      obtain ⟨c, hc, hblank'⟩ := htext
      rw [hblank hnil c hc] at hblank'
      cases hblank'
    rw [hinstrs] at h
    change (ofInstrs instrs supply).mapError SourceError.rejected = _ at h
    obtain ⟨hok, hfaults⟩ := ofInstrs_eq hne supply
    by_cases hlabels : labelFaults instrs = []
    · obtain ⟨p, hp⟩ := hok hlabels
      rw [hp] at h
      cases h
    · rw [hfaults hlabels] at h
      cases h
      intro f hf
      obtain ⟨i, hi, hline⟩ := exists_line_of_labelFaults f hf
      rw [hline]
      exact hlines i hi

/-! ## Excerpts -/

namespace Report

open Text

/-- The lines of a source, as they are shown. -/
def shownLines (text : String) : List String := (displayLines text.toList).map String.ofList

/-- A fault with the given excerpt. -/
def diagnosticWith (f : Fault) (name : String) (paint : Coloring) (excerpt : String) : String :=
  "\n".intercalate <|
    [paint Color.red.bold ("error[" ++ f.code.text ++ "]") ++ ": " ++
       paint Color.white.bold f.reason,
     "  " ++ paint Color.blue.bold "-->" ++ " " ++ name ++ ":" ++ toString f.line] ++
    excerptBlock paint f.line excerpt

variable {text : String} {f : Fault}

theorem sortByLine_singleton (f : Fault) : sortByLine [f] = [f] := List.mergeSort_singleton f

theorem diagnostics_some (faults : List Fault) (name text : String) (color : Bool)
    (colored : Coloring) :
    diagnostics faults name (some text) color colored =
      "\n\n".intercalate
        ((sortByLine faults).map (diagnostic · name (shownLines text) color colored) ++
          [painter colored color Color.red.bold ("  ╰─ found " ++ problems faults.length)]) := rfl

theorem diagnostic_of_excerpt? {lines : List String} {excerpt : String}
    (h : excerpt? lines f.line = some excerpt) (name : String) (color : Bool)
    (colored : Coloring) :
    diagnostic f name lines color colored =
      diagnosticWith f name (painter colored color) excerpt := by
  rw [diagnostic, h]
  rfl

/-- What is shown of a line with a number. -/
theorem exists_excerpt {k : Int} (h : HasNumber (sourceLines text.toList) 1 k) :
    ∃ above line below piece, sourceLines text.toList = above ++ line :: below ∧
      k = above.length + 1 ∧
      (shownPieces text.toList)[above.length]? = some piece ∧
      excerpt? (shownLines text) k = some (trim (String.ofList piece)) := by
  obtain ⟨above, line, below, hlines, rfl, c, hc, -⟩ := h
  obtain ⟨piece, hpiece, hshown⟩ := exists_displayLine hlines (List.ne_nil_of_mem hc)
  refine ⟨above, line, below, piece, hlines, Int.add_comm _ _, hpiece, ?_⟩
  have hnumber : (1 + (above.length : Int)).toNat - 1 = above.length := by omega
  rw [excerpt?, if_pos (by omega), hnumber, shownLines, List.getElem?_map, hshown]
  rfl

theorem trim_ofList_eq_iff {cs ds : List Char} :
    trim (String.ofList cs) = trim (String.ofList ds) ↔ trimBy isBlank cs = trimBy isBlank ds := by
  simp [trim, String.ofList_inj]

/-- Below lines that are not cut, a line is shown whole if only blanks follow the first character in
it that ends a line of a display. -/
theorem trim_piece_eq_iff {above below : List (List Char)} {line piece : List Char}
    (hlines : sourceLines text.toList = above ++ line :: below)
    (hpiece : (shownPieces text.toList)[above.length]? = some piece)
    (habove : ∀ l ∈ above, ∀ c ∈ l, endsDisplayLine c = false) :
    trim (String.ofList piece) = trim (String.ofList line) ↔
      ∀ c ∈ line.dropWhile (!endsDisplayLine ·), isBlank c = true := by
  have hlength := congrArg List.length (flatMap_splitOnP_of_plain habove)
  rw [getElem?_shownPieces hlines hlength] at hpiece
  obtain rfl := Option.some.inj hpiece
  rw [trim_ofList_eq_iff, ← trimBy_append_eq_iff, List.takeWhile_append_dropWhile]

/-- **What is shown of the lines of faults.**  If a text is rejected and is not blank, each of its
faults is shown with an excerpt, and it has the number of a line of the source.  The excerpt is the
piece that a display has at that number, without the blanks around it.  If no line above has a
character that ends a line of a display, this is the line itself if and only if only blanks follow
the first such character in it. -/
theorem excerpts_of_rejected {supply : Supply} {r : Rejection}
    (h : Program.ofText text supply = .error (.rejected r))
    (htext : ∃ c ∈ text.toList, isBlank c = false) (name : String) (color : Bool)
    (colored : Coloring) :
    let paint := painter colored color
    ∃ excerpt : Fault → String,
      diagnostics r.faults name (some text) color colored =
        "\n\n".intercalate
          ((sortByLine r.faults).map (fun f => diagnosticWith f name paint (excerpt f)) ++
            [paint Color.red.bold ("  ╰─ found " ++ problems r.faults.length)]) ∧
      ∀ f ∈ r.faults, ∃ above line below piece,
        sourceLines text.toList = above ++ line :: below ∧ f.line = above.length + 1 ∧
        (shownPieces text.toList)[above.length]? = some piece ∧
        excerpt f = trim (String.ofList piece) ∧
        ((∀ l ∈ above, ∀ c ∈ l, endsDisplayLine c = false) →
          (excerpt f = trim (String.ofList line) ↔
            ∀ c ∈ line.dropWhile (!endsDisplayLine ·), isBlank c = true)) := by
  intro paint
  have hexcerpt := fun f hf => exists_excerpt (Program.hasNumber_of_rejected h htext f hf)
  refine ⟨fun f => (excerpt? (shownLines text) f.line).getD "", ?_, fun f hf => ?_⟩
  · have hshown : ∀ f ∈ sortByLine r.faults, diagnostic f name (shownLines text) color colored =
        diagnosticWith f name paint ((excerpt? (shownLines text) f.line).getD "") := by
      intro f hf
      obtain ⟨-, -, -, piece, -, -, -, hshown⟩ := hexcerpt f (List.mem_mergeSort.mp hf)
      rw [diagnostic_of_excerpt? hshown, hshown, Option.getD_some]
    rw [diagnostics_some, List.map_congr_left hshown]
  · obtain ⟨above, line, below, piece, hlines, hline, hpiece, hshown⟩ := hexcerpt f hf
    simp only [hshown, Option.getD_some]
    exact ⟨above, line, below, piece, hlines, hline, hpiece, rfl, trim_piece_eq_iff hlines hpiece⟩

/-- An illegal token below a line without fault, with a form feed behind it. -/
def spacedText : String := "x = 1\ny = ? \x0c\n"

/-- An illegal token below a line that ends in a form feed. -/
def brokenText : String := "a = 1\x0c\nb = ?\n"

/-- The illegal token is on the second line of either text. -/
theorem ofText_illegal_second : ∀ text ∈ [spacedText, brokenText],
    Program.ofText text (.countFrom 0) = .error (.rejected ⟨[⟨.illegalToken "?", 2⟩]⟩) := by
  have hinstrs : ∀ text ∈ [spacedText, brokenText],
      Instr.ofText text = .error (.rejected ⟨[⟨.illegalToken "?", 2⟩]⟩) := by decide +kernel
  intro text htext
  rw [Program.ofText, hinstrs text htext]
  rfl

/-- The second line is shown whole, since only blanks follow the form feed. -/
theorem excerpt_in_spacedText :
    Program.ofText spacedText (.countFrom 0) =
        .error (.rejected ⟨[⟨.illegalToken "?", 2⟩]⟩) ∧
      (∃ c ∈ spacedText.toList, isBlank c = false) ∧
      diagnostics [⟨.illegalToken "?", 2⟩] "prog.tac" (some spacedText) false =
        "\n\n".intercalate
          [diagnosticWith ⟨.illegalToken "?", 2⟩ "prog.tac" (painter terminalColoring false)
              "y = ?",
            "  ╰─ found 1 problem"] := by
  have hread := ofText_illegal_second spacedText (by simp)
  have htext : ∃ c ∈ spacedText.toList, isBlank c = false := ⟨'x', by decide, by decide⟩
  refine ⟨hread, htext, ?_⟩
  obtain ⟨excerpt, hshown, hall⟩ :=
    excerpts_of_rejected hread htext "prog.tac" false terminalColoring
  obtain ⟨above, line, below, piece, hlines, hline, -, -, hwhole⟩ :=
    hall _ (List.mem_singleton_self _)
  have hsource : sourceLines spacedText.toList =
      ["x = 1".toList] ++ "y = ? \x0c".toList :: [[]] := by decide +kernel
  have hlength : 1 = above.length := by
    have hline : (2 : Int) = above.length + 1 := hline
    omega
  obtain ⟨rfl, hbelow⟩ := List.append_inj (hsource.symm.trans hlines) hlength
  obtain ⟨rfl, -⟩ := List.cons.inj hbelow
  have habove : "x = 1".toList.all (endsDisplayLine · == false) = true := by decide
  have hblank : ("y = ? \x0c".toList.dropWhile (!endsDisplayLine ·)).all isBlank = true := by decide
  have hexcerpt := (hwhole (List.forall_mem_singleton.mpr fun c hc =>
    beq_iff_eq.mp (List.all_eq_true.mp habove c hc))).mpr (List.all_eq_true.mp hblank)
  have htrim : trim (String.ofList "y = ? \x0c".toList) = "y = ?" := by decide +kernel
  rw [hshown, sortByLine_singleton, List.map_singleton, hexcerpt, htrim]
  rfl

/-- Below a form feed an empty line is shown in place of the second line. -/
theorem empty_excerpt_in_brokenText :
    Program.ofText brokenText (.countFrom 0) =
        .error (.rejected ⟨[⟨.illegalToken "?", 2⟩]⟩) ∧
      (sourceLines brokenText.toList)[1]? = some "b = ?".toList ∧
      diagnostics [⟨.illegalToken "?", 2⟩] "prog.tac" (some brokenText) false =
        "\n\n".intercalate
          [diagnosticWith ⟨.illegalToken "?", 2⟩ "prog.tac" (painter terminalColoring false) "",
            "  ╰─ found 1 problem"] := by
  refine ⟨ofText_illegal_second brokenText (by simp), by decide +kernel, ?_⟩
  rw [diagnostics_some, sortByLine_singleton]
  decide +kernel

end Report

end FlowTrace
