import FlowTrace.Proofs.Text.Cutting
import Mathlib.Data.List.TakeWhile

/-!
# The lines of a source on display

A display cuts each line of a source further, at the vertical controls and separators that are not
the end of a line of a source, and it leaves out a last line that is empty.  Where no line above has
such a character, a line of the source is shown at its number up to the first such character in it.
-/

namespace FlowTrace.Text

variable {c : Char} {cs line : List Char} {above below : List (List Char)}

/-! ## Cutting lines further -/

/-- The lines of a source, cut further where a line of a display ends. -/
def shownPieces (cs : List Char) : List (List Char) :=
  (sourceLines cs).flatMap (·.splitOnP endsDisplayLine)

/-- The lines without a last one that is empty. -/
def dropEmptyLast (lines : List (List Char)) : List (List Char) :=
  if lines.getLast? = some [] then lines.dropLast else lines

theorem sourceLines_ne_nil (cs : List Char) : sourceLines cs ≠ [] := by
  fun_cases sourceLines cs with
  | case4 c cs => cases sourceLines cs <;> simp [consLine]
  | _ => simp

theorem shownPieces_ne_nil (cs : List Char) : shownPieces cs ≠ [] := by
  obtain ⟨line, lines, hlines⟩ := List.exists_cons_of_ne_nil (sourceLines_ne_nil cs)
  simp [shownPieces, hlines, List.splitOnP_ne_nil]

theorem shownPieces_cons (hc : c ≠ '\n' ∧ c ≠ '\r') (cs : List Char) :
    shownPieces (c :: cs) =
      if endsDisplayLine c then [] :: shownPieces cs else consLine c (shownPieces cs) := by
  obtain ⟨line, lines, hlines⟩ := List.exists_cons_of_ne_nil (sourceLines_ne_nil cs)
  obtain ⟨piece, pieces, hpieces⟩ :=
    List.exists_cons_of_ne_nil (List.splitOnP_ne_nil endsDisplayLine line)
  have hsource : sourceLines (c :: cs) = (c :: line) :: lines := by
    rw [sourceLines_cons hc, hlines, consLine]
  rw [shownPieces, shownPieces, hsource, hlines, List.flatMap_cons, List.flatMap_cons,
    List.splitOnP_cons_eq_if_modifyHead, hpieces]
  split <;> rfl

theorem dropEmptyLast_nil_cons {lines : List (List Char)} (h : lines ≠ []) :
    dropEmptyLast ([] :: lines) = [] :: dropEmptyLast lines := by
  obtain ⟨line, lines, rfl⟩ := List.exists_cons_of_ne_nil h
  simp only [dropEmptyLast, List.getLast?_cons_cons, List.dropLast_cons_cons]
  split <;> rfl

theorem dropEmptyLast_consLine {lines : List (List Char)} (h : lines ≠ []) (c : Char) :
    dropEmptyLast (consLine c lines) = consLine c (dropEmptyLast lines) := by
  obtain ⟨line, lines, rfl⟩ := List.exists_cons_of_ne_nil h
  cases lines with
  | nil => cases line <;> simp [dropEmptyLast, consLine]
  | cons next lines =>
    simp only [dropEmptyLast, consLine, List.getLast?_cons_cons, List.dropLast_cons_cons]
    split <;> rfl

/-- A display shows the pieces of the lines of a source. -/
theorem displayLines_eq (cs : List Char) : displayLines cs = dropEmptyLast (shownPieces cs) := by
  fun_induction displayLines cs with
  | case1 => rfl
  | case2 cs ih =>
    have hpieces : shownPieces ('\r' :: '\n' :: cs) = [] :: shownPieces cs := by
      simp [shownPieces, sourceLines]
    rw [hpieces, dropEmptyLast_nil_cons (shownPieces_ne_nil cs), ih]
  | case3 c cs hcrlf hc ih =>
    have hpieces : shownPieces (c :: cs) = [] :: shownPieces cs := by
      by_cases hbreak : c = '\n' ∨ c = '\r'
      · rw [shownPieces, sourceLines.eq_3 c cs hcrlf, if_pos hbreak]
        simp [shownPieces]
      · rw [shownPieces_cons (not_or.mp hbreak), if_pos hc]
    rw [hpieces, dropEmptyLast_nil_cons (shownPieces_ne_nil cs), ih]
  | case4 c cs hcrlf hc ih =>
    have hbreak : c ≠ '\n' ∧ c ≠ '\r' := by
      constructor
      · rintro rfl
        exact hc (by decide)
      · rintro rfl
        exact hc (by decide)
    rw [shownPieces_cons hbreak, if_neg hc, dropEmptyLast_consLine (shownPieces_ne_nil cs), ih]

/-! ## What is shown at the number of a line -/

theorem getElem?_dropEmptyLast {lines : List (List Char)} {i : Nat} {piece : List Char}
    (h : lines[i]? = some piece) (hlast : i + 1 = lines.length → piece ≠ []) :
    (dropEmptyLast lines)[i]? = some piece := by
  unfold dropEmptyLast
  split
  · next hempty =>
    have hi : i < lines.length := (List.getElem?_eq_some_iff.mp h).1
    have hi' : i + 1 ≠ lines.length := by
      intro hlength
      refine hlast hlength ?_
      rw [List.getLast?_eq_getElem?, ← hlength, Nat.add_sub_cancel, h] at hempty
      exact Option.some.inj hempty
    rw [List.getElem?_dropLast, if_pos (by omega), h]
  · exact h

theorem length_le_flatMap_splitOnP (lines : List (List Char)) :
    lines.length ≤ (lines.flatMap (·.splitOnP endsDisplayLine)).length := by
  induction lines with
  | nil => exact Nat.le_refl _
  | cons line lines ih =>
    have hpos := List.length_pos_iff.mpr (List.splitOnP_ne_nil endsDisplayLine line)
    rw [List.flatMap_cons, List.length_append, List.length_cons]
    omega

theorem head?_splitOnP (p : Char → Bool) (line : List Char) :
    (line.splitOnP p).head? = some (line.takeWhile (!p ·)) := by
  induction line with
  | nil => simp
  | cons c line ih =>
    rw [List.splitOnP_cons_eq_if_modifyHead]
    by_cases hc : p c = true
    · simp [hc]
    · simp [hc, ih]

/-- The pieces of the lines up to a certain line. -/
theorem shownPieces_eq (h : sourceLines cs = above ++ line :: below) :
    shownPieces cs = above.flatMap (·.splitOnP endsDisplayLine) ++
      (line.splitOnP endsDisplayLine ++ below.flatMap (·.splitOnP endsDisplayLine)) := by
  rw [shownPieces, h, List.flatMap_append, List.flatMap_cons]

/-- If no line above is cut, the piece at the number of a line is how the line starts. -/
theorem getElem?_shownPieces (h : sourceLines cs = above ++ line :: below)
    (habove : (above.flatMap (·.splitOnP endsDisplayLine)).length = above.length) :
    (shownPieces cs)[above.length]? = some (line.takeWhile (!endsDisplayLine ·)) := by
  rw [shownPieces_eq h, ← habove, List.getElem?_append_right (Nat.le_refl _), Nat.sub_self,
    ← List.head?_eq_getElem?, List.head?_append, head?_splitOnP]
  rfl

theorem flatMap_splitOnP_of_plain {lines : List (List Char)}
    (h : ∀ line ∈ lines, ∀ c ∈ line, endsDisplayLine c = false) :
    lines.flatMap (·.splitOnP endsDisplayLine) = lines := by
  induction lines with
  | nil => rfl
  | cons line lines ih =>
    obtain ⟨hline, hlines⟩ := List.forall_mem_cons.mp h
    rw [List.flatMap_cons, List.splitOnP_eq_singleton hline, ih hlines, List.singleton_append]

/-- At the number of a line that is not empty, a display shows a piece of a line. -/
theorem exists_displayLine (h : sourceLines cs = above ++ line :: below) (hne : line ≠ []) :
    ∃ piece, (shownPieces cs)[above.length]? = some piece ∧
      (displayLines cs)[above.length]? = some piece := by
  obtain ⟨c, line, rfl⟩ := List.exists_cons_of_ne_nil hne
  have habove := length_le_flatMap_splitOnP above
  have hline := List.length_pos_iff.mpr (List.splitOnP_ne_nil endsDisplayLine (c :: line))
  have hlength := congrArg List.length (shownPieces_eq h)
  rw [List.length_append, List.length_append] at hlength
  obtain ⟨piece, hpiece⟩ : ∃ piece, (shownPieces cs)[above.length]? = some piece :=
    ⟨_, List.getElem?_eq_getElem (by omega)⟩
  refine ⟨piece, hpiece, ?_⟩
  rw [displayLines_eq]
  refine getElem?_dropEmptyLast hpiece fun hlast => ?_
  -- No line is cut, neither above nor here, so the piece starts as the line does.
  rw [getElem?_shownPieces h (by omega)] at hpiece
  obtain rfl := Option.some.inj hpiece
  by_cases hc : endsDisplayLine c = true
  · have hrest := List.length_pos_iff.mpr (List.splitOnP_ne_nil endsDisplayLine line)
    rw [List.splitOnP_cons_eq_if_modifyHead, if_pos hc, List.length_cons] at hlength
    omega
  · simp [hc]

/-! ## Trimming -/

variable {p : Char → Bool}

theorem filter_dropWhile (p : Char → Bool) (cs : List Char) :
    (cs.dropWhile p).filter (!p ·) = cs.filter (!p ·) := by
  induction cs with
  | nil => rfl
  | cons c cs ih =>
    by_cases hc : p c = true
    · simp [hc, ih]
    · simp [hc]

theorem filter_trimBy (p : Char → Bool) (cs : List Char) :
    (trimBy p cs).filter (!p ·) = cs.filter (!p ·) := by
  rw [trimBy, List.filter_reverse, filter_dropWhile, List.filter_reverse, List.reverse_reverse,
    filter_dropWhile]

/-- Trimming drops characters of the class from the front and from the back. -/
theorem exists_trimBy (p : Char → Bool) (cs : List Char) :
    ∃ front back, (∀ c ∈ front, p c = true) ∧ (∀ c ∈ back, p c = true) ∧
      cs = front ++ trimBy p cs ++ back := by
  refine ⟨cs.takeWhile p, ((cs.dropWhile p).reverse.takeWhile p).reverse, ?_, ?_, ?_⟩
  · exact fun c hc => List.mem_takeWhile_imp hc
  · exact fun c hc => List.mem_takeWhile_imp (List.mem_reverse.mp hc)
  · rw [trimBy, List.append_assoc, ← List.reverse_append, List.takeWhile_append_dropWhile,
      List.reverse_reverse, List.takeWhile_append_dropWhile]

theorem trimBy_append_of_forall (h : ∀ c ∈ line, p c = true) (cs : List Char) :
    trimBy p (cs ++ line) = trimBy p cs := by
  have hline : line.dropWhile p = [] := List.dropWhile_eq_nil_iff.mpr h
  rw [trimBy, trimBy, List.dropWhile_append]
  split
  · next hempty =>
    rw [hline, List.isEmpty_iff.mp hempty]
  · rw [List.reverse_append, List.dropWhile_append_of_pos fun c hc => h c (List.mem_reverse.mp hc)]

/-- A line starts with all that is left of it by trimming if and only if only blanks follow. -/
theorem trimBy_append_eq_iff : trimBy p cs = trimBy p (cs ++ line) ↔ ∀ c ∈ line, p c = true := by
  constructor
  · intro h c hc
    have hfilter := congrArg (List.filter (!p ·)) h
    rw [filter_trimBy, filter_trimBy, List.filter_append] at hfilter
    have hnil := List.self_eq_append_right.mp hfilter
    simpa using List.filter_eq_nil_iff.mp hnil c hc
  · intro h
    rw [trimBy_append_of_forall h]

end FlowTrace.Text
