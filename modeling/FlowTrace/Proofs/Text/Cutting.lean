import FlowTrace.Text.Cutting

/-!
# Cutting a text into words and lines

Words that are put together with blanks between them are the words of the text, and lines that are
put together with line feeds between them are its lines. A text that is cut at a character and put
together again has the new separator around each occurrence of the character.
-/

namespace FlowTrace.Text

variable {c : Char} {w cs line : List Char}

/-! ## Words -/

theorem isBlank_of_graphic (hlo : 0x21 ≤ c.toNat) (hhi : c.toNat ≤ 0x7E) : isBlank c = false := by
  rw [← Bool.not_eq_true, isBlank, inRanges_iff]
  rintro ⟨r, hr, hle⟩
  simp only [blankRanges, List.mem_cons, List.not_mem_nil, or_false] at hr
  rcases hr with rfl | rfl | rfl | rfl | rfl | rfl | rfl | rfl | rfl | rfl <;> omega

/-- A word is not empty and has no blank in it. -/
structure IsWord (w : List Char) : Prop where
  ne_nil : w ≠ []
  not_blank : ∀ c ∈ w, isBlank c = false

theorem wordsFrom_append (hw : ∀ c ∈ w, isBlank c = false) (cs : List Char) :
    wordsFrom (w ++ cs) = (w ++ (wordsFrom cs).1, (wordsFrom cs).2) := by
  induction w with
  | nil => rfl
  | cons c w ih =>
    have hc := hw c List.mem_cons_self
    have hrest := ih fun d hd => hw d (List.mem_cons_of_mem _ hd)
    simp [wordsFrom, hrest, hc]

theorem wordsFrom_blank (hc : isBlank c = true) (cs : List Char) :
    wordsFrom (c :: cs) = ([], words cs) := by
  simp [wordsFrom, hc, words]

/-- A blank in front does not count. -/
theorem words_blank (hc : isBlank c = true) (cs : List Char) : words (c :: cs) = words cs := by
  rw [words, wordsFrom_blank hc]
  rfl

theorem closeWord_append (w : List Char) (ws vs : List (List Char)) :
    closeWord w (ws ++ vs) = closeWord w ws ++ vs := by
  unfold closeWord
  split <;> rfl

theorem wordsFrom_append_blank (hc : isBlank c = true) (w cs : List Char) :
    wordsFrom (w ++ c :: cs) = ((wordsFrom w).1, (wordsFrom w).2 ++ words cs) := by
  induction w with
  | nil => exact wordsFrom_blank hc cs
  | cons d w ih =>
    rw [List.cons_append, wordsFrom, wordsFrom, ih]
    by_cases hd : isBlank d = true
    · simp [hd, closeWord_append]
    · simp [hd]

/-- No word goes across a blank. -/
theorem words_append_blank (hc : isBlank c = true) (w cs : List Char) :
    words (w ++ c :: cs) = words w ++ words cs := by
  calc words (w ++ c :: cs) = closeWord (wordsFrom w).1 ((wordsFrom w).2 ++ words cs) := by
        rw [words, wordsFrom_append_blank hc]
    _ = words w ++ words cs := closeWord_append _ _ _

namespace IsWord

theorem words_eq (hw : IsWord w) : words w = [w] := by
  have hne : w.isEmpty = false := by simpa using hw.ne_nil
  have hfrom : wordsFrom w = (w, []) := by
    simpa [wordsFrom] using wordsFrom_append hw.not_blank []
  rw [words, hfrom]
  simp [closeWord, hne]

/-- A word ends at the first blank. -/
theorem words_append (hw : IsWord w) (hc : isBlank c = true) (cs : List Char) :
    words (w ++ c :: cs) = w :: words cs := by
  rw [words_append_blank hc, hw.words_eq, List.singleton_append]

end IsWord

/-- Only blanks make no word. -/
theorem words_eq_nil_iff : words cs = [] ↔ ∀ c ∈ cs, isBlank c = true := by
  induction cs with
  | nil => simp [words, wordsFrom, closeWord]
  | cons c cs ih =>
    by_cases hc : isBlank c = true
    · rw [words_blank hc, ih, List.forall_mem_cons]
      simp [hc]
    · simp [words, wordsFrom, closeWord, hc]

/-! ## Parts -/

theorem consLine_ne_nil (c : Char) (lines : List (List Char)) : consLine c lines ≠ [] := by
  cases lines <;> exact List.cons_ne_nil _ _

theorem splitKeeping_ne_nil (d : Char) (cs : List Char) : splitKeeping d cs ≠ [] := by
  cases cs with
  | nil => exact List.cons_ne_nil _ _
  | cons c cs =>
    rw [splitKeeping]
    split
    · exact List.cons_ne_nil _ _
    · exact consLine_ne_nil c _

theorem intercalate_consLine (sep : List Char) (c : Char) {lines : List (List Char)}
    (h : lines ≠ []) : sep.intercalate (consLine c lines) = c :: sep.intercalate lines := by
  match lines, h with
  | [line], _ => rfl
  | line :: next :: lines, _ =>
    rw [consLine, List.intercalate_cons_cons, List.intercalate_cons_cons]
    rfl

/-- The parts of a text, put together again: the separator stands around each character the text
was cut at. -/
theorem intercalate_splitKeeping (sep : List Char) (d : Char) (cs : List Char) :
    sep.intercalate (splitKeeping d cs) =
      cs.flatMap fun c => if c = d then sep ++ d :: sep else [c] := by
  induction cs with
  | nil => rfl
  | cons c cs ih =>
    rw [splitKeeping, List.flatMap_cons, ← ih]
    split
    · obtain ⟨part, parts, hparts⟩ := List.exists_cons_of_ne_nil (splitKeeping_ne_nil d cs)
      rw [hparts, List.intercalate_cons_cons, List.intercalate_cons_cons]
      simp
    · exact intercalate_consLine sep c (splitKeeping_ne_nil d cs)

/-! ## Lines -/

/-- No line of a source ends inside of the text. -/
def Unbroken (line : List Char) : Prop := ∀ c ∈ line, c ≠ '\n' ∧ c ≠ '\r'

theorem IsWord.unbroken (hw : IsWord w) : Unbroken w := by
  intro c hc
  constructor
  · rintro rfl
    exact absurd (hw.not_blank _ hc) (by decide)
  · rintro rfl
    exact absurd (hw.not_blank _ hc) (by decide)

theorem Unbroken.append (h : Unbroken w) (h' : Unbroken line) : Unbroken (w ++ line) := by
  intro c hc
  rcases List.mem_append.mp hc with hc | hc
  · exact h c hc
  · exact h' c hc

theorem unbroken_intercalate {sep : List Char} {ws : List (List Char)} (hsep : Unbroken sep)
    (h : ∀ w ∈ ws, Unbroken w) : Unbroken (sep.intercalate ws) := by
  induction ws with
  | nil => nofun
  | cons w ws ih =>
    have hw := h w List.mem_cons_self
    have hrest := ih fun v hv => h v (List.mem_cons_of_mem _ hv)
    cases ws with
    | nil => rwa [List.intercalate_singleton]
    | cons v ws =>
      rw [List.intercalate_cons_cons]
      exact (hw.append hsep).append hrest

theorem sourceLines_cons (hc : c ≠ '\n' ∧ c ≠ '\r') (cs : List Char) :
    sourceLines (c :: cs) = consLine c (sourceLines cs) := by
  rw [sourceLines.eq_3 c cs fun _ h _ => hc.2 h, if_neg (not_or.mpr hc)]

theorem sourceLines_append (h : Unbroken line) (cs : List Char) :
    sourceLines (line ++ '\n' :: cs) = line :: sourceLines cs := by
  induction line with
  | nil => simp [sourceLines]
  | cons c line ih =>
    have hrest := ih fun d hd => h d (List.mem_cons_of_mem _ hd)
    rw [List.cons_append, sourceLines_cons (h c List.mem_cons_self), hrest]
    rfl

theorem sourceLines_of_unbroken (h : Unbroken line) : sourceLines line = [line] := by
  induction line with
  | nil => rfl
  | cons c line ih =>
    rw [sourceLines_cons (h c List.mem_cons_self), ih fun d hd => h d (List.mem_cons_of_mem _ hd)]
    rfl

theorem unbroken_of_mem_sourceLines (h : line ∈ sourceLines cs) : Unbroken line := by
  fun_induction sourceLines cs generalizing line with
  | case1 =>
    rw [List.mem_singleton.mp h]
    nofun
  | case2 cs ih =>
    rcases List.mem_cons.mp h with rfl | h
    · nofun
    · exact ih h
  | case3 c cs _ hc ih =>
    rcases List.mem_cons.mp h with rfl | h
    · nofun
    · exact ih h
  | case4 c cs _ hc ih =>
    generalize sourceLines cs = lines at h ih
    cases lines with
    | nil =>
      rw [List.mem_singleton.mp h]
      exact List.forall_mem_singleton.mpr (not_or.mp hc)
    | cons first lines =>
      rcases List.mem_cons.mp h with rfl | h
      · exact List.forall_mem_cons.mpr ⟨not_or.mp hc, ih List.mem_cons_self⟩
      · exact ih (List.mem_cons_of_mem _ h)

/-- Lines that are put together are the lines of the text. -/
theorem sourceLines_intercalate {lines : List (List Char)} (hne : lines ≠ [])
    (h : ∀ line ∈ lines, Unbroken line) : sourceLines (['\n'].intercalate lines) = lines := by
  induction lines with
  | nil => exact absurd rfl hne
  | cons line lines ih =>
    have hline := h line List.mem_cons_self
    cases lines with
    | nil => rw [List.intercalate_singleton, sourceLines_of_unbroken hline]
    | cons next lines =>
      have hrest := ih (List.cons_ne_nil _ _) fun l hl => h l (List.mem_cons_of_mem _ hl)
      rw [List.intercalate_cons_cons, List.append_assoc, List.singleton_append,
        sourceLines_append hline, hrest]

end FlowTrace.Text
