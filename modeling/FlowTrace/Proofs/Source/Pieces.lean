import FlowTrace.Proofs.Source.Spelling
import FlowTrace.Proofs.Text.Display

/-!
# The pieces of a line

What stands in a line are its colons, each on its own, and the runs of characters between colons and
blanks that cannot be made longer.  The pieces of a line are cut out of it at these places, in their
order.  So nothing but blanks is lost, and how many blanks there are between two pieces does not
count, as long as they keep two runs apart.
-/

namespace FlowTrace.Token

variable {c : Char} {w cs ds line gap : List Char} {k : Nat}

/-! ## What stands in a line -/

/-- The characters that runs are made of. -/
def isPlain (c : Char) : Bool := !Text.isBlank c && c != ':'

/-- The characters of a line from `start` up to `stop`. -/
structure Span where
  start : Nat
  stop : Nat
deriving DecidableEq, Repr

namespace Span

def text (line : List Char) (s : Span) : List Char := (line.drop s.start).take (s.stop - s.start)

def shift (k : Nat) (s : Span) : Span := ⟨k + s.start, k + s.stop⟩

end Span

/-- At this place of a line there is a plain character. -/
def PlainAt (cs : List Char) (k : Nat) : Prop := ∃ c, cs[k]? = some c ∧ isPlain c = true

/-- A colon stands on its own, and a run of plain characters stands where it cannot be made longer
on either side. -/
inductive Stands (cs : List Char) : Span → Prop where
  | colon {k : Nat} (h : cs[k]? = some ':') : Stands cs ⟨k, k + 1⟩
  | run {i j : Nat} (hlt : i < j) (hplain : ∀ k, i ≤ k → k < j → PlainAt cs k)
      (hfirst : ∀ k, k + 1 = i → ¬ PlainAt cs k) (hlast : ¬ PlainAt cs j) : Stands cs ⟨i, j⟩

theorem isPlain_eq_false_iff : isPlain c = false ↔ Text.isBlank c = true ∨ c = ':' := by
  cases h : Text.isBlank c <;> simp [isPlain, h]

theorem PlainAt.lt (h : PlainAt line k) : k < line.length := by
  obtain ⟨c, hc, -⟩ := h
  exact (List.getElem?_eq_some_iff.mp hc).1

theorem plainAt_of_forall (hw : ∀ c ∈ w, isPlain c = true) (hk : k < w.length) : PlainAt w k :=
  ⟨w[k], List.getElem?_eq_getElem hk, hw _ (List.getElem_mem hk)⟩

theorem not_plainAt_of_length_le (h : line.length ≤ k) : ¬ PlainAt line k :=
  fun hk => absurd hk.lt (Nat.not_lt.mpr h)

theorem Stands.stop_le {s : Span} (h : Stands line s) : s.stop ≤ line.length := by
  cases h with
  | colon h => exact (List.getElem?_eq_some_iff.mp h).1
  | @run i j hlt hplain =>
    have hlast := (hplain (j - 1) (by omega) (by omega)).lt
    show j ≤ line.length
    omega

/-! ## Runs and dividers -/

/-- A line of plain characters is one run. -/
theorem stands_iff_of_plain (hw : ∀ c ∈ w, isPlain c = true) {s : Span} :
    Stands w s ↔ w ≠ [] ∧ s = ⟨0, w.length⟩ := by
  constructor
  · intro h
    have hstop := h.stop_le
    cases h with
    | colon h =>
      have hcolon := hw ':' (List.mem_of_getElem? h)
      exact absurd hcolon (by decide)
    | @run i j hlt _ hfirst hlast =>
      have hle : j ≤ w.length := hstop
      have hi : i = 0 := by
        by_contra hne
        exact hfirst (i - 1) (by omega) (plainAt_of_forall hw (by omega))
      have hj : j = w.length := by
        by_contra hne
        exact hlast (plainAt_of_forall hw (by omega))
      subst hi hj
      exact ⟨List.ne_nil_of_length_pos hlt, rfl⟩
  · rintro ⟨hne, rfl⟩
    exact .run (List.length_pos_iff.mpr hne) (fun k _ hk => plainAt_of_forall hw hk)
      (fun k hk => absurd hk (Nat.succ_ne_zero k)) (not_plainAt_of_length_le le_rfl)

theorem plainAt_before (hk : k < cs.length) : PlainAt (cs ++ c :: ds) k ↔ PlainAt cs k := by
  rw [PlainAt, List.getElem?_append_left hk, PlainAt]

theorem getElem?_after (cs ds : List Char) (c : Char) (k : Nat) :
    (cs ++ c :: ds)[cs.length + 1 + k]? = ds[k]? := by
  rw [List.getElem?_append_right (by omega), Nat.add_assoc, Nat.add_sub_cancel_left, Nat.add_comm,
    List.getElem?_cons_succ]

theorem plainAt_after : PlainAt (cs ++ c :: ds) (cs.length + 1 + k) ↔ PlainAt ds k := by
  rw [PlainAt, getElem?_after, PlainAt]

theorem not_plainAt_divider (hc : isPlain c = false) : ¬ PlainAt (cs ++ c :: ds) cs.length := by
  simp [PlainAt, hc]

/-- What stands before a divider is not changed by what comes after it. -/
theorem Stands.before {s : Span} (h : Stands cs s) (hc : isPlain c = false) (ds : List Char) :
    Stands (cs ++ c :: ds) s := by
  have hstop := h.stop_le
  cases h with
  | colon h =>
    refine .colon ?_
    rwa [List.getElem?_append_left (List.getElem?_eq_some_iff.mp h).1]
  | @run i j hlt hplain hfirst hlast =>
    have hle : j ≤ cs.length := hstop
    refine .run hlt (fun k hi hk => ?_) (fun k hk => ?_) ?_
    · exact (plainAt_before (by omega)).mpr (hplain k hi hk)
    · exact mt (plainAt_before (by omega)).mp (hfirst k hk)
    · rcases hle.eq_or_lt with rfl | hle
      · exact not_plainAt_divider hc
      · exact mt (plainAt_before hle).mp hlast

theorem Stands.after {s : Span} (h : Stands ds s) (hc : isPlain c = false) (cs : List Char) :
    Stands (cs ++ c :: ds) (s.shift (cs.length + 1)) := by
  cases h with
  | colon h => exact .colon ((getElem?_after cs ds c _).trans h)
  | @run i j hlt hplain hfirst hlast =>
    show Stands (cs ++ c :: ds) ⟨cs.length + 1 + i, cs.length + 1 + j⟩
    refine .run (Nat.add_lt_add_left hlt _) (fun k hi hk => ?_) (fun k hk => ?_)
      (mt plainAt_after.mp hlast)
    · obtain ⟨k, rfl⟩ := Nat.exists_eq_add_of_le (show cs.length + 1 ≤ k by omega)
      exact plainAt_after.mpr (hplain k (by omega) (by omega))
    · -- In front of the first run after the divider is the divider.
      rcases Nat.eq_zero_or_pos i with rfl | hi
      · obtain rfl : k = cs.length := by omega
        exact not_plainAt_divider hc
      · obtain ⟨k, rfl⟩ := Nat.exists_eq_add_of_le (show cs.length + 1 ≤ k by omega)
        exact mt plainAt_after.mp (hfirst k (by omega))

/-- Nothing goes across a divider. -/
theorem Stands.before_or_after {s : Span} (h : Stands (cs ++ c :: ds) s) (hc : isPlain c = false) :
    Stands cs s ∨ (c = ':' ∧ s = ⟨cs.length, cs.length + 1⟩) ∨
      ∃ t, Stands ds t ∧ t.shift (cs.length + 1) = s := by
  cases h with
  | @colon k h =>
    rcases Nat.lt_trichotomy k cs.length with hk | rfl | hk
    · rw [List.getElem?_append_left hk] at h
      exact .inl (.colon h)
    · exact .inr (.inl ⟨by simpa using h, rfl⟩)
    · obtain ⟨k, rfl⟩ := Nat.exists_eq_add_of_le (show cs.length + 1 ≤ k by omega)
      rw [getElem?_after] at h
      exact .inr (.inr ⟨_, .colon h, rfl⟩)
  | @run i j hlt hplain hfirst hlast =>
    have hside : j ≤ cs.length ∨ cs.length < i := by
      by_contra hboth
      exact not_plainAt_divider hc (hplain cs.length (by omega) (by omega))
    rcases hside with hj | hi
    · refine .inl (.run hlt (fun k hi hk => ?_) (fun k hk => ?_) fun hplain => ?_)
      · exact (plainAt_before (by omega)).mp (hplain k hi hk)
      · exact mt (plainAt_before (by omega)).mpr (hfirst k hk)
      · exact hlast ((plainAt_before hplain.lt).mpr hplain)
    · obtain ⟨i, rfl⟩ := Nat.exists_eq_add_of_le (show cs.length + 1 ≤ i by omega)
      obtain ⟨j, rfl⟩ := Nat.exists_eq_add_of_le (show cs.length + 1 ≤ j by omega)
      refine .inr (.inr ⟨⟨i, j⟩, .run (by omega) (fun k hi hk => ?_) (fun k hk => ?_)
        (mt plainAt_after.mpr hlast), rfl⟩)
      · exact plainAt_after.mp (hplain _ (by omega) (by omega))
      · exact mt plainAt_after.mpr (hfirst _ (by omega))

theorem stands_append_iff (hc : isPlain c = false) {s : Span} :
    Stands (cs ++ c :: ds) s ↔ Stands cs s ∨ (c = ':' ∧ s = ⟨cs.length, cs.length + 1⟩) ∨
      ∃ t, Stands ds t ∧ t.shift (cs.length + 1) = s := by
  refine ⟨fun h => h.before_or_after hc, ?_⟩
  rintro (h | ⟨rfl, rfl⟩ | ⟨t, ht, rfl⟩)
  · exact h.before hc ds
  · exact .colon (by simp)
  · exact ht.after hc cs

/-! ## Cutting a line at its dividers -/

/-- A line is a run, or two lines with a divider between them. -/
@[elab_as_elim]
theorem lineInduction {motive : List Char → Prop}
    (run : ∀ w, (∀ c ∈ w, isPlain c = true) → motive w)
    (divider : ∀ cs c ds, isPlain c = false → motive cs → motive ds → motive (cs ++ c :: ds))
    (line : List Char) : motive line := by
  -- In front of the rest of the line is the run that has been read since the last divider.
  have hrest : ∀ line w, (∀ c ∈ w, isPlain c = true) → motive (w ++ line) := by
    intro line
    induction line with
    | nil =>
      intro w hw
      rw [List.append_nil]
      exact run w hw
    | cons c line ih =>
      intro w hw
      cases hc : isPlain c with
      | true =>
        have hlonger := ih (w ++ [c]) (List.forall_mem_append.mpr
          ⟨hw, List.forall_mem_singleton.mpr hc⟩)
        rwa [List.append_assoc, List.singleton_append] at hlonger
      | false => exact divider w c line hc (run w hw) (ih [] (List.forall_mem_nil _))
  exact hrest line [] (List.forall_mem_nil _)

theorem isPiece_of_plain (hne : w ≠ []) (hw : ∀ c ∈ w, isPlain c = true) : IsPiece w where
  ne_nil := hne
  not_blank c hc := by
    have hplain := hw c hc
    rw [isPlain, Bool.and_eq_true] at hplain
    simpa using hplain.1
  notMem_colon hc := absurd (hw ':' hc) (by decide)

theorem pieces_of_plain (hw : ∀ c ∈ w, isPlain c = true) :
    pieces w = if w = [] then [] else [w] := by
  split
  · next h =>
    rw [h]
    rfl
  · next h => exact (isPiece_of_plain h hw).pieces_eq

theorem pieces_append_divider (hc : isPlain c = false) (cs ds : List Char) :
    pieces (cs ++ c :: ds) = pieces cs ++ (if c = ':' then [[':']] else []) ++ pieces ds := by
  by_cases hcolon : c = ':'
  · subst hcolon
    rw [pieces_append_colon, if_pos rfl, List.append_assoc, List.singleton_append]
  · have hblank := (isPlain_eq_false_iff.mp hc).resolve_right hcolon
    rw [pieces_append_blank hblank, if_neg hcolon, List.append_nil]

/-! ## Places of pieces -/

/-- The pieces of a line are cut out at all places where something stands, in their order. -/
structure CutAt (line : List Char) (spans : List Span) : Prop where
  ordered : spans.Pairwise fun s t => s.stop ≤ t.start
  mem_iff : ∀ s, s ∈ spans ↔ Stands line s
  pieces_eq : pieces line = spans.map (Span.text line)

theorem Span.text_append {s : Span} (hs : s.stop ≤ cs.length) (ds : List Char) :
    s.text (cs ++ ds) = s.text cs := by
  have hlen : s.stop - s.start ≤ (cs.drop s.start).length := by
    rw [List.length_drop]
    omega
  rw [text, List.drop_append, List.take_append_of_le_length hlen, text]

theorem Span.text_shift (s : Span) (cs ds : List Char) (c : Char) :
    (s.shift (cs.length + 1)).text (cs ++ c :: ds) = s.text ds := by
  have hdrop : (cs ++ c :: ds).drop (cs.length + 1 + s.start) = ds.drop s.start := by
    rw [← List.drop_drop, List.drop_append, List.drop_eq_nil_of_le (Nat.le_succ _),
      Nat.add_sub_cancel_left]
    rfl
  rw [text, text, shift, hdrop, Nat.add_sub_add_left]

theorem cutAt_of_plain (hw : ∀ c ∈ w, isPlain c = true) :
    CutAt w (if w = [] then [] else [⟨0, w.length⟩]) := by
  refine ⟨?_, fun s => ?_, ?_⟩
  · split <;> simp
  · rw [stands_iff_of_plain hw]
    split <;> simp_all
  · rw [pieces_of_plain hw]
    split <;> simp [Span.text]

/-- The place of a divider: a colon stands there, a blank does not. -/
def dividerSpans (c : Char) (k : Nat) : List Span := if c = ':' then [⟨k, k + 1⟩] else []

theorem mem_dividerSpans {s : Span} : s ∈ dividerSpans c k ↔ c = ':' ∧ s = ⟨k, k + 1⟩ := by
  unfold dividerSpans
  split <;> simp_all

theorem map_text_dividerSpans (cs ds : List Char) (c : Char) :
    (dividerSpans c cs.length).map (Span.text (cs ++ c :: ds)) =
      if c = ':' then [[':']] else [] := by
  unfold dividerSpans
  split <;> simp_all [Span.text]

/-- Places on the two sides of a divider are in their order. -/
theorem pairwise_append_divider {l l' : List Span} (hl : l.Pairwise fun s t => s.stop ≤ t.start)
    (hl' : l'.Pairwise fun s t => s.stop ≤ t.start) (hstop : ∀ s ∈ l, s.stop ≤ k) :
    (l ++ dividerSpans c k ++ l'.map (Span.shift (k + 1))).Pairwise
      fun s t => s.stop ≤ t.start := by
  refine List.pairwise_append.mpr ⟨List.pairwise_append.mpr ⟨hl, ?_, ?_⟩, ?_, ?_⟩
  · unfold dividerSpans
    split <;> simp
  · intro s hs t ht
    obtain ⟨-, rfl⟩ := mem_dividerSpans.mp ht
    exact hstop s hs
  · exact List.pairwise_map.mpr (hl'.imp (Nat.add_le_add_left · _))
  · intro s hs t ht
    obtain ⟨t, -, rfl⟩ := List.mem_map.mp ht
    have hs : s.stop ≤ k + 1 := by
      rcases List.mem_append.mp hs with hs | hs
      · exact (hstop s hs).trans (Nat.le_succ k)
      · obtain ⟨-, rfl⟩ := mem_dividerSpans.mp hs
        exact le_rfl
    exact hs.trans (Nat.le_add_right _ _)

theorem CutAt.append {l l' : List Span} (h : CutAt cs l) (h' : CutAt ds l')
    (hc : isPlain c = false) :
    CutAt (cs ++ c :: ds)
      (l ++ dividerSpans c cs.length ++ l'.map (Span.shift (cs.length + 1))) := by
  have hstop : ∀ s ∈ l, s.stop ≤ cs.length := fun s hs => ((h.mem_iff s).mp hs).stop_le
  refine ⟨pairwise_append_divider h.ordered h'.ordered hstop, fun s => ?_, ?_⟩
  · simp only [stands_append_iff hc, List.mem_append, mem_dividerSpans, h.mem_iff, List.mem_map,
      h'.mem_iff, or_assoc]
  · have hleft : l.map (Span.text (cs ++ c :: ds)) = l.map (Span.text cs) :=
      List.map_congr_left fun s hs => Span.text_append (hstop s hs) _
    have hright : l'.map (Span.text (cs ++ c :: ds) ∘ Span.shift (cs.length + 1)) =
        l'.map (Span.text ds) := List.map_congr_left fun s _ => Span.text_shift s cs ds c
    rw [pieces_append_divider hc, h.pieces_eq, h'.pieces_eq, List.map_append, List.map_append,
      List.map_map, hleft, hright, map_text_dividerSpans]

theorem exists_cutAt (line : List Char) : ∃ spans, CutAt line spans := by
  induction line using lineInduction with
  | run w hw => exact ⟨_, cutAt_of_plain hw⟩
  | divider cs c ds hc ihcs ihds =>
    obtain ⟨l, hl⟩ := ihcs
    obtain ⟨l', hl'⟩ := ihds
    exact ⟨_, hl.append hl' hc⟩

/-! ## Blanks -/

/-- Only blanks are lost. -/
theorem flatten_pieces (line : List Char) :
    (pieces line).flatten = line.filter (!Text.isBlank ·) := by
  induction line using lineInduction with
  | run w hw =>
    have hall : w.filter (!Text.isBlank ·) = w := by
      refine List.filter_eq_self.mpr fun c hc => ?_
      exact (Bool.and_eq_true_iff.mp (hw c hc)).1
    rw [pieces_of_plain hw, hall]
    split <;> simp_all
  | divider cs c ds hc ihcs ihds =>
    rw [pieces_append_divider hc, List.flatten_append, List.flatten_append, ihcs, ihds,
      List.filter_append, List.append_assoc]
    rcases isPlain_eq_false_iff.mp hc with hblank | rfl
    · simp [hblank, ne_colon_of_isBlank hblank]
    · have hcolon : Text.isBlank ':' = false := by decide
      simp [hcolon]

/-- A piece has no other pieces in it. -/
theorem pieces_of_mem_pieces (h : w ∈ pieces line) : pieces w = [w] := by
  induction line using lineInduction with
  | run v hv =>
    rw [pieces_of_plain hv] at h
    split at h
    · cases h
    · next hne =>
      obtain rfl := List.mem_singleton.mp h
      rw [pieces_of_plain hv, if_neg hne]
  | divider cs c ds hc ihcs ihds =>
    rw [pieces_append_divider hc, List.mem_append, List.mem_append] at h
    rcases h with (h | h) | h
    · exact ihcs h
    · split at h
      · rw [List.mem_singleton.mp h]
        rfl
      · cases h
    · exact ihds h

theorem pieces_append_blanks (hgap : ∀ c ∈ gap, Text.isBlank c = true) (cs : List Char) :
    pieces (cs ++ gap) = pieces cs := by
  cases gap with
  | nil => rw [List.append_nil]
  | cons c gap =>
    obtain ⟨hc, hgap⟩ := List.forall_mem_cons.mp hgap
    rw [pieces_append_blank hc, pieces_eq_nil_iff.mpr hgap, List.append_nil]

theorem pieces_blanks_append (hgap : ∀ c ∈ gap, Text.isBlank c = true) (cs : List Char) :
    pieces (gap ++ cs) = pieces cs := by
  induction gap with
  | nil => rfl
  | cons c gap ih =>
    obtain ⟨hc, hgap⟩ := List.forall_mem_cons.mp hgap
    exact (pieces_append_blank hc [] (gap ++ cs)).trans (ih hgap)

/-- All gaps are alike. -/
theorem pieces_gap (hne : gap ≠ []) (hgap : ∀ c ∈ gap, Text.isBlank c = true) (cs ds : List Char) :
    pieces (cs ++ gap ++ ds) = pieces cs ++ pieces ds := by
  cases gap with
  | nil => exact absurd rfl hne
  | cons c gap =>
    obtain ⟨hc, hgap⟩ := List.forall_mem_cons.mp hgap
    rw [List.append_assoc, List.cons_append, pieces_append_blank hc, pieces_blanks_append hgap]

theorem pieces_trimBy (line : List Char) :
    pieces (Text.trimBy Text.isBlank line) = pieces line := by
  obtain ⟨front, back, hfront, hback, hline⟩ := Text.exists_trimBy Text.isBlank line
  calc pieces (Text.trimBy Text.isBlank line)
      = pieces (front ++ Text.trimBy Text.isBlank line ++ back) := by
        rw [pieces_append_blanks hback, pieces_blanks_append hfront]
    _ = pieces line := by rw [← hline]

/-- **The pieces of a line.**  They are cut out, in their order, at all places where a colon or a
run stands, so that together they are the line without its blanks.  They do not change with the
blanks around a colon, with the length of a gap or by trimming the line, and they are the pieces of
the line in which they are put together with single blanks between them. -/
theorem pieces_keep_all_but_blanks (line : List Char) :
    (∃ spans, CutAt line spans) ∧
    (pieces line).flatten = line.filter (!Text.isBlank ·) ∧
    (∀ cs ds gap gap' : List Char, (∀ c ∈ gap, Text.isBlank c = true) →
      (∀ c ∈ gap', Text.isBlank c = true) →
      pieces (cs ++ gap ++ ':' :: (gap' ++ ds)) = pieces (cs ++ ':' :: ds)) ∧
    (∀ cs ds gap gap' : List Char, gap ≠ [] → (∀ c ∈ gap, Text.isBlank c = true) →
      gap' ≠ [] → (∀ c ∈ gap', Text.isBlank c = true) →
      pieces (cs ++ gap ++ ds) = pieces (cs ++ gap' ++ ds)) ∧
    pieces (Text.trimBy Text.isBlank line) = pieces line ∧
    pieces ([' '].intercalate (pieces line)) = pieces line := by
  refine ⟨exists_cutAt line, flatten_pieces line, ?_, ?_, pieces_trimBy line, ?_⟩
  · intro cs ds gap gap' hgap hgap'
    rw [pieces_append_colon, pieces_append_colon, pieces_append_blanks hgap,
      pieces_blanks_append hgap']
  · intro cs ds gap gap' hne hgap hne' hgap'
    rw [pieces_gap hne hgap, pieces_gap hne' hgap']
  · exact pieces_intercalate_of_forall fun w hw => pieces_of_mem_pieces hw

/-- A label with a colon that touches its neighbours, two colons in a row and a gap at the end. -/
example : pieces ['L', ':', 'x', ' ', '=', '\t', ' ', '1', ':', ':', ' '] =
    [['L'], [':'], ['x'], ['='], ['1'], [':'], [':']] := by
  decide

end FlowTrace.Token
