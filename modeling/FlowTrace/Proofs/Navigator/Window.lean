import FlowTrace.Proofs.Navigator.Cursor

/-!
# The sliding window is a cursor

The window always holds the values around the farthest position, one more than its size.  It takes
the next value when it slides, so it finds out late that its source has ended: only when it is asked
to go beyond its usable part, or at the start if the values do not fill it.
-/

namespace FlowTrace

variable {σ α : Type} {s : List α} {size : Int}

open Track (width width_pos)

namespace Window

theorem wantedSize_eq (size : Int) : wantedSize size = width size := by
  unfold wantedSize width
  omega

/-- Dropping the first of the values kept and taking the next one. -/
theorem slide {d k : Nat} {a : α} {as : List α} (h : s.drop (d + (k + 1)) = a :: as) :
    ((s.drop d).take (k + 1)).tail ++ [a] = (s.drop (d + 1)).take (k + 1) := by
  have hnext : (s.drop (d + 1))[k]? = some a := by
    rw [List.getElem?_drop, Nat.add_right_comm, Nat.add_assoc, ← List.head?_drop, h]
    rfl
  have htail : ((s.drop d).take (k + 1)).tail = (s.drop (d + 1)).take k := by
    rw [← List.tail_drop]
    cases s.drop d with
    | nil => simp
    | cons b bs => rfl
  rw [htail, List.take_add_one, hnext]
  rfl

/-- The window is where the cursor is.  It is known that the source has ended if the values do not
fill the window, and as soon as the position is beyond the usable part. -/
structure Follows [Source σ α] (s : List α) (size : Int) (win : Window σ α)
    (c : Cursor (.sliding s.length size)) : Prop where
  dropped : win.dropped = c.base
  index : win.dropped + win.index = c.position
  values : win.values = (s.drop win.dropped).take (width size + 1)
  source : Source.Yields win.source (s.drop (win.dropped + (width size + 1)))
  usable : win.usable = min s.length (width size)
  length_le : win.exhausted = true → s.length ≤ win.dropped + (width size + 1)
  exhausted : s.length ≤ width size ∨ width size ≤ win.index → win.exhausted = true

/-- What the window shows of the cursor. -/
structure Shows [Source σ α] (s : List α) (size : Int) (win : Window σ α)
    (c : Cursor (.sliding s.length size)) : Prop where
  current : win.current? = s[c.position]?
  current_eq_none : win.current? = none ↔ c.position = s.length
  hasNext : win.hasNext = true ↔ c.position + 1 < s.length
  hasPrevious : win.hasPrevious = true ↔ c.base < c.position
  values : win.values = s.extract c.base (min s.length (c.base + width size + 1))
  length_le : win.values.length ≤ width size + 1
  pulled : win.pulled = min s.length (c.base + width size + 1)
  source : Source.Yields win.source (s.drop win.pulled)

namespace Follows

variable [Source σ α] {win : Window σ α} {c : Cursor (.sliding s.length size)}

/-- Where the window stands, in numbers. -/
theorem dropped_eq (h : win.Follows s size c) :
    win.dropped = min (c.farthest + 1 - width size) (s.length - (width size + 1)) := h.dropped

theorem capacity_eq (h : win.Follows s size c) :
    win.capacity = min s.length (width size + 1) := by
  have hdropped := h.dropped_eq
  rw [capacity, h.values, List.length_take, List.length_drop]
  omega

theorem pulled_eq (h : win.Follows s size c) :
    win.pulled = min s.length (win.dropped + width size + 1) := by
  have hdropped := h.dropped_eq
  rw [pulled, h.capacity_eq]
  omega

/-- As long as the end was not met, the values fill the window and the position is usable. -/
theorem of_open (h : win.Follows s size c) (hopen : win.exhausted = false) :
    width size < s.length ∧ win.index < width size := by
  constructor
  · apply Nat.lt_of_not_le
    intro hle
    exact absurd (h.exhausted (.inl hle)) (Bool.not_eq_true _ ▸ hopen)
  · apply Nat.lt_of_not_le
    intro hle
    exact absurd (h.exhausted (.inr hle)) (Bool.not_eq_true _ ▸ hopen)

/-- The position is in the window, or at the end of the values. -/
theorem index_lt_iff (h : win.Follows s size c) :
    win.index < win.capacity ↔ c.position < s.length := by
  have hdropped := h.dropped_eq
  have hindex := h.index
  rw [h.capacity_eq]
  cases hend : win.exhausted with
  | true =>
    have := h.length_le hend
    omega
  | false =>
    have := h.of_open hend
    omega

theorem current?_eq (h : win.Follows s size c) : win.current? = s[c.position]? := by
  rw [current?, h.values, List.getElem?_take, List.getElem?_drop, h.index]
  split
  · rfl
  · next hlt =>
    have hout : ¬ win.index < win.capacity := by
      rw [h.capacity_eq]
      omega
    rw [h.index_lt_iff] at hout
    exact (List.getElem?_eq_none (Nat.le_of_not_lt hout)).symm

theorem hasNext_eq (h : win.Follows s size c) :
    win.hasNext = decide (c.position + 1 < s.length) := by
  have hdropped := h.dropped_eq
  have hindex := h.index
  rw [hasNext, h.capacity_eq]
  cases hend : win.exhausted with
  | true =>
    have := h.length_le hend
    rw [Bool.not_true, Bool.and_false, Bool.or_false, decide_eq_decide]
    omega
  | false =>
    have := h.of_open hend
    have hlt : win.index + 1 < min s.length (width size + 1) := by omega
    have hposition : c.position + 1 < s.length := by omega
    rw [decide_eq_true hlt, decide_eq_true hposition, Bool.true_or]

theorem hasPrevious_eq (h : win.Follows s size c) :
    win.hasPrevious = decide (c.base < c.position) := by
  have hindex := h.index
  rw [hasPrevious, ← h.dropped, decide_eq_decide]
  omega

theorem previous (h : win.Follows s size c) : win.previous.Follows s size c.previous where
  dropped := by
    rw [Cursor.base, Cursor.farthest_previous]
    exact h.dropped
  index := by
    show win.dropped + (win.index - 1) = max (c.position - 1) c.base
    have hindex := h.index
    rw [← h.dropped]
    omega
  values := h.values
  source := h.source
  usable := h.usable
  length_le := h.length_le
  exhausted hcase := h.exhausted (hcase.imp_right fun hle => Nat.le_trans hle (Nat.sub_le _ _))

/-- A step inside of a window that stays where it is. -/
theorem next_within (h : win.Follows s size c) (hlt : win.index < win.capacity) {ended : Bool}
    (hended : ended = true → s.length ≤ win.dropped + (width size + 1))
    (hopen : ended = false → win.exhausted = false ∧ win.index + 1 < width size) :
    Follows s size { win with exhausted := ended, index := win.index + 1 } c.next := by
  have hdropped := h.dropped_eq
  have hindex := h.index
  have hfarthest := c.position_le
  obtain ⟨hposition, hnext⟩ := Cursor.next_of_lt (h.index_lt_iff.mp hlt)
  have hbase : win.dropped =
      min (c.next.farthest + 1 - width size) (s.length - (width size + 1)) := by
    have := width_pos size
    cases ended with
    | true =>
      have := hended rfl
      omega
    | false =>
      have := hopen rfl
      omega
  constructor
  case dropped => exact hbase
  case index =>
    show win.dropped + (win.index + 1) = c.next.position
    omega
  case values => exact h.values
  case source => exact h.source
  case usable => exact h.usable
  case length_le => exact hended
  case exhausted =>
    intro hcase
    cases ended with
    | true => rfl
    | false =>
      obtain ⟨hfalse, hlt⟩ := hopen rfl
      rcases hcase with hcase | hcase
      · rw [h.exhausted (.inl hcase)] at hfalse
        cases hfalse
      · exact absurd hcase (Nat.not_le.mpr hlt)

/-- A step of the window itself, at the edge of its usable part. -/
theorem next_slid (h : win.Follows s size c) (hedge : win.index + 1 = width size)
    (hopen : win.exhausted = false) {source' : σ} {a : α} {as : List α}
    (hrest : s.drop (win.dropped + (width size + 1)) = a :: as)
    (hsource : Source.Yields source' as) :
    Follows s size
      { win with source := source', values := win.values.tail ++ [a], dropped := win.dropped + 1 }
      c.next := by
  have hdropped := h.dropped_eq
  have hindex := h.index
  have hfarthest := c.position_le
  have hmore : win.dropped + (width size + 1) < s.length := by
    apply Nat.lt_of_not_le
    intro hle
    cases hrest.symm.trans (List.drop_eq_nil_iff.mpr hle)
  have hlt : c.position < s.length := by omega
  obtain ⟨hposition, hnext⟩ := Cursor.next_of_lt hlt
  constructor
  case dropped =>
    show win.dropped + 1 = min (c.next.farthest + 1 - width size) (s.length - (width size + 1))
    omega
  case index =>
    show win.dropped + 1 + win.index = c.next.position
    omega
  case values =>
    show win.values.tail ++ [a] = (s.drop (win.dropped + 1)).take (width size + 1)
    rw [h.values, slide hrest]
  case source =>
    show Source.Yields source' (s.drop (win.dropped + 1 + (width size + 1)))
    have hdrop : s.drop (win.dropped + 1 + (width size + 1)) = as := by
      rw [Nat.add_right_comm, ← List.tail_drop, hrest]
      rfl
    rw [hdrop]
    exact hsource
  case usable => exact h.usable
  case length_le =>
    show win.exhausted = true → _
    rw [hopen]
    nofun
  case exhausted =>
    have := h.of_open hopen
    rintro (hle | hle)
    · omega
    · exact absurd hle (Nat.not_le.mpr this.2)

/-- At the edge of the usable part, the window slides or its source has ended. -/
theorem advance (h : win.Follows s size c) (hedge : win.index + 1 = width size)
    (hopen : win.exhausted = false) : win.advance.Follows s size c.next := by
  have hsource := h.source
  generalize hrest : s.drop (win.dropped + (width size + 1)) = rest at hsource
  rw [Window.advance]
  cases hsource with
  | ended hnone =>
    have hlt : win.index < win.capacity := by
      have := h.of_open hopen
      rw [h.capacity_eq]
      omega
    rw [hnone]
    exact h.next_within hlt (fun _ => List.drop_eq_nil_iff.mp hrest) nofun
  | value hsome hbound htail =>
    rw [hsome]
    exact h.next_slid hedge hopen hrest htail

theorem next (h : win.Follows s size c) : win.next.Follows s size c.next := by
  rw [Window.next]
  split
  · next hle =>
    have hend : c.position = s.length := by
      have := c.position_le_length
      have := (not_congr h.index_lt_iff).mp (Nat.not_lt.mpr hle)
      exact Nat.le_antisymm ‹_› (Nat.le_of_not_lt this)
    rw [Cursor.next_of_end hend]
    exact h
  · next hlt =>
    have hlt := Nat.lt_of_not_le hlt
    split
    · next hedge =>
      rw [Bool.and_eq_true, beq_iff_eq, Bool.not_eq_true', h.usable] at hedge
      have := h.of_open hedge.2
      exact h.advance (by omega) hedge.2
    · next hedge =>
      rw [Bool.and_eq_true, beq_iff_eq, Bool.not_eq_true', h.usable, not_and'] at hedge
      apply h.next_within hlt h.length_le
      intro hopen
      have hne := hedge hopen
      have := h.of_open hopen
      exact ⟨hopen, by omega⟩

theorem length_le_moveBound (h : win.Follows s size c) :
    s.length ≤ c.position + (Navigator.window win).moveBound := by
  have hpulled := h.pulled_eq
  have hbound := h.source.length_le
  have hindex := h.index
  show s.length ≤ c.position + (win.capacity + Source.bound win.source + 1)
  rw [List.length_drop] at hbound
  rw [pulled] at hpulled
  omega

/-- All that can be seen of a window that is where the cursor is. -/
theorem shows (h : win.Follows s size c) : win.Shows s size c := by
  constructor
  case current => exact h.current?_eq
  case current_eq_none =>
    have := c.position_le_length
    rw [h.current?_eq, List.getElem?_eq_none_iff]
    exact ⟨Nat.le_antisymm this, fun heq => Nat.le_of_eq heq.symm⟩
  case hasNext => rw [h.hasNext_eq, decide_eq_true_iff]
  case hasPrevious => rw [h.hasPrevious_eq, decide_eq_true_iff]
  case values =>
    rw [h.values, List.extract_eq_take_drop, h.dropped, List.take_eq_take_iff, List.length_drop]
    omega
  case length_le =>
    have hcapacity : win.values.length = min s.length (width size + 1) := h.capacity_eq
    omega
  case pulled => rw [h.pulled_eq, h.dropped]
  case source =>
    have hdrop : s.drop win.pulled = s.drop (win.dropped + (width size + 1)) := by
      rw [List.drop_eq_drop_iff, h.pulled_eq]
      omega
    rw [hdrop]
    exact h.source

end Follows

theorem follows_ofSource [Source σ α] {source : σ} (h : Source.Yields source s) (size : Int) :
    (Window.ofSource source size).Follows s size .start := by
  obtain ⟨hvalues, hrest, hended⟩ := h.pull (width size + 1)
  have hwidth := width_pos size
  rw [ofSource, wantedSize_eq]
  constructor
  case dropped =>
    show 0 = min (0 + 1 - width size) (s.length - (width size + 1))
    omega
  case index => rfl
  case values => exact hvalues
  case source =>
    show Source.Yields _ (s.drop (0 + (width size + 1)))
    rw [Nat.zero_add]
    exact hrest
  case usable =>
    show min (Source.pull (width size + 1) source).1.length (width size) = _
    rw [hvalues, List.length_take]
    omega
  case length_le =>
    show (Source.pull (width size + 1) source).2.2 = true → s.length ≤ 0 + (width size + 1)
    rw [hended, decide_eq_true_iff]
    omega
  case exhausted =>
    show s.length ≤ width size ∨ width size ≤ 0 → (Source.pull (width size + 1) source).2.2 = true
    rw [hended, decide_eq_true_iff]
    omega

end Window

namespace Navigator

variable [Source σ α]

theorem simulates_window (s : List α) (size : Int) :
    Simulates s (.sliding s.length size)
      (fun nav c => ∃ win : Window σ α, nav = .window win ∧ win.Follows s size c) where
  position := by
    rintro _ c ⟨win, rfl, h⟩
    exact h.index
  current := by
    rintro _ c ⟨win, rfl, h⟩
    exact h.current?_eq
  hasNext := by
    rintro _ c ⟨win, rfl, h⟩
    exact ⟨h.hasNext_eq, win, rfl, h⟩
  hasPrevious := by
    rintro _ c ⟨win, rfl, h⟩
    exact h.hasPrevious_eq
  next := by
    rintro _ c ⟨win, rfl, h⟩
    exact ⟨win.next, rfl, h.next⟩
  previous := by
    rintro _ c ⟨win, rfl, h⟩
    exact ⟨win.previous, rfl, h.previous⟩
  length_le := by
    rintro _ c ⟨win, rfl, h⟩
    exact h.length_le_moveBound

/-- **The window is a cursor.**  After any calls, the bounded navigator has given the answers of the
cursor on the sliding track, and its window shows the cursor's position. -/
theorem run_window {source : σ} (h : Source.Yields source s) (size : Int) (calls : List Call) :
    ((ofSource source size false).run calls).1 = (Cursor.run s (.sliding s.length size) calls).1 ∧
    ∃ win, ((ofSource source size false).run calls).2 = .window win ∧
      win.Shows s size (Cursor.run s _ calls).2 := by
  obtain ⟨hanswers, win, hwin, hfollows⟩ := (simulates_window s size).run calls
    ⟨Window.ofSource source size, rfl, Window.follows_ofSource h size⟩
  exact ⟨hanswers, win, hwin, hfollows.shows⟩

/-- A window of the smallest size over four values, to its end and back. -/
theorem run_window_of_four :
    Source.Yields [10, 20, 30, 40] [10, 20, 30, 40] ∧
    ∃ win, (ofSource [10, 20, 30, 40] 0 false).run
        [.next, .next, .previous, .hasPrevious, .toEnd, .hasNext, .next, .current, .previous,
          .previous, .previous, .current] =
      ([.moved, .moved, .moved, .flag false, .moved, .flag false, .moved, .value none, .moved,
          .moved, .moved, .value (some 30)], .window win) ∧
      win.values = [30, 40] ∧ win.pulled = 4 := by
  have h := Source.yields_list [10, 20, 30, 40]
  obtain ⟨hanswers, win, hwin, hshows⟩ := run_window h 0
    [.next, .next, .previous, .hasPrevious, .toEnd, .hasNext, .next, .current, .previous,
      .previous, .previous, .current]
  exact ⟨h, win, Prod.ext hanswers hwin, hshows.values, hshows.pulled⟩

end Navigator

end FlowTrace
