import FlowTrace.Proofs.Navigator.Window

/-!
# Bounded and unbounded navigation

The navigator that keeps everything is a cursor that can go back to every position.  It takes a
value when it has to know whether there is one.  The sliding window answers the same as long as it
is not asked to go back to what it has dropped.
-/

namespace FlowTrace

variable {σ α : Type} [Source σ α] {s : List α}

open Track (width)

namespace Memo

/-- The values that are kept are the first ones of the source, which has the others to come. -/
structure Reads (s : List α) (m : Memo σ α) : Prop where
  values : m.values = s.take m.pulled
  source : Source.Yields m.source (s.drop m.pulled)
  exhausted : m.exhausted = true → m.pulled = s.length

/-- The values up to the farthest position were taken, and at most one more. -/
structure Follows (s : List α) (m : Memo σ α) (c : Cursor (.full s.length)) : Prop
    extends m.Reads s where
  index : m.index = c.position
  le_pulled : min s.length (c.farthest + 1) ≤ m.pulled
  pulled_le : m.pulled ≤ c.farthest + 2

variable {m : Memo σ α} {c : Cursor (.full s.length)}

theorem fill_of_ended (hend : m.exhausted = true) (count : Nat) : m.fill count = m := by
  rw [Memo.fill, hend]
  rfl

theorem fill_of_open (hopen : m.exhausted = false) (count : Nat) :
    m.fill count = { m with
      source := (Source.pull (count - m.pulled) m.source).2.1
      exhausted := (Source.pull (count - m.pulled) m.source).2.2
      values := m.values ++ (Source.pull (count - m.pulled) m.source).1 } := by
  rw [Memo.fill, hopen]
  rfl

theorem index_fill (m : Memo σ α) (count : Nat) : (m.fill count).index = m.index := by
  cases hend : m.exhausted with
  | true => rw [fill_of_ended hend]
  | false => rw [fill_of_open hend]

theorem prefix_fill (m : Memo σ α) (count : Nat) : m.values <+: (m.fill count).values := by
  cases hend : m.exhausted with
  | true => simp only [fill_of_ended hend, List.prefix_rfl]
  | false =>
    rw [fill_of_open hend]
    exact List.prefix_append _ _

theorem prefix_next (m : Memo σ α) : m.values <+: m.next.values := by
  rw [Memo.next]
  split
  · exact List.prefix_rfl
  · exact prefix_fill m _

namespace Reads

theorem pulled_le_length (h : m.Reads s) : m.pulled ≤ s.length := by
  have hlength := congrArg List.length h.values
  rw [List.length_take] at hlength
  exact Nat.le_trans (Nat.le_of_eq hlength) (Nat.min_le_right _ _)

/-- Values are taken until there are enough or the source has ended. -/
theorem fill (h : m.Reads s) (count : Nat) :
    (m.fill count).Reads s ∧ (m.fill count).pulled = max m.pulled (min count s.length) := by
  have hle := h.pulled_le_length
  cases hend : m.exhausted with
  | true =>
    have := h.exhausted hend
    rw [fill_of_ended hend]
    exact ⟨h, by omega⟩
  | false =>
    obtain ⟨hvalues, hrest, hended⟩ := h.source.pull (count - m.pulled)
    have hall : m.values ++ (Source.pull (count - m.pulled) m.source).1 =
        s.take (m.pulled + (count - m.pulled)) := by
      rw [hvalues, List.take_add, ← h.values]
    have hlength : (s.take (m.pulled + (count - m.pulled))).length =
        max m.pulled (min count s.length) := by
      rw [List.length_take]
      omega
    rw [fill_of_open hend, hall]
    refine ⟨⟨?_, ?_, ?_⟩, hlength⟩
    · show s.take _ = s.take (s.take _).length
      rw [hlength, List.take_eq_take_iff]
      omega
    · show Source.Yields _ (s.drop (s.take _).length)
      have hskip : s.drop (max m.pulled (min count s.length)) =
          s.drop (m.pulled + (count - m.pulled)) := by
        rw [List.drop_eq_drop_iff]
        omega
      rw [hlength, hskip, ← List.drop_drop]
      exact hrest
    · show (Source.pull (count - m.pulled) m.source).2.2 = true → (s.take _).length = s.length
      rw [hlength, hended, decide_eq_true_iff, List.length_drop]
      omega

end Reads

namespace Follows

theorem index_lt_iff (h : m.Follows s c) : m.index < m.values.length ↔ c.position < s.length := by
  have hle : m.pulled ≤ s.length := h.pulled_le_length
  have hpulled := h.le_pulled
  have hposition := c.position_le
  rw [h.index]
  show c.position < m.pulled ↔ _
  omega

theorem current?_eq (h : m.Follows s c) : m.current? = s[c.position]? := by
  rw [current?]
  by_cases hlt : m.index < m.values.length
  · have hpulled : m.index < m.pulled := hlt
    rw [h.values, List.getElem?_take_of_lt hpulled, h.index]
  · rw [List.getElem?_eq_none (Nat.le_of_not_lt hlt),
      List.getElem?_eq_none (Nat.le_of_not_lt ((not_congr h.index_lt_iff).mp hlt))]

/-- The value after the position is taken, if there is one. -/
theorem fill (h : m.Follows s c) : (m.fill (m.index + 2)).Follows s c := by
  obtain ⟨hreads, hpulled⟩ := h.toReads.fill (m.index + 2)
  have hindex := h.index
  have hposition := c.position_le
  have hle := h.le_pulled
  have hbound := h.pulled_le
  exact { hreads with
    index := (index_fill m _).trans hindex
    le_pulled := by omega
    pulled_le := by omega }

theorem hasNext_eq (h : m.Follows s c) : m.hasNext.1 = decide (c.position + 1 < s.length) := by
  have hle := h.pulled_le_length
  have hpulled := (h.toReads.fill (m.index + 2)).2
  rw [← h.index]
  show decide ((m.fill (m.index + 2)).index + 1 < (m.fill (m.index + 2)).pulled) = _
  rw [index_fill, hpulled, decide_eq_decide]
  omega

theorem hasPrevious_eq (h : m.Follows s c) : m.hasPrevious = decide (c.base < c.position) := by
  rw [hasPrevious, h.index]
  rfl

theorem next (h : m.Follows s c) : m.next.Follows s c.next := by
  have hposition := c.position_le
  rw [Memo.next]
  split
  · next hle =>
    have hend := (not_congr h.index_lt_iff).mp (Nat.not_lt.mpr hle)
    rw [Cursor.next_of_end (Nat.le_antisymm c.position_le_length (Nat.le_of_not_lt hend))]
    exact h
  · next hlt =>
    obtain ⟨hnext, hfarthest⟩ := Cursor.next_of_lt (h.index_lt_iff.mp (Nat.lt_of_not_le hlt))
    have hpulled := (h.toReads.fill (m.index + 2)).2
    have hindex := h.index
    have hle := h.le_pulled
    have hbound := h.pulled_le
    exact { h.fill.toReads with
      index := by
        show (m.fill (m.index + 2)).index + 1 = c.next.position
        rw [index_fill, hindex, hnext]
      le_pulled := by
        show _ ≤ (m.fill (m.index + 2)).pulled
        omega
      pulled_le := by
        show (m.fill (m.index + 2)).pulled ≤ _
        omega }

theorem previous (h : m.Follows s c) : m.previous.Follows s c.previous := by
  have hindex : m.index - 1 = max (c.position - 1) c.base := by
    rw [h.index]
    exact (Nat.max_eq_left (Nat.zero_le _)).symm
  exact { h.toReads with
    index := hindex
    le_pulled := by
      rw [Cursor.farthest_previous]
      exact h.le_pulled
    pulled_le := by
      rw [Cursor.farthest_previous]
      exact h.pulled_le }

theorem length_le_moveBound (h : m.Follows s c) :
    s.length ≤ c.position + (Navigator.memo m).moveBound := by
  have hbound := h.source.length_le
  rw [List.length_drop] at hbound
  show s.length ≤ c.position + (m.pulled + Source.bound m.source + 1)
  omega

end Follows

theorem follows_ofSource {source : σ} (h : Source.Yields source s) :
    (Memo.ofSource source).Follows s .start := by
  have hempty : Reads s ({ source, exhausted := false, values := [], index := 0 } : Memo σ α) :=
    ⟨rfl, h, nofun⟩
  obtain ⟨hreads, hpulled⟩ := hempty.fill 1
  have hpulled : (Memo.ofSource source).pulled = max 0 (min 1 s.length) := hpulled
  exact { hreads with
    index := index_fill _ 1
    le_pulled := by
      show min s.length (0 + 1) ≤ (Memo.ofSource source).pulled
      omega
    pulled_le := by
      show (Memo.ofSource source).pulled ≤ 0 + 2
      omega }

end Memo

namespace Cursor

/-- The same position on different tracks. -/
structure Same {t t' : Track} (c : Cursor t) (c' : Cursor t') : Prop where
  position : c.position = c'.position
  farthest : c.farthest = c'.farthest

variable {t : Track} {c : Cursor t} {c' : Cursor (.full t.length)}

/-- Moves to the same position. -/
theorem Same.moved (h : c.Same c') {d : Cursor t} {d' : Cursor (.full t.length)}
    (hd : d.farthest = max c.farthest d.position) (hd' : d'.farthest = max c'.farthest d'.position)
    (hposition : d.position = d'.position) : d.Same d' where
  position := hposition
  farthest := by rw [hd, hd', h.farthest, hposition]

/-- A cursor that does not have to go back before its base moves like one without. -/
theorem Same.step (h : c.Same c') (s : List α) (call : Call) (hask : call ≠ .hasPrevious)
    (hback : call = .previous → c.base < c.position ∨ c.position = 0) :
    (c.step s call).1 = (c'.step s call).1 ∧ (c.step s call).2.Same (c'.step s call).2 := by
  have hposition := h.position
  cases call with
  | next =>
    refine ⟨rfl, h.moved rfl rfl ?_⟩
    show min (c.position + 1) t.length = min (c'.position + 1) t.length
    rw [hposition]
  | previous =>
    refine ⟨rfl, h.moved rfl rfl ?_⟩
    show max (c.position - 1) c.base = max (c'.position - 1) 0
    have hlow : c.base ≤ c.position - 1 := by
      have hle : c.base ≤ c.position := c.base_le
      have := hback rfl
      omega
    rw [Nat.max_eq_left hlow, Nat.max_eq_left (Nat.zero_le _), hposition]
  | toEnd =>
    refine ⟨rfl, h.moved rfl rfl ?_⟩
    show max c.position (t.length - 1) = max c'.position (t.length - 1)
    rw [hposition]
  | hasNext =>
    refine ⟨?_, h⟩
    show Answer.flag (c.position + 1 < t.length) = .flag (c'.position + 1 < t.length)
    rw [hposition]
  | hasPrevious => exact absurd rfl hask
  | current =>
    refine ⟨?_, h⟩
    show Answer.value s[c.position]? = .value s[c'.position]?
    rw [hposition]

end Cursor

namespace Navigator

/-- The values `kept` stay the first ones. -/
theorem simulates_memo (s kept : List α) :
    Simulates s (.full s.length)
      (fun nav c => ∃ m : Memo σ α, nav = .memo m ∧ m.Follows s c ∧ kept <+: m.values) where
  position := by
    rintro _ c ⟨m, rfl, h, -⟩
    exact h.index
  current := by
    rintro _ c ⟨m, rfl, h, -⟩
    exact h.current?_eq
  hasNext := by
    rintro _ c ⟨m, rfl, h, hkept⟩
    exact ⟨h.hasNext_eq, _, rfl, h.fill, hkept.trans (Memo.prefix_fill m _)⟩
  hasPrevious := by
    rintro _ c ⟨m, rfl, h, -⟩
    exact h.hasPrevious_eq
  next := by
    rintro _ c ⟨m, rfl, h, hkept⟩
    exact ⟨m.next, rfl, h.next, hkept.trans m.prefix_next⟩
  previous := by
    rintro _ c ⟨m, rfl, h, hkept⟩
    exact ⟨m.previous, rfl, h.previous, hkept⟩
  length_le := by
    rintro _ c ⟨m, rfl, h, -⟩
    exact h.length_le_moveBound

/-- Going back is permitted if there is a previous value, and at the start, where it does nothing.
What cannot be asked is whether there is a previous value. -/
def Permits (nav : Navigator σ α) : Call → Prop
  | .previous => nav.hasPrevious = true ∨ nav.position = 0
  | .hasPrevious => False
  | _ => True

/-- A navigator answers like one that can go back to every position, as far as the calls are
permitted. -/
theorem Simulates.run_eq {t : Track} {R : Navigator σ α → Cursor t → Prop}
    {R' : Navigator σ α → Cursor (.full t.length) → Prop} (hsim : Simulates s t R)
    (hsim' : Simulates s (.full t.length) R') {nav nav' : Navigator σ α} {calls : List Call}
    (hcalls : Call.Permitted Permits Navigator.step calls nav) (h : R nav .start)
    (h' : R' nav' .start) : (nav.run calls).1 = (nav'.run calls).1 := by
  have hstep : ∀ call nav nav', Permits nav call →
      (∃ c c', R nav c ∧ R' nav' c' ∧ c.Same c') →
      (nav.step call).1 = (nav'.step call).1 ∧
        ∃ c c', R (nav.step call).2 c ∧ R' (nav'.step call).2 c' ∧ c.Same c' := by
    rintro call nav nav' hpermits ⟨c, c', h, h', hsame⟩
    obtain ⟨hanswer, hnext⟩ := hsim.step call h
    obtain ⟨hanswer', hnext'⟩ := hsim'.step call h'
    obtain ⟨heq, hsame⟩ := hsame.step s call
      (by rintro rfl; exact hpermits)
      (by
        rintro rfl
        rcases hpermits with hprevious | hstart
        · rw [hsim.hasPrevious h, decide_eq_true_iff] at hprevious
          exact .inl hprevious
        · rw [hsim.position h] at hstart
          exact .inr hstart)
    exact ⟨by rw [hanswer, hanswer', heq], _, _, hnext, hnext', hsame⟩
  exact (Call.run_related hstep hcalls ⟨.start, .start, h, h', rfl, rfl⟩).1

/-- **Bounded and unbounded navigation.**  The two navigators give the same answers if the calls are
permitted by the bounded one, and to any calls if the values fit into the window and the one beside
it.  The unbounded navigator has taken at most two values more than the farthest position, it has
all of them and drops none. -/
theorem run_bounded_eq_run_unbounded {source : σ} (h : Source.Yields source s) (size : Int)
    (calls : List Call) :
    (Call.Permitted Permits step calls (ofSource source size false) →
      ((ofSource source size false).run calls).1 = ((ofSource source size true).run calls).1) ∧
    (s.length ≤ width size + 1 →
      ((ofSource source size false).run calls).1 = ((ofSource source size true).run calls).1) ∧
    ∃ m, ((ofSource source size true).run calls).2 = .memo m ∧
      m.index = (Cursor.run s (.full s.length) calls).2.position ∧
      m.pulled ≤ (Cursor.run s (.full s.length) calls).2.farthest + 2 ∧
      m.values = s.take m.pulled ∧ Source.Yields m.source (s.drop m.pulled) ∧
      ∀ k, ∃ m', ((ofSource source size true).run (calls.take k)).2 = .memo m' ∧
        m'.values <+: m.values := by
  have hwindow : ∃ win : Window σ α, ofSource source size false = .window win ∧
      win.Follows s size .start :=
    ⟨.ofSource source size, rfl, Window.follows_ofSource h size⟩
  have hmemo : ∃ m : Memo σ α, ofSource source size true = .memo m ∧ m.Follows s .start ∧
      [] <+: m.values :=
    ⟨.ofSource source, rfl, Memo.follows_ofSource h, List.nil_prefix⟩
  refine ⟨?_, ?_, ?_⟩
  · intro hcalls
    exact (simulates_window s size).run_eq (simulates_memo s []) hcalls hwindow hmemo
  · intro hfits
    have hbounded : ((ofSource source size false).run calls).1 =
        (Cursor.run s (.sliding s.length size) calls).1 :=
      ((simulates_window s size).run calls hwindow).1
    rw [hbounded, Track.sliding_eq_full hfits]
    exact ((simulates_memo s []).run calls hmemo).1.symm
  · obtain ⟨-, m, hm, hfollows, -⟩ := (simulates_memo s []).run calls hmemo
    refine ⟨m, hm, hfollows.index, hfollows.pulled_le, hfollows.values, hfollows.source,
      fun k => ?_⟩
    -- the values after the first `k` calls are kept by the others
    obtain ⟨-, m', hm', hfollows', -⟩ := (simulates_memo s []).run (calls.take k) hmemo
    obtain ⟨-, m'', hm'', -, hkept⟩ := (simulates_memo s m'.values).run (calls.drop k)
      ⟨m', rfl, hfollows', List.prefix_rfl⟩
    rw [← hm', ← Call.run_append, List.take_append_drop, hm] at hm''
    cases hm''
    exact ⟨m', hm', hkept⟩

/-- Permitted calls on a window of two of five values, and others on one that all fit into. -/
theorem run_bounded_eq_run_unbounded_of_five :
    Source.Yields [1, 2, 3, 4, 5] [1, 2, 3, 4, 5] ∧
    Call.Permitted Permits step
      [.previous, .next, .next, .next, .previous, .toEnd, .hasNext, .next, .previous, .current]
      (ofSource [1, 2, 3, 4, 5] 2 false) ∧
    ((ofSource [1, 2, 3, 4, 5] 2 false).run
      [.previous, .next, .next, .next, .previous, .toEnd, .hasNext, .next, .previous, .current]).1 =
    ((ofSource [1, 2, 3, 4, 5] 2 true).run
      [.previous, .next, .next, .next, .previous, .toEnd, .hasNext, .next, .previous, .current]).1 ∧
    [1, 2, 3, 4, 5].length ≤ width 4 + 1 ∧
    ((ofSource [1, 2, 3, 4, 5] 4 false).run [.toEnd, .next, .previous, .hasPrevious]).1 =
      ((ofSource [1, 2, 3, 4, 5] 4 true).run [.toEnd, .next, .previous, .hasPrevious]).1 := by
  have h := Source.yields_list [1, 2, 3, 4, 5]
  have hcalls : Call.Permitted Permits step
      [.previous, .next, .next, .next, .previous, .toEnd, .hasNext, .next, .previous, .current]
      (ofSource [1, 2, 3, 4, 5] 2 false) :=
    ⟨.inr rfl, trivial, trivial, trivial, .inl rfl, trivial, trivial, trivial, .inl rfl, trivial,
      trivial⟩
  have hfits : [1, 2, 3, 4, 5].length ≤ width 4 + 1 := by decide
  exact ⟨h, hcalls, (run_bounded_eq_run_unbounded h 2 _).1 hcalls, hfits,
    (run_bounded_eq_run_unbounded h 4 _).2.1 hfits⟩

end Navigator

end FlowTrace
