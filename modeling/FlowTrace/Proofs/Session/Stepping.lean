import FlowTrace.Proofs.Dataflow.Analysis
import FlowTrace.Proofs.Navigator.Memo
import FlowTrace.Session.Basic

/-!
# Stepping through an analysis

What a session shows is the trace of its analysis.  A run that is on course is a finite source, so
the navigator of a session simulates a cursor over the snapshots that a fresh run gives; with a
window or without one, it stands at the cursor's position and shows the snapshot there.
-/

namespace FlowTrace

/-! ## Runs as sources -/

namespace Run

variable {α β : Type} [SemilatticeSup β] [OrderBot β] {p : Problem α} {R : p.Reading β}
  {H : R.Height} {r : Run α} {l : List (Snapshot α)}

/-- The bound of a run stays the same, so what is left stays within it. -/
theorem OnCourse.source_yields (h : OnCourse H r) (hg : p.graph.WellFormed) (hl : r.Yields l)
    (hbound : l.length ≤ r.pauseBound) : Source.Yields r l := by
  induction hl with
  | done hnone => exact .ended hnone
  | @next r r' s rest hs _ ih =>
    have h' := h.next hg hs
    have hsame : r'.pauseBound = r.pauseBound := by
      rw [pauseBound, pauseBound, h'.problem_eq, h.problem_eq]
    rw [List.length_cons] at hbound
    exact .value hs hbound (ih h' (by omega))

end Run

/-- The trace of a problem stays within the bound of its run. -/
theorem Problem.Reading.source_yields_trace {α β : Type} [SemilatticeSup β] [OrderBot β]
    {p : Problem α} (R : p.Reading β) (H : R.Height) (hg : p.graph.WellFormed) :
    Source.Yields (Run.start p) p.trace := by
  have hyields := R.yields_trace H hg
  have hstart := Run.onCourse_start H
  obtain ⟨l, hl, hlength, -⟩ := hstart.exists_yields hg
  rw [hl.unique hyields] at hlength
  exact hstart.source_yields hg hyields (hlength.trans (Run.left_start_le p))

/-! ## Navigators of either kind -/

/-- The positions that a navigator can go back to. -/
def Settings.track (settings : Settings) (n : Nat) : Track :=
  match settings.unbounded with
  | true => .full n
  | false => .sliding n settings.windowSize

@[simp] theorem Settings.length_track (settings : Settings) (n : Nat) :
    (settings.track n).length = n := by
  rw [track]
  split <;> rfl

/-- From before the end, going there leads to the last value. -/
theorem Cursor.position_toEnd {t : Track} {c : Cursor t} (h : c.position < t.length) :
    c.toEnd.position = t.length - 1 := Nat.max_eq_right (Nat.le_sub_one_of_lt h)

theorem Navigator.exists_simulates {σ α : Type} [Source σ α] {source : σ} {s : List α}
    (h : Source.Yields source s) (settings : Settings) :
    ∃ R : Navigator σ α → Cursor (settings.track s.length) → Prop,
      Simulates s (settings.track s.length) R ∧
        R (.ofSource source settings.windowSize settings.unbounded) .start := by
  rw [Settings.track]
  cases settings.unbounded with
  | true =>
    exact ⟨_, simulates_memo s [], .ofSource source, rfl, Memo.follows_ofSource h, List.nil_prefix⟩
  | false =>
    exact ⟨_, simulates_window s settings.windowSize, .ofSource source settings.windowSize, rfl,
      Window.follows_ofSource h settings.windowSize⟩

/-! ## Sessions -/

/-- The analysis that is selected. -/
def Selection.analysis (s : Selection) : Analysis :=
  match s.algorithm with
  | .livenessSingle | .livenessBlocks => .liveness s.liveOut none
  | .reachingDefinitions => .reaching
  | .constantPropagation => .constants

instance (a : Analysis) : Viewable a.Fact :=
  match a with
  | .liveness _ _ | .reaching => inferInstanceAs (Viewable NameSet)
  | .constants => inferInstanceAs (Viewable ConstMap)

/-- The view of what is shown, if anything is. -/
def Snapshot.viewShown {α : Type} [Viewable α] (order : NameSet.Enumeration)
    (algorithm : Algorithm) (problem : Problem α) :
    Option (Snapshot α) → Except Text.NumeralError (Option StateView)
  | none => .ok none
  | some t => (t.view order algorithm problem).map some

theorem Execution.view_eq {α : Type} [Viewable α] (order : NameSet.Enumeration)
    (e : Execution α) : e.view order =
      Snapshot.viewShown order e.selection.algorithm e.problem e.navigator.current? := by
  rw [view]
  cases e.navigator.current? <;> rfl

namespace Active

/-- A running analysis. -/
def of : (a : Analysis) → Execution a.Fact → Active
  | .liveness _ _, e => names e
  | .reaching, e => names e
  | .constants, e => constants e

theorem start_eq (selection : Selection) (g : FlowGraph) (settings : Settings) :
    Active.start selection g settings =
      of selection.analysis (.start selection (selection.analysis.problem g) settings) := by
  obtain ⟨algorithm, liveOut⟩ := selection
  cases algorithm <;> rfl

variable (a : Analysis) (e : Execution a.Fact)

theorem move_of
    (f : ∀ {α : Type}, Navigator (Run α) (Snapshot α) → Navigator (Run α) (Snapshot α)) :
    (of a e).move f = of a { e with navigator := f e.navigator } := by
  cases a <;> rfl

theorem hasNext_of : (of a e).hasNext =
    (e.navigator.hasNext.1, of a { e with navigator := e.navigator.hasNext.2 }) := by
  cases a <;> rfl

theorem hasPrevious_of : (of a e).hasPrevious = e.navigator.hasPrevious := by
  cases a <;> rfl

theorem view_of (order : NameSet.Enumeration) : (of a e).view order = e.view order := by
  cases a <;> rfl

end Active

namespace Session

/-- The session after a call. -/
def call (s : Session) : Call → Session
  | .next => s.stepForward
  | .previous => s.stepBackward
  | .toEnd => s.stepToEnd
  | .hasNext => s.canStepForward.2
  | .hasPrevious | .current => s

/-- The session after some calls, one after the other. -/
def after (s : Session) (calls : List Call) : Session := calls.foldl call s

variable {a : Analysis} {e : Execution a.Fact} {s : Session}

/-- A call acts on the navigator alone. -/
theorem active_call (h : s.active = some (.of a e)) (c : Call) :
    (s.call c).active =
      some (.of a { e with navigator := (Navigator.step c e.navigator).2 }) := by
  cases c with
  | next => simp only [call, stepForward, move, h, Option.map_some, Active.move_of]; rfl
  | previous => simp only [call, stepBackward, move, h, Option.map_some, Active.move_of]; rfl
  | toEnd => simp only [call, stepToEnd, move, h, Option.map_some, Active.move_of]; rfl
  | hasNext => simp only [call, canStepForward, h, Active.hasNext_of]; rfl
  | hasPrevious => exact h
  | current => exact h

theorem active_after (h : s.active = some (.of a e)) (calls : List Call) :
    (s.after calls).active =
      some (.of a { e with navigator := (e.navigator.run calls).2 }) := by
  induction calls generalizing s e with
  | nil => exact h
  | cons c calls ih => exact ih (active_call h c)

/-- The navigator stands at a position and has this snapshot, if any; it is also what is viewed,
however sets are gone through. -/
structure Shows (s : Session) (selection : Selection) (problem : Problem selection.analysis.Fact)
    (position : Nat) (shown? : Option (Snapshot selection.analysis.Fact)) : Prop where
  exists_active : ∃ e : Execution selection.analysis.Fact, s.active = some (.of _ e) ∧
    e.navigator.position = position ∧ e.navigator.current? = shown?
  view_eq : ∀ order, s.view order = Snapshot.viewShown order selection.algorithm problem shown?

variable {selection : Selection} {g : FlowGraph} {p : Program} {calls : List Call}

/-- A selected analysis is one whose navigator is at the start. -/
theorem active_select (hs : s.program = some p) (selection : Selection) :
    (s.select selection).1 = true ∧ (s.select selection).2.active =
      some (.of selection.analysis (.start selection
        (selection.analysis.problem (p.graph selection.algorithm.graphKind)) s.settings)) := by
  rw [select, hs]
  exact ⟨rfl, congrArg some (Active.start_eq selection _ s.settings)⟩

/-- While the navigator simulates a cursor, the session shows what is at the position. -/
theorem shows_of_simulates {l : List (Snapshot selection.analysis.Fact)} {t : Track}
    {R : Navigator (Run selection.analysis.Fact) (Snapshot selection.analysis.Fact) →
      Cursor t → Prop}
    (hsim : Navigator.Simulates l t R) {c : Cursor t} {e : Execution selection.analysis.Fact}
    (hactive : s.active = some (.of selection.analysis e)) (hselection : e.selection = selection)
    (h : R e.navigator c) : s.Shows selection e.problem c.position l[c.position]? where
  exists_active := ⟨e, hactive, hsim.position h, hsim.current h⟩
  view_eq order := by
    rw [view, hactive]
    change (Active.of _ e).view order = _
    rw [Active.view_of, Execution.view_eq, hsim.current h, hselection]

/-- The navigator of a selected analysis simulates a cursor over the trace. -/
theorem exists_simulates (a : Analysis) (hg : g.WellFormed) (settings : Settings)
    (calls : List Call) :
    let problem := a.problem g
    let track := settings.track problem.trace.length
    let nav : Navigator (Run a.Fact) (Snapshot a.Fact) :=
      .ofSource (Run.start problem) settings.windowSize settings.unbounded
    ∃ R, Navigator.Simulates problem.trace track R ∧
      R (nav.run calls).2 (Cursor.run problem.trace track calls).2 := by
  intro problem track nav
  obtain ⟨R, hsim, hstart⟩ := Navigator.exists_simulates
    ((a.reading g).source_yields_trace (a.height g) (a.wellFormed_graph hg)) settings
  exact ⟨R, hsim, (hsim.run calls hstart).2⟩

/-- The session after an analysis was selected and some calls were made. -/
theorem active_select_after (hs : s.program = some p) (selection : Selection) (calls : List Call) :
    let problem := selection.analysis.problem (p.graph selection.algorithm.graphKind)
    let e := Execution.start selection problem s.settings
    ((s.select selection).2.after calls).active =
      some (.of selection.analysis { e with navigator := (e.navigator.run calls).2 }) :=
  active_after (active_select hs selection).2 calls

/-- **What a session shows is the trace of its analysis.**  After an analysis was selected and any
calls were made, the session shows the snapshot of a fresh run at the position of the cursor, and
stepping to the end shows the last one. -/
theorem select_shows_trace (hs : s.program = some p) (hp : p.Verified) (selection : Selection)
    (calls : List Call) :
    let problem := selection.analysis.problem (p.graph selection.algorithm.graphKind)
    let c := (Cursor.run problem.trace (s.settings.track problem.trace.length) calls).2
    let s' := (s.select selection).2.after calls
    (s.select selection).1 = true ∧ (Run.start problem).Yields problem.trace ∧
      s'.Shows selection problem c.position problem.trace[c.position]? ∧
      (problem.trace[c.position]? = none ↔ c.position = problem.trace.length) ∧
      s'.canStepForward.1 = decide (c.position + 1 < problem.trace.length) ∧
      s'.canStepBackward = decide (c.base < c.position) ∧
      ∃ before last, problem.trace = before ++ [last] ∧ last.isFinal = true ∧
        (c.position < problem.trace.length →
          s'.stepToEnd.Shows selection problem before.length (some last)) := by
  intro problem c s'
  have hg := hp.wellFormed.graph selection.algorithm.graphKind
  have hwf := selection.analysis.wellFormed_graph hg
  obtain ⟨before, q, hyields, htrace, -, -⟩ :=
    (selection.analysis.reading _).exists_end (selection.analysis.height _) hwf
  rw [← htrace] at hyields
  obtain ⟨R, hsim, hR⟩ := exists_simulates selection.analysis hg s.settings calls
  have hafter := active_select_after hs selection calls
  have hlength : c.position ≤ problem.trace.length := by
    have hle := c.position_le_length
    rwa [Settings.length_track] at hle
  refine ⟨(active_select hs selection).1, hyields, shows_of_simulates hsim hafter rfl hR, ?_, ?_,
    ?_, before, _, htrace, rfl, fun hlt => ?_⟩
  · rw [List.getElem?_eq_none_iff]
    exact ⟨fun h => le_antisymm hlength h, fun h => h.ge⟩
  · have hnext := (hsim.hasNext hR).1
    rw [Settings.length_track] at hnext
    rw [canStepForward, hafter]
    simp only [Active.hasNext_of]
    exact hnext
  · rw [canStepBackward, hafter, Option.map_some, Active.hasPrevious_of]
    exact hsim.hasPrevious hR
  · -- The end is one more call, which takes the cursor to the last position.
    have hend : s'.stepToEnd.Shows selection problem c.toEnd.position
        problem.trace[c.toEnd.position]? :=
      shows_of_simulates hsim (active_call hafter .toEnd) rfl (hsim.step .toEnd hR).2
    have hposition : c.toEnd.position = before.length := by
      rw [Cursor.position_toEnd (by rwa [Settings.length_track]), Settings.length_track, htrace,
        List.length_append, List.length_singleton, Nat.add_sub_cancel]
    have hlast : problem.trace[before.length]? = some (q.pause .ended none).1 := by
      rw [htrace, List.getElem?_concat_length]
    rwa [hposition, hlast] at hend

/-- A loop in a window of the smallest size, stepped to its end from where it starts. -/
theorem countdown_select_shows_trace :
    let s : Session := ⟨⟨1, false, false⟩, none, some .countdown, [], none, none⟩
    let selection : Selection := ⟨.constantPropagation, ∅⟩
    let problem := Constants.problem (Program.countdown.graph .blocks)
    s.program = some .countdown ∧ Program.countdown.Verified ∧
      (s.select selection).1 = true ∧ (Run.start problem).Yields problem.trace ∧
      ∃ before last, problem.trace = before ++ [last] ∧ last.isFinal = true ∧
        ((s.select selection).2.after [.hasNext]).stepToEnd.Shows selection problem before.length
          (some last) := by
  intro s selection problem
  have hs : s.program = some .countdown := rfl
  obtain ⟨hselect, hyields, -, -, -, -, before, last, htrace, hfinal, hend⟩ :=
    select_shows_trace hs Program.verified_countdown selection [.hasNext]
  refine ⟨hs, Program.verified_countdown, hselect, hyields, before, last, htrace, hfinal, hend ?_⟩
  rw [htrace, List.length_append, List.length_singleton]
  exact Nat.succ_pos _

end Session

end FlowTrace
