import FlowTrace.Proofs.Dataflow.Independence
import FlowTrace.Proofs.Session.Stepping

/-!
# Selecting an analysis again

Each selection takes new ids for an entry and an exit, so what was done in a session before shows in
the ids of its next graph.  It shows nowhere else: the trace is that of a fresh session, with other
ids of the entry and of the exit.
-/

namespace FlowTrace

/-- Where a cursor goes depends on the number of values and not on the values. -/
theorem Cursor.run_values {α β : Type} {t : Track} (s : List α) (s' : List β) (calls : List Call) :
    (Cursor.run s t calls).2 = (Cursor.run s' t calls).2 := by
  have hrun : ∀ c : Cursor t,
      (Call.run (Cursor.step s) calls c).2 = (Call.run (Cursor.step s') calls c).2 := by
    induction calls with
    | nil => exact fun _ => rfl
    | cons call calls ih =>
      intro c
      cases call <;> exact ih _
  exact hrun .start

theorem Program.SameCode.dataNodes_graph {p q : Program} (h : p.SameCode q) (kind : GraphKind) :
    (q.graph kind).dataNodes = (p.graph kind).dataNodes := by
  rw [FlowGraph.dataNodes, FlowGraph.dataNodes, graph_covered, graph_covered, h.eq_withSupply]
  cases kind <;> rfl

namespace Session

/-! ## Histories -/

/-- What can be done in a session with its program. -/
inductive Action where
  | select (selection : Selection)
  | deselect
  | call (c : Call)

def act (s : Session) : Action → Session
  | .select selection => (s.select selection).2
  | .deselect => s.deselect
  | .call c => s.call c

/-- The session after some actions, one after the other. -/
def follow (s : Session) (history : List Action) : Session := history.foldl act s

/-- The session has a program of this code and these settings. -/
structure Holds (s : Session) (settings : Settings) (p : Program) : Prop where
  settings_eq : s.settings = settings
  exists_program : ∃ q, s.program = some q ∧ q.Verified ∧ p.SameCode q

variable {s : Session} {settings : Settings} {p : Program}

theorem call_eq (s : Session) (c : Call) : ∃ active, s.call c = { s with active } := by
  cases c with
  | next | previous | toEnd => exact ⟨_, rfl⟩
  | hasNext =>
    rw [call, canStepForward]
    split
    · exact ⟨s.active, rfl⟩
    · exact ⟨_, rfl⟩
  | hasPrevious | current => exact ⟨s.active, rfl⟩

theorem Holds.act (h : s.Holds settings p) (action : Action) : (s.act action).Holds settings p := by
  obtain ⟨hsettings, q, hq, hverified, hsame⟩ := h
  cases action with
  | select selection =>
    rw [Session.act, select, hq]
    exact ⟨hsettings, _, rfl, hverified.reserve.reserve, hsame.reserve.reserve⟩
  | deselect => exact ⟨hsettings, q, hq, hverified, hsame⟩
  | call c =>
    obtain ⟨active, hcall⟩ := s.call_eq c
    rw [Session.act, hcall]
    exact ⟨hsettings, q, hq, hverified, hsame⟩

theorem Holds.follow (h : s.Holds settings p) (history : List Action) :
    (s.follow history).Holds settings p := by
  induction history generalizing s with
  | nil => exact h
  | cons action history ih => exact ih (h.act action)

/-! ## Two sessions -/

/-- Two sessions that select an analysis, and then get the same calls, stand at the same position
of their traces if these are equally long. -/
theorem exists_shows_both {s s' : Session} {q : Program} (hs : s.program = some p)
    (hs' : s'.program = some q) (hp : p.Verified) (hq : q.Verified)
    (hsettings : s'.settings = s.settings) (selection : Selection)
    (hlength : (selection.analysis.problem (q.graph selection.algorithm.graphKind)).trace.length =
      (selection.analysis.problem (p.graph selection.algorithm.graphKind)).trace.length)
    (calls : List Call) :
    let problem := selection.analysis.problem (p.graph selection.algorithm.graphKind)
    let problem' := selection.analysis.problem (q.graph selection.algorithm.graphKind)
    ∃ k, ((s.select selection).2.after calls).Shows selection problem k problem.trace[k]? ∧
      ((s'.select selection).2.after calls).Shows selection problem' k problem'.trace[k]? := by
  intro problem problem'
  obtain ⟨R, hsim, hR⟩ := exists_simulates selection.analysis
    (hp.wellFormed.graph selection.algorithm.graphKind) s.settings calls
  obtain ⟨R', hsim', hR'⟩ := exists_simulates selection.analysis
    (hq.wellFormed.graph selection.algorithm.graphKind) s'.settings calls
  have hshows := shows_of_simulates hsim (active_select_after hs selection calls) rfl hR
  have hshows' := shows_of_simulates hsim' (active_select_after hs' selection calls) rfl hR'
  -- The two tracks are the same, but as types only once their lengths are.
  have hposition : ∀ {n n' : Nat}, n' = n →
      (Cursor.run problem'.trace (s'.settings.track n') calls).2.position =
        (Cursor.run problem.trace (s.settings.track n) calls).2.position := by
    rintro n _ rfl
    rw [hsettings, Cursor.run_values problem'.trace problem.trace]
  rw [hposition hlength] at hshows'
  exact ⟨_, hshows, hshows'⟩

end Session

namespace Program

/-- **Traces do not depend on the ids.**  The same instructions under ids from another supply give
graphs whose nodes and edges correspond by their places, and every analysis has traces on them that
correspond at every step.  So do the traces of a session in which an analysis is selected at first
and after any history of actions; there only the ids of the entry and of the exit may differ. -/
theorem traces_independent_of_ids {instrs : List Instr} {supply supply' : Supply} {p : Program}
    (hsupply : supply.Distinct) (hsupply' : supply'.Distinct)
    (hp : ofInstrs instrs supply = .ok p) :
    (∃ q, ofInstrs instrs supply' = .ok q ∧ ∀ kind,
      (p.graph kind).Corresponds (q.graph kind) ∧
        ∀ a : Analysis, a.Corresponds (p.graph kind) (q.graph kind)) ∧
    ∀ (s : Session) (history : List Session.Action) (selection : Selection), s.program = some p →
      let a := selection.analysis
      let g := p.graph selection.algorithm.graphKind
      let fresh := s.select selection
      let again := (s.follow history).select selection
      ∃ g', g.Corresponds g' ∧ g'.dataNodes = g.dataNodes ∧ a.Corresponds g g' ∧
        fresh.1 = true ∧ again.1 = true ∧ ∀ calls, ∃ k,
          (fresh.2.after calls).Shows selection (a.problem g) k (a.problem g).trace[k]? ∧
          (again.2.after calls).Shows selection (a.problem g') k (a.problem g').trace[k]? := by
  have hverified : p.Verified := .ofInstrs hsupply hp
  have hinstrs : ∀ {s : Supply} {p : Program}, ofInstrs instrs s = .ok p →
      p.code.map Prod.snd = instrs := by
    intro s p hp
    rw [(ofInstrs_eq_ok hp).1, map_snd_number]
  constructor
  · obtain ⟨q, hq⟩ := exists_ofInstrs hsupply hsupply' hp
    exact ⟨q, hq, hverified.corresponds (.ofInstrs hsupply' hq)
      ((hinstrs hq).trans (hinstrs hp).symm)⟩
  · intro s history selection hs a g fresh again
    have hholds : s.Holds s.settings p := ⟨rfl, p, hs, hverified, .refl p⟩
    obtain ⟨hsettings, q, hq, hqverified, hsame⟩ := hholds.follow history
    obtain ⟨hgraph, htraces⟩ := hverified.corresponds hqverified
      (congrArg (List.map Prod.snd) hsame.code_eq) selection.algorithm.graphKind
    exact ⟨q.graph selection.algorithm.graphKind, hgraph, hsame.dataNodes_graph _, htraces a,
      (Session.active_select hs selection).1, (Session.active_select hq selection).1,
      Session.exists_shows_both hs hq hverified hqverified hsettings selection
        (htraces a).length_eq⟩

/-- A loop under decreasing ids, and under its own after another analysis was stepped through. -/
theorem countdown_traces_independent_of_ids :
    let supply : Supply := ⟨[7, 5, 3, 1, -2], 8⟩
    let s : Session := ⟨⟨1, false, false⟩, none, some countdown, [], none, none⟩
    let history : List Session.Action :=
      [.select ⟨.livenessSingle, ∅⟩, .call .next, .call .toEnd, .deselect]
    let selection : Selection := ⟨.constantPropagation, ∅⟩
    supply.Distinct ∧ ofInstrs countdownBody (.countFrom 0) = .ok countdown ∧
      s.program = some countdown ∧
      (∃ q, ofInstrs countdownBody supply = .ok q ∧
        (countdown.graph .blocks).Corresponds (q.graph .blocks) ∧
        Analysis.constants.Corresponds (countdown.graph .blocks) (q.graph .blocks)) ∧
      ∃ g', g'.dataNodes = (countdown.graph .blocks).dataNodes ∧
        Analysis.constants.Corresponds (countdown.graph .blocks) g' ∧
        ∀ calls, ∃ k, ((((s.follow history).select selection).2).after calls).Shows selection
          (Constants.problem g') k (Constants.problem g').trace[k]? := by
  intro supply s history selection
  have hsupply : supply.Distinct := Supply.distinct_of_listed_lt (by decide) (by decide)
  have hp : ofInstrs countdownBody (.countFrom 0) = .ok countdown := rfl
  obtain ⟨⟨q, hq, hkinds⟩, hsessions⟩ :=
    traces_independent_of_ids (Supply.distinct_countFrom 0) hsupply hp
  obtain ⟨g', -, hdata, htraces, -, -, hshows⟩ := hsessions s history selection rfl
  exact ⟨hsupply, hp, rfl, ⟨q, hq, (hkinds .blocks).1, (hkinds .blocks).2 .constants⟩, g', hdata,
    htraces, fun calls => (hshows calls).imp fun _ h => h.2⟩

end Program

end FlowTrace
