import FlowTrace.Log
import FlowTrace.Session.Basic

/-!
# What a session reports

The events of building a program, starting an analysis and stepping through it.  They are a
function of what happens and have no influence on it.
-/

namespace FlowTrace.Journal

open Log

/-- The phases of building a program from a text, as far as they get. -/
def ofBuild (text : String) : List Event :=
  match Token.scan text with
  | .error r => [.notScanned r.faults.length]
  | .ok tokens =>
    .scanned tokens.length ::
    match Instr.ofTokens tokens with
    | .error (.rejected r) => [.notParsed r.faults.length]
    | .error (.numeral _) => []
    | .ok instrs =>
      .parsed instrs.length ::
      match Program.ofInstrs instrs (.countFrom 0) with
      | .error _ => []
      | .ok p => [.built p.size]

/-- Giving a text to a session. -/
def ofSetText (text : String) : List Event :=
  ofBuild text ++
    match Program.ofText text (.countFrom 0) with
    | .error (.rejected r) => [.rejected r.faults.length]
    | _ => []

/-- Building a graph. -/
def ofGraph (g : FlowGraph) : Event := .graphBuilt g.kind.adjective g.describe

variable {α : Type}

/-- Going from one pause of a run to the next. -/
def ofPause (before after : Run α) : List Event :=
  if before.stage = .finish then [.settled before.problem.name before.sweeps]
  else if before.sweeps < after.sweeps then
    [.swept before.problem.name after.sweeps (after.stage ≠ .finish)]
  else []

/-- The next `count` pauses of a run, each followed by some events of its own. -/
def ofPauses (afterEach : List Event) : Nat → Run α → List Event
  | 0, _ => []
  | count + 1, r =>
    match r.next? with
    | none => []
    | some (_, r') => ofPause r r' ++ afterEach ++ ofPauses afterEach count r'

/-- A window drops a value for each one that it takes while moving. -/
def ofPull : Navigator (Run α) (Snapshot α) → List Event
  | .window _ => [.dropped]
  | .memo _ => []

/-- A move of a navigator. -/
def ofMove (before after : Navigator (Run α) (Snapshot α)) : List Event :=
  ofPauses (ofPull before) (after.pulled - before.pulled) before.source

/-- Starting an analysis takes the first pauses of its run. -/
def ofStart (e : Execution α) : List Event :=
  [ofGraph e.problem.graph] ++
    (if e.selection.algorithm = .reachingDefinitions then [.tagged e.problem.markers.size]
     else []) ++
    ofPauses [] e.navigator.pulled (Run.start e.problem)

/-- Selecting an analysis, after which the session is as given. -/
def ofSelect (s : Session) : List Event :=
  match s.active with
  | none => []
  | some (.names e) => ofStart e ++ [.selected e.selection.algorithm.name]
  | some (.constants e) => ofStart e ++ [.selected e.selection.algorithm.name]

/-- Stepping from one state of a session to another. -/
def ofStep (before after : Session) : List Event :=
  match before.active, after.active with
  | some (.names e), some (.names e') => ofMove e.navigator e'.navigator
  | some (.constants e), some (.constants e') => ofMove e.navigator e'.navigator
  | _, _ => []

end FlowTrace.Journal
