import FlowTrace.Command.Arguments
import FlowTrace.Command.Directory
import FlowTrace.Graph.Dot
import FlowTrace.Report.Diagnostic
import FlowTrace.Report.Graph
import FlowTrace.Report.State
import FlowTrace.Session.Journal

/-!
# Carrying out commands

What a command prints, what it reports, and how it ends: with 0 if all is well, with 1 if the
program has faults, and with 2 if it could not be carried out.
-/

namespace FlowTrace.Command

/-- What a command has from its surroundings. -/
structure World where
  environment : Settings.Environment
  standardInput : String
  /-- The home directory of someone, or of the one who asks if there is no name. -/
  home : String → Option String
  /-- The full path of a file. -/
  fullPath : String → String
  /-- The text of a file. -/
  contents : String → Except FileError String
  /-- How sets are gone through. -/
  order : NameSet.Enumeration := .byCodePoints
  /-- How texts are coloured. -/
  colored : Text.Coloring := Text.terminalColoring

/-- What a command has printed, piece by piece, and reported. -/
structure Transcript where
  printed : List String
  events : List Log.Event

namespace Transcript

def empty : Transcript := ⟨[], []⟩

/-- All that was printed; a line end follows each piece. -/
def text (t : Transcript) : String := String.join (t.printed.map (· ++ "\n"))

end Transcript

/-- Carrying out a part of a command. -/
abbrev Act := StateM Transcript

namespace Act

def print (text : String) : Act Unit :=
  modify fun t => { t with printed := t.printed ++ [text] }

def report (events : List Log.Event) : Act Unit :=
  modify fun t => { t with events := t.events ++ events }

end Act

open Act

/-- How a command ends. -/
inductive Ending where
  | fine
  | faulty
  | failed
deriving DecidableEq, Repr

def Ending.status : Ending → Nat
  | fine => 0
  | faulty => 1
  | failed => 2

/-- A command that cannot go on. -/
def fail (message : String) : Act Ending := do
  report [.failed message]
  return .failed

/-- A command that meets what it is not prepared for. -/
def failUnprepared (message : String) : Act Ending := fail ("Unhandled exception: " ++ message)

/-- A command that meets a number that it cannot read or write. -/
def failNumeral (e : Text.NumeralError) : Act Ending := failUnprepared e.message

/-- What is said when the kind of graph is blank. -/
def blankGraphMessage : String := "unhashable type: 'list'"

/-- What is said when the algorithm is blank. -/
def blankAlgorithmMessage : String := "[] is not a valid AlgorithmKind"

/-- What is said when the size of the window is blank. -/
def blankWindowMessage : String := "'<' not supported between instances of 'list' and 'int'"

/-- Go on with the text of a file, or of the standard input if the file is a dash. -/
def withText (w : World) (file : String) (k : String → Act Ending) : Act Ending :=
  if file = "-" then k w.standardInput
  else match usablePath w.home file with
    | .error e => failUnprepared e.message
    | .ok path =>
      match w.contents path with
      | .ok text => k text
      | .error e => fail (e.message (w.fullPath path))

/-- Go on with the program of a file; faults are printed. -/
def withProgram (w : World) (file : String) (color : Bool) (k : Program → Act Ending) :
    Act Ending :=
  withText w file fun text => do
    report (Journal.ofBuild text)
    match Program.ofText text (.countFrom 0) with
    | .ok p => k p
    | .error (.numeral e) => failNumeral e
    | .error (.rejected r) =>
      print (Report.diagnostics r.faults file (some text) color w.colored)
      return .faulty

def check (w : World) (file : String) (color : Bool) : Act Ending :=
  withProgram w file color fun p => do
    print ("ok: " ++ toString p.size ++ " instruction(s)")
    return .fine

def showGraph (w : World) (file : String) (color : Bool) (kind : Option GraphKind)
    (dot : Bool) : Act Ending :=
  withProgram w file color fun p =>
    match kind with
    | none => failUnprepared blankGraphMessage
    | some kind => do
      let (g, _) := FlowGraph.build kind p
      report [Journal.ofGraph g]
      print (if dot then g.toDot (some file) else Report.graph g color w.colored)
      return .fine

/-- The names between commas. -/
def splitNames (list : String) : List String :=
  (list.splitOn ",").map Text.trim |>.filter (!·.isEmpty)

/-- Report the end of an analysis at a step. -/
def finishAt (s : Session) (step : Int) : Act Ending := do
  let name := (s.active.map (·.selection.algorithm.name)).getD ""
  report [.shown name (step + 1)]
  return .fine

/-- Print the present state and go on while there is a next one, for at most `fuel` steps. -/
def printSteps (w : World) : Nat → Int → Session → Act Ending
  | 0, step, s => finishAt s step
  | fuel + 1, step, s =>
    match s.view w.order with
    | .error e => failNumeral e
    | .ok none => finishAt s step
    | .ok (some view) => do
      print (Report.state view (some step) s.settings.color w.colored)
      let (more, s') := s.canStepForward
      report (Journal.ofStep s s')
      if more then
        let s'' := s'.stepForward
        report (Journal.ofStep s' s'')
        printSteps w fuel (step + 1) s''
      else finishAt s' step

/-- Print the last state. -/
def printLast (w : World) (s : Session) : Act Ending := do
  let s' := s.stepToEnd
  report (Journal.ofStep s s')
  match s'.view w.order with
  | .error e => failNumeral e
  | .ok none => return .fine
  | .ok (some view) =>
    print (Report.state view none s.settings.color w.colored)
    return .fine

/-- Go on with the settings for running an analysis. -/
def withSettings (w : World) (options : RunOptions) (noColor : Bool) (k : Settings → Act Ending) :
    Act Ending := do
  let (settings, events) := Settings.ofEnvironment w.environment
  report events
  let override := fun windowSize =>
    settings.override
      { windowSize
        unbounded := if options.unbounded then some true else none
        color := if noColor then some false else none }
  let go := fun (settings : Settings) => do
    report (settings.warnings.map .oddSettings)
    k settings
  match options.window with
  | .blank => failUnprepared blankWindowMessage
  | .absent => go (override none)
  | .value n => go (override (some n))

/-- Run an algorithm on the program of a session and print its states. -/
def runOn (w : World) (s : Session) (options : RunOptions) (algorithm : Algorithm) :
    Act Ending := do
  let names := splitNames (options.liveOut.getD "")
  let (_, s) := s.select (.of algorithm (NameSet.ofList names))
  report (Journal.ofSelect s)
  if options.finalOnly then printLast w s
  else printSteps w ((s.active.map (·.stepBound)).getD 0 + 1) 0 s

def run (w : World) (file : String) (noColor : Bool) (options : RunOptions) : Act Ending :=
  withSettings w options noColor fun settings =>
    withText w file fun text => do
      let (faults, s) := (Session.new settings).setText text
      report (Journal.ofSetText text)
      match faults, options.algorithm with
      | .error e, _ => failNumeral e
      | .ok (_ :: _), _ =>
        let found := (s.rejection.map (·.faults)).getD []
        print (Report.diagnostics found file (some text) settings.color w.colored)
        return .faulty
      | .ok [], none => failUnprepared blankAlgorithmMessage
      | .ok [], some algorithm => runOn w s options algorithm

def perform (w : World) (i : Invocation) : Act Ending :=
  match i.task with
  | .check => check w i.file (!i.noColor)
  | .graph kind dot => showGraph w i.file (!i.noColor) kind dot
  | .run options => run w i.file i.noColor options

/-- The outcome of a command line. -/
structure Outcome where
  status : Nat
  printed : String
  log : List String
deriving DecidableEq, Repr

def versionLine : String := "tacflow 0.1.0\n"

/-- Read a command line and carry it out. -/
def execute (w : World) (args : List String) : Outcome :=
  match parseArguments args with
  | .error .usage => ⟨2, "", []⟩
  | .error .help => ⟨0, "", []⟩
  | .error .version => ⟨0, versionLine, []⟩
  | .ok i =>
    let (ending, t) := (perform w i).run .empty
    ⟨ending.status, t.text, Log.lines i.verbosity t.events⟩

end FlowTrace.Command
