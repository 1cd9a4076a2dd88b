import FlowTrace.Text.Quoted

/-!
# The log

What the parts of the program report about their work.  An event says what happened; its level, its
part and its wording follow from that.
-/

namespace FlowTrace.Log

inductive Level where
  | debug
  | info
  | warning
  | error
deriving DecidableEq, Repr

namespace Level

def name : Level → String
  | debug => "DEBUG"
  | info => "INFO"
  | warning => "WARNING"
  | error => "ERROR"

/-- The name, cut or filled up to five characters. -/
def column (l : Level) : String :=
  String.ofList ((l.name.toList ++ List.replicate 5 ' ').take 5)

def rank : Level → Nat
  | debug => 0
  | info => 1
  | warning => 2
  | error => 3

/-- The least level that is shown, by how often more was asked for. -/
def shownFrom : Nat → Level
  | 0 => warning
  | 1 => info
  | _ => debug

end Level

/-- The parts of the program. -/
inductive Part where
  | command
  | settings
  | tokens
  | instructions
  | program
  | graph
  | definitions
  | run
  | navigator
  | session
deriving DecidableEq, Repr

def Part.name : Part → String
  | command => "tacflow"
  | settings => "tacflow.config"
  | tokens => "tacflow.lexer"
  | instructions => "tacflow.parser"
  | program => "tacflow.program"
  | graph => "tacflow.cfg"
  | definitions => "tacflow.dataflow_analyses"
  | run => "tacflow.dataflow_engine"
  | navigator => "tacflow.stepper"
  | session => "tacflow.session"

/-- What happened. -/
inductive Event where
  /-- A text was cut into tokens. -/
  | scanned (tokens : Nat)
  /-- A text holds illegal tokens. -/
  | notScanned (faults : Nat)
  /-- Tokens were read as instructions. -/
  | parsed (instructions : Nat)
  /-- Tokens could not be read as instructions. -/
  | notParsed (faults : Nat)
  /-- Instructions were verified. -/
  | built (instructions : Nat)
  /-- A session was given a text that is no program. -/
  | rejected (faults : Nat)
  /-- A graph was built. -/
  | graphBuilt (title description : String)
  /-- The assignments of a graph were tagged. -/
  | tagged (definitions : Nat)
  /-- A run finished a sweep. -/
  | swept (problem : String) (sweeps : Nat) (changed : Bool)
  /-- A run reached its end. -/
  | settled (problem : String) (sweeps : Nat)
  /-- A window dropped its oldest value. -/
  | dropped
  /-- An analysis was started. -/
  | selected (algorithm : String)
  /-- All steps of an analysis were shown. -/
  | shown (algorithm : String) (steps : Int)
  /-- The value of a variable is no integer. -/
  | notInteger (name value : String)
  /-- The settings are odd. -/
  | oddSettings (warning : String)
  /-- A command cannot be carried out. -/
  | failed (message : String)
deriving DecidableEq, Repr

namespace Event

def level : Event → Level
  | scanned _ | notScanned _ | parsed _ | notParsed _ | graphBuilt _ _ | tagged _ | swept _ _ _
  | dropped => .debug
  | built _ | rejected _ | settled _ _ | selected _ | shown _ _ => .info
  | notInteger _ _ | oddSettings _ => .warning
  | failed _ => .error

def part : Event → Part
  | scanned _ | notScanned _ => .tokens
  | parsed _ | notParsed _ => .instructions
  | built _ => .program
  | graphBuilt _ _ => .graph
  | tagged _ => .definitions
  | swept _ _ _ | settled _ _ => .run
  | dropped => .navigator
  | rejected _ | selected _ => .session
  | notInteger _ _ => .settings
  | shown _ _ | oddSettings _ | failed _ => .command

def message : Event → String
  | scanned n => "lexed " ++ toString n ++ " token(s)"
  | notScanned n => "lexing failed with " ++ toString n ++ " illegal token(s)"
  | parsed n => "parsed " ++ toString n ++ " instruction(s)"
  | notParsed n => "parsing failed with " ++ toString n ++ " error(s)"
  | built n => "built program with " ++ toString n ++ " instruction(s)"
  | rejected n => "program rejected with " ++ toString n ++ " error(s)"
  | graphBuilt title description => title ++ " graph: " ++ description
  | tagged n => "tagged " ++ toString n ++ " definition(s)"
  | swept problem n changed =>
    problem ++ ": sweep " ++ toString n ++ " done, changed=" ++
      (if changed then "True" else "False")
  | settled problem n => problem ++ ": fixed point after " ++ toString n ++ " sweep(s)"
  | dropped => "window advanced, oldest step dropped"
  | selected algorithm => "selected " ++ algorithm
  | shown algorithm n => algorithm ++ " finished after " ++ toString n ++ " step(s)"
  | notInteger name value =>
    "ignoring " ++ name ++ "=" ++ Text.quote value ++ ": not an integer"
  | oddSettings warning => warning
  | failed message => message

/-- The event as a line. -/
def line (e : Event) : String :=
  "[" ++ e.level.column ++ "] " ++ e.part.name ++ ": " ++ e.message

end Event

/-- The lines of the events that are shown. -/
def lines (verbosity : Nat) (events : List Event) : List String :=
  (events.filter fun e => (Level.shownFrom verbosity).rank ≤ e.level.rank).map (·.line)

end FlowTrace.Log
