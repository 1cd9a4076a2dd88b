import FlowTrace.Command.Options
import FlowTrace.Session.Selection
import FlowTrace.Text.Numeral

/-!
# Commands

What a command line asks for: checking a program, showing its graph, or running an analysis.
-/

namespace FlowTrace.Command

/-- What is said by an option that takes a value. -/
inductive Choice (α : Type) where
  /-- The option is not there. -/
  | absent
  /-- The option is there without a value. -/
  | blank
  | value (a : α)
deriving DecidableEq, Repr

/-- What there is to know for running an analysis. -/
structure RunOptions where
  /-- `none` if the option for it is blank. -/
  algorithm : Option Algorithm
  liveOut : Option String
  window : Choice Int
  unbounded : Bool
  finalOnly : Bool
deriving DecidableEq, Repr

inductive Task where
  | check
  /-- Show a graph; the kind is `none` if the option for it is blank. -/
  | graph (kind : Option GraphKind) (dot : Bool)
  | run (options : RunOptions)
deriving DecidableEq, Repr

/-- A command line that can be carried out. -/
structure Invocation where
  verbosity : Nat
  task : Task
  file : String
  noColor : Bool
deriving DecidableEq, Repr

/-- The names of the tasks. -/
inductive TaskName where
  | check
  | graph
  | run
deriving DecidableEq, Repr

def TaskName.ofName? : String → Option TaskName
  | "check" => some check
  | "cfg" => some graph
  | "run" => some run
  | _ => none

/-- The options that stand before the task. -/
def globalSpellings : Spellings :=
  [("-h", .help), ("--help", .help), ("--version", .version), ("-v", .verbose),
   ("--verbose", .verbose)]

/-- The options of a task. -/
def TaskName.spellings (t : TaskName) : Spellings :=
  [("-h", .help), ("--help", .help), ("--no-color", .noColor)] ++
    match t with
    | check => []
    | graph => [("--graph", .graph), ("--dot", .dot)]
    | run =>
      [("-a", .algorithm), ("--algorithm", .algorithm), ("--live-out", .liveOut),
       ("--window", .window), ("--unbounded", .unbounded), ("--final-only", .finalOnly)]

/-- How commands are written. -/
def usage : List String :=
  ["usage: tacflow [-h] [--version] [-v] <command> ...",
   "  check <file> [--no-color]",
   "  cfg <file> [--no-color] [--graph \x7bblocks,single\x7d] [--dot]",
   "  run <file> [--no-color] -a <algorithm> [--live-out <names>] [--window <n>] [--unbounded]",
   "      [--final-only]",
   "algorithms: " ++ ", ".intercalate (Algorithm.all.map (·.name))]

/-- What the words so far have said. -/
structure Said where
  verbosity : Nat
  file : Option String
  /-- Whether the last word was the file. -/
  atFile : Bool
  noColor : Bool
  graph : Option GraphKind
  dot : Bool
  algorithm : Choice Algorithm
  liveOut : Option String
  window : Choice Int
  unbounded : Bool
  finalOnly : Bool
  /-- Whether a word was not understood; this only counts in the end. -/
  stray : Bool
deriving DecidableEq, Repr

namespace Said

def nothing : Said :=
  { verbosity := 0, file := none, atFile := false, noColor := false, graph := some .blocks,
    dot := false, algorithm := .absent, liveOut := none, window := .absent, unbounded := false,
    finalOnly := false, stray := false }

/-- Follow one flag. -/
def flag (s : Said) : Flag × Option String → Except Halt Said
  | (.help, _) => .error .help
  | (.version, _) => .error .version
  | (.verbose, _) => .ok { s with verbosity := s.verbosity + 1 }
  | (.noColor, _) => .ok { s with noColor := true }
  | (.dot, _) => .ok { s with dot := true }
  | (.unbounded, _) => .ok { s with unbounded := true }
  | (.finalOnly, _) => .ok { s with finalOnly := true }
  | (.liveOut, value) => .ok { s with liveOut := value }
  | (.graph, none) => .ok { s with graph := none }
  | (.graph, some value) =>
    match GraphKind.ofName? value with
    | some kind => .ok { s with graph := some kind }
    | none => .error .usage
  | (.algorithm, none) => .ok { s with algorithm := .blank }
  | (.algorithm, some value) =>
    match Algorithm.ofName? value with
    | some a => .ok { s with algorithm := .value a }
    | none => .error .usage
  | (.window, none) => .ok { s with window := .blank }
  | (.window, some value) =>
    match Text.readInt value with
    | .ok n => .ok { s with window := .value n }
    | .error _ => .error .usage

/-- Follow what a word asks for, with the value of the flag that wants one. -/
def follow (s : Said) (asked : Asked) (value : Option String) : Except Halt Said := do
  let wanted := match asked.wanting with
    | some f => [(f, value)]
    | none => []
  let s ← (asked.flags ++ wanted).foldlM flag s
  return { s with atFile := false }

/-- A plain word is the file, unless that is known. -/
def plain (s : Said) (word : String) : Said :=
  if s.file.isNone then { s with file := some word, atFile := true }
  else { s with atFile := false, stray := true }

/-- The words after the task. -/
def words (spellings : Spellings) (s : Said) : List Word → Except Halt Said
  | [] => .ok s
  | .plain w :: rest => words spellings (s.plain w) rest
  | .separator :: rest =>
    -- two dashes may stand next to the file
    words spellings { s with atFile := false, stray := s.stray || !(s.file.isNone || s.atFile) }
      rest
  | .unknown :: rest => words spellings { s with atFile := false, stray := true } rest
  | .known flag isShort attached :: rest =>
    match askedBy spellings flag isShort attached with
    | .error h => .error h
    | .ok asked =>
      match asked.wanting, rest with
      | none, rest =>
        match s.follow asked none with
        | .error h => .error h
        | .ok s => words spellings s rest
      | some _, .plain value :: rest =>
        match s.follow asked (some value) with
        | .error h => .error h
        | .ok s => words spellings s rest
      | some _, _ => .error .usage

/-- The run that was described, if there is an algorithm. -/
def runOptions? (s : Said) : Option RunOptions :=
  let options := fun algorithm =>
    { algorithm, liveOut := s.liveOut, window := s.window, unbounded := s.unbounded,
      finalOnly := s.finalOnly }
  match s.algorithm with
  | .absent => none
  | .blank => some (options none)
  | .value a => some (options (some a))

/-- The task that was described, if nothing is missing. -/
def task? (s : Said) : TaskName → Option Task
  | .check => some .check
  | .graph => some (.graph s.graph s.dot)
  | .run => s.runOptions?.map .run

/-- The words of a task, which come after everything that was said before it. -/
def invocation (s : Said) (name : TaskName) (args : List String) : Except Halt Invocation := do
  let read ← readWords name.spellings args
  let s ← s.words name.spellings (read.map (·.2))
  match s.file, s.task? name with
  | some file, some task =>
    if s.stray then .error .usage
    else return { verbosity := s.verbosity, task, file, noColor := s.noColor }
  | _, _ => .error .usage

/-- The words up to the task, and then the task. -/
def globalWords (s : Said) : List (String × Word) → Except Halt Invocation
  | [] => .error .usage
  | (_, .plain w) :: rest =>
    match TaskName.ofName? w with
    | some name => s.invocation name (rest.map (·.1))
    | none => .error .usage
  | (_, .separator) :: _ => .error .usage
  | (_, .unknown) :: rest => globalWords { s with stray := true } rest
  | (_, .known flag isShort attached) :: rest =>
    match (askedBy globalSpellings flag isShort attached).bind (s.follow · none) with
    | .error h => .error h
    | .ok s => globalWords s rest

end Said

/-- Read a command line. -/
def parseArguments (args : List String) : Except Halt Invocation := do
  Said.nothing.globalWords (← readWords globalSpellings args)

end FlowTrace.Command
