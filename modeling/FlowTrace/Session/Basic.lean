import FlowTrace.Graph.Build
import FlowTrace.Navigator.Basic
import FlowTrace.Program.Verify
import FlowTrace.Session.View
import FlowTrace.Settings

/-!
# Sessions

A session holds a program text, the program or the faults that it gave, and at most one analysis
that is being stepped through.
-/

namespace FlowTrace

instance {α : Type} : Source (Run α) (Snapshot α) where
  next? := Run.next?
  bound := Run.pauseBound

/-- An analysis that is being stepped through. -/
structure Execution (α : Type) where
  selection : Selection
  problem : Problem α
  navigator : Navigator (Run α) (Snapshot α)

namespace Execution

variable {α : Type}

def start (selection : Selection) (problem : Problem α) (settings : Settings) : Execution α where
  selection
  problem
  navigator := .ofSource (Run.start problem) settings.windowSize settings.unbounded

def view [Viewable α] (order : NameSet.Enumeration) (e : Execution α) :
    Except Text.NumeralError (Option StateView) :=
  match e.navigator.current? with
  | none => .ok none
  | some s => (s.view order e.selection.algorithm e.problem).map some

end Execution

/-- A running analysis, by the type of its facts. -/
inductive Active where
  | names (e : Execution NameSet)
  | constants (e : Execution ConstMap)

namespace Active

/-- Start an analysis on a graph. -/
def start (selection : Selection) (g : FlowGraph) (settings : Settings) : Active :=
  match selection.algorithm with
  | .livenessSingle | .livenessBlocks =>
    names (.start selection (Liveness.problem g selection.liveOut none) settings)
  | .reachingDefinitions => names (.start selection (Reaching.problem g) settings)
  | .constantPropagation => constants (.start selection (Constants.problem g) settings)

def selection : Active → Selection
  | names e => e.selection
  | constants e => e.selection

/-- Act on the navigator. -/
def move (f : ∀ {α : Type}, Navigator (Run α) (Snapshot α) → Navigator (Run α) (Snapshot α)) :
    Active → Active
  | names e => names { e with navigator := f e.navigator }
  | constants e => constants { e with navigator := f e.navigator }

/-- Whether there is a next step; finding out may advance the run. -/
def hasNext : Active → Bool × Active
  | names e => let (b, n) := e.navigator.hasNext; (b, names { e with navigator := n })
  | constants e => let (b, n) := e.navigator.hasNext; (b, constants { e with navigator := n })

def hasPrevious : Active → Bool
  | names e => e.navigator.hasPrevious
  | constants e => e.navigator.hasPrevious

/-- The phase and the node of the present step. -/
def position? : Active → Option (Phase × Option NodeId)
  | names e => e.navigator.current?.map fun s => (s.phase, s.current)
  | constants e => e.navigator.current?.map fun s => (s.phase, s.current)

def view (order : NameSet.Enumeration) : Active → Except Text.NumeralError (Option StateView)
  | names e => e.view order
  | constants e => e.view order

/-- More steps than the run has left. -/
def stepBound : Active → Nat
  | names e => e.navigator.moveBound
  | constants e => e.navigator.moveBound

end Active

structure Session where
  settings : Settings
  text : Option String
  program : Option Program
  /-- The faults of the text by line. -/
  faults : List Fault
  rejection : Option Rejection
  active : Option Active

namespace Session

/-- A session without a program. -/
def new (settings : Settings) : Session := ⟨settings, none, none, [], none, none⟩

def isValid (s : Session) : Bool := s.program.isSome

/-- Replace the text.  The running analysis is dropped in any case.  A numeral that cannot be read
leaves the program and the faults of the text before. -/
def setText (s : Session) (text : String) : Except Text.NumeralError (List Fault) × Session :=
  let s := { s with active := none, text := some text }
  match Program.ofText text (.countFrom 0) with
  | .ok p => (.ok [], { s with program := some p, faults := [], rejection := none })
  | .error (.rejected r) =>
    let s := { s with program := none, rejection := some r, faults := r.sorted }
    (.ok s.faults, s)
  | .error (.numeral e) => (.error e, s)

/-- Start an analysis from its beginning, if there is a program. -/
def select (s : Session) (selection : Selection) : Bool × Session :=
  match s.program with
  | none => (false, s)
  | some p =>
    let (g, p) := FlowGraph.build selection.algorithm.graphKind p
    (true, { s with program := some p, active := some (.start selection g s.settings) })

def deselect (s : Session) : Session := { s with active := none }

def move (s : Session)
    (f : ∀ {α : Type}, Navigator (Run α) (Snapshot α) → Navigator (Run α) (Snapshot α)) :
    Session :=
  { s with active := s.active.map (·.move f) }

def stepForward (s : Session) : Session := s.move Navigator.next

def stepBackward (s : Session) : Session := s.move Navigator.previous

def stepToEnd (s : Session) : Session := s.move Navigator.toEnd

def canStepForward (s : Session) : Bool × Session :=
  match s.active with
  | none => (false, s)
  | some a => let (b, a) := a.hasNext; (b, { s with active := some a })

def canStepBackward (s : Session) : Bool := (s.active.map (·.hasPrevious)).getD false

def view (s : Session) (order : NameSet.Enumeration := .byCodePoints) :
    Except Text.NumeralError (Option StateView) :=
  match s.active with
  | none => .ok none
  | some a => a.view order

end Session

end FlowTrace
