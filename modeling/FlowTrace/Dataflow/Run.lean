import FlowTrace.Dataflow.Problem

/-!
# Runs

A run solves a problem by sweeping over the nodes until a whole sweep changes nothing.  It pauses
after every half of a visit to a node, and each pause gives a snapshot of all facts with the marks
of what was looked at and changed since the one before.
-/

namespace FlowTrace

/-- What a snapshot was taken after. -/
inductive Phase where
  | initialized
  | inComputed
  | outComputed
  | ended
deriving DecidableEq, Repr

def Phase.name : Phase → String
  | initialized => "initialized"
  | inComputed => "in-computed"
  | outComputed => "out-computed"
  | ended => "ended"

/-- The facts of all nodes. -/
structure Stores (α : Type) where
  sides : List (String × Observed α)
  merged : Observed α
  flowed : Observed α

namespace Stores

variable {α : Type}

def initial (p : Problem α) : Stores α where
  sides := p.sides.map fun (name, facts) => (name, .ofTable facts)
  merged := .ofTable (p.graph.tabulate p.boundary)
  flowed := .ofTable (p.graph.tabulate fun _ => p.lattice.bottom)

/-- Take all marks away. -/
def reset (s : Stores α) : Stores α where
  sides := s.sides.map fun (name, facts) => (name, facts.reset)
  merged := s.merged.reset
  flowed := s.flowed.reset

def ins (d : Direction) (s : Stores α) : Observed α :=
  match d with
  | .forward => s.merged
  | .backward => s.flowed

def outs (d : Direction) (s : Stores α) : Observed α :=
  match d with
  | .forward => s.flowed
  | .backward => s.merged

end Stores

/-- All facts at a pause. -/
structure Snapshot (α : Type) where
  phase : Phase
  current : Option NodeId
  sides : List (String × Observed α)
  ins : Observed α
  outs : Observed α

namespace Snapshot

variable {α : Type}

def isFinal (s : Snapshot α) : Bool := s.phase == .ended

/-- The facts by name, in the order in which they are shown. -/
def facts (s : Snapshot α) : List (String × Observed α) :=
  s.sides ++ [("in", s.ins), ("out", s.outs)]

/-- The facts that carry a mark, node by node. -/
def marked (s : Snapshot α) (nodes : List NodeId) (mark : Cell α → Bool) :
    List (String × NodeId) :=
  nodes.flatMap fun n => s.facts.filterMap fun (name, facts) =>
    if ((facts.get? n).map mark).getD false then some (name, n) else none

end Snapshot

/-- The two halves of a visit to a node. -/
inductive Half where
  /-- The merged fact is computed from the neighbours. -/
  | merge
  /-- The flowed fact is computed from the merged one. -/
  | transfer
deriving DecidableEq, Repr

/-- The phase after a half of a visit. -/
def Half.phase : Half → Direction → Phase
  | merge, .forward => .inComputed
  | merge, .backward => .outComputed
  | transfer, .forward => .outComputed
  | transfer, .backward => .inComputed

/-- An action on the facts.  It fails at an id that has no fact, and the marks that it has made
until then stay. -/
abbrev Action (α : Type) := EStateM NodeId (Stores α)

namespace Action

variable {α β : Type}

/-- Act on the merged facts at a node. -/
def onMerged (n : NodeId) (f : Observed α → Option (β × Observed α)) : Action α β := fun s =>
  match f s.merged with
  | some (b, merged) => .ok b { s with merged }
  | none => .error n s

/-- Act on the flowed facts at a node. -/
def onFlowed (n : NodeId) (f : Observed α → Option (β × Observed α)) : Action α β := fun s =>
  match f s.flowed with
  | some (b, flowed) => .ok b { s with flowed }
  | none => .error n s

/-- Look at the flowed facts of some nodes, one after the other. -/
def readAll : List NodeId → Action α (List α)
  | [] => return []
  | n :: ns => do
    let v ← onFlowed n (·.read? n)
    let vs ← readAll ns
    return v :: vs

/-- Look at a node in some tables, one after the other, until one does not know it. -/
def lookThrough (n : NodeId) :
    List (String × Observed α) → Bool × List (String × Observed α)
  | [] => (true, [])
  | (name, facts) :: rest =>
    match facts.read? n with
    | none => (false, (name, facts) :: rest)
    | some (_, facts) => ((lookThrough n rest).1, (name, facts) :: (lookThrough n rest).2)

/-- Look at what describes a node. -/
def readSides (n : NodeId) : Action α Unit := fun s =>
  let (known, sides) := lookThrough n s.sides
  if known then .ok () { s with sides } else .error n { s with sides }

end Action

namespace Problem

variable {α : Type}

/-- Join the flowed facts of the neighbours into the merged fact of a node.  That it has one is
found out before the neighbours are looked at. -/
def merge (p : Problem α) (n : NodeId) : Action α Bool := do
  let some sources := p.sources? n | throw n
  if ((← get).merged.peek? n).isNone then throw n
  let values ← Action.readAll sources
  Action.onMerged n (·.replace? p.lattice.eq n fun old => values.foldl p.lattice.join old)

/-- Apply the effect of a node to its merged fact. -/
def flow (p : Problem α) (n : NodeId) : Action α Bool := do
  Action.readSides n
  let value ← Action.onMerged n (·.read? n)
  Action.onFlowed n (·.replace? p.lattice.eq n fun old => p.absorb old (p.transfer n value))

/-- One half of a visit to a node; the result says whether the fact changed. -/
def visit (p : Problem α) : Half → NodeId → Action α Bool
  | .merge => p.merge
  | .transfer => p.flow

end Problem

/-- Where a run goes on. -/
inductive Stage where
  | start
  /-- In a sweep, before a half of the visit to `node`; the nodes of `rest` come after it. -/
  | visit (node : NodeId) (half : Half) (rest : List NodeId)
  | finish
  | done
deriving DecidableEq, Repr

/-- A run that pauses. -/
structure Run (α : Type) where
  problem : Problem α
  stores : Stores α
  stage : Stage
  /-- Whether the present sweep has changed a fact. -/
  dirty : Bool
  /-- The sweeps that were completed. -/
  sweeps : Nat

namespace Run

variable {α : Type}

def start (p : Problem α) : Run α where
  problem := p
  stores := .initial p
  stage := .start
  dirty := false
  sweeps := 0

def isDone (r : Run α) : Bool := r.stage == .done

/-- Compute one half of a visit; the result says whether the fact changed. -/
def compute (r : Run α) (half : Half) (n : NodeId) : EStateM.Result NodeId (Run α) Bool :=
  match (r.problem.visit half n).run r.stores with
  | .ok changed stores => .ok changed { r with stores }
  | .error m stores => .error m { r with stores }

/-- The half that computes `in`. -/
def inHalf (r : Run α) : Half :=
  match r.problem.direction with
  | .forward => .merge
  | .backward => .transfer

/-- The half that computes `out`. -/
def outHalf (r : Run α) : Half :=
  match r.problem.direction with
  | .forward => .transfer
  | .backward => .merge

def computeIn (r : Run α) (n : NodeId) : EStateM.Result NodeId (Run α) Bool :=
  r.compute r.inHalf n

def computeOut (r : Run α) (n : NodeId) : EStateM.Result NodeId (Run α) Bool :=
  r.compute r.outHalf n

/-- What a half visit has given, unless it failed. -/
def computed? : EStateM.Result NodeId (Run α) Bool → Option (Bool × Run α)
  | .ok changed r => some (changed, r)
  | .error _ _ => none

def computeIn? (r : Run α) (n : NodeId) : Option (Bool × Run α) := computed? (r.computeIn n)

def computeOut? (r : Run α) (n : NodeId) : Option (Bool × Run α) := computed? (r.computeOut n)

/-- The facts as they are, and the run with the marks taken away. -/
def pause (r : Run α) (phase : Phase) (current : Option NodeId) : Snapshot α × Run α :=
  ({ phase, current
     sides := r.stores.sides
     ins := r.stores.ins r.problem.direction
     outs := r.stores.outs r.problem.direction },
   { r with stores := r.stores.reset })

/-- Where a sweep over some nodes starts. -/
def sweepStage : List NodeId → Stage
  | [] => .finish
  | n :: rest => .visit n .merge rest

/-- A half of a visit that also counts as a change of the sweep. -/
def visitHalf (r : Run α) (half : Half) (n : NodeId) : Run α :=
  match r.compute half n with
  | .ok changed r' => { r' with dirty := r.dirty || changed }
  | .error _ r' => r'

/-- End a sweep: another one follows if this one changed a fact. -/
def endSweep (r : Run α) : Run α :=
  { r with
    sweeps := r.sweeps + 1
    dirty := false
    stage := if r.dirty then sweepStage r.problem.order else .finish }

/-- Go on to the next pause; there is none once the run is done. -/
def next? (r : Run α) : Option (Snapshot α × Run α) :=
  match r.stage with
  | .start => some ({ r with stage := sweepStage r.problem.order }.pause .initialized none)
  | .visit n .merge rest =>
    let r := { r.visitHalf .merge n with stage := .visit n .transfer rest }
    some (r.pause (Half.merge.phase r.problem.direction) (some n))
  | .visit n .transfer rest =>
    let r := r.visitHalf .transfer n
    let r := match rest with
      | [] => r.endSweep
      | m :: rest => { r with stage := .visit m .merge rest }
    some (r.pause (Half.transfer.phase r.problem.direction) (some n))
  | .finish => some ({ r with stage := .done }.pause .ended none)
  | .done => none

/-- More than the number of pauses that any run of the problem has left. -/
def pauseBound (r : Run α) : Nat :=
  2 + 2 * r.problem.graph.nodes.length * (1 + r.problem.sweepBound)

/-- Up to `fuel` further snapshots, and the run after them. -/
def collect : Nat → Run α → List (Snapshot α) × Run α
  | 0, r => ([], r)
  | fuel + 1, r =>
    match r.next? with
    | none => ([], r)
    | some (s, r) =>
      let (rest, r) := collect fuel r
      (s :: rest, r)

/-- All snapshots that are left, and the run at its end. -/
def toEnd (r : Run α) : List (Snapshot α) × Run α := collect r.pauseBound r

/-- What is said of a run that has nothing left. -/
def exhaustedMessage (r : Run α) : String := r.problem.name ++ " engine was already exhausted"

/-- The facts of a name. -/
def facts? (r : Run α) (name : String) : Option (Observed α) :=
  List.lookup name <| r.stores.sides ++
    [("in", r.stores.ins r.problem.direction), ("out", r.stores.outs r.problem.direction)]

end Run

namespace Problem

variable {α : Type}

/-- All snapshots of the run of a problem. -/
def trace (p : Problem α) : List (Snapshot α) := (Run.start p).toEnd.1

end Problem

end FlowTrace
