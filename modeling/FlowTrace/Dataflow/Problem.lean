import FlowTrace.Graph.Basic
import FlowTrace.Lattice.Basic
import FlowTrace.Observed

/-!
# Dataflow problems

A problem fixes a graph, a direction and a lattice of facts.  Each node has two facts, `in` and
`out`.  One of them, the *merged* fact, joins what comes from the neighbours on one side: `in` from
the predecessors going forward, `out` from the successors going backward.  The other, the *flowed*
fact, is the merged one after the node's own effect.
-/

namespace FlowTrace

inductive Direction where
  | forward
  | backward
deriving DecidableEq, Repr

def Direction.name : Direction → String
  | forward => "forward"
  | backward => "backward"

/-- A dataflow problem with facts of type `α`. -/
structure Problem (α : Type) where
  name : String
  direction : Direction
  graph : FlowGraph
  lattice : FactLattice α
  /-- The facts that describe the effect of the nodes, by name; they are shown and never change. -/
  sides : List (String × Table NodeId α)
  /-- The merged facts at the start. -/
  boundary : NodeId → α
  /-- The effect of a node on the merged fact. -/
  transfer : NodeId → α → α
  /-- Put a new flowed fact over the old one. -/
  absorb : α → α → α
  /-- What is shown in front of an instruction. -/
  markers : Table NodeId String
  /-- A fact rises at most this often. -/
  height : Nat

namespace Problem

variable {α : Type}

/-- The order in which a sweep visits the nodes. -/
def order (p : Problem α) : List NodeId :=
  match p.direction with
  | .forward => p.graph.nodes
  | .backward => p.graph.nodes.reverse

/-- The nodes whose flowed facts a node merges, in ascending order. -/
def sources? (p : Problem α) (n : NodeId) : Option (List NodeId) :=
  match p.direction with
  | .forward => p.graph.predecessors? n
  | .backward => p.graph.successors? n

def sideNames (p : Problem α) : List String := p.sides.map (·.1)

/-- The names of all facts, in the order in which they are shown. -/
def factNames (p : Problem α) : List String := p.sideNames ++ ["in", "out"]

/-- No run has more sweeps than this: all but the last raise one of the facts. -/
def sweepBound (p : Problem α) : Nat := 1 + 2 * p.graph.nodes.length * p.height

end Problem

/-- A fact for each node of a graph. -/
def FlowGraph.tabulate {β : Type} (g : FlowGraph) (f : NodeId → β) : Table NodeId β :=
  .ofList (g.nodes.map fun n => (n, f n))

end FlowTrace
