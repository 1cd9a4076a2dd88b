import FlowTrace.Graph.Basic
import Std.Data.TreeSet

/-!
# Building flow graphs

The two views of a program as a graph.  A basic block starts at a *leader*: the first instruction,
a target of a jump, or an instruction that follows a jump.  Entry and exit get fresh ids, so
building a graph also gives the program that has them reserved.
-/

namespace FlowTrace

/-- The ids of a list, each once, in ascending order. -/
def ascending (ids : List NodeId) : List NodeId := (Std.TreeSet.ofList ids).toList

namespace Program

/-- The targets of the jump at an instruction and what follows it; nothing if it is no jump. -/
def blockStartsAt (p : Program) (i : NodeId) : List NodeId :=
  match p.jumpTargets i with
  | [] => []
  | targets => targets.filterMap id ++ (p.following? i).toList

/-- All instructions that start a basic block, in any order. -/
def blockStarts (p : Program) : List NodeId := p.first :: p.ids.flatMap p.blockStartsAt

/-- The instructions that start a basic block, in program order. -/
def leaders (p : Program) : List NodeId :=
  let starts := p.blockStarts
  p.ids.filter starts.contains

/-- Each leader with the instructions up to the next one. -/
def basicBlocks (p : Program) : Table NodeId (List NodeId) :=
  .ofList ((p.leaders.zip (p.leaders.tail.map some ++ [none])).map fun (start, stop) =>
    (start, (p.range? start stop).getD []))

/-- Each instruction by itself. -/
def singletons (p : Program) : Table NodeId (List NodeId) := .ofList (p.ids.map fun i => (i, [i]))

end Program

namespace FlowGraph

/-- The node that control may reach from the last of some instructions. -/
def exitsOf (p : Program) (exit : NodeId) (covered : List NodeId) : List NodeId :=
  match covered.getLast? with
  | none => []
  | some i => ascending (p.successors i ++ if i = p.last then [exit] else [])

/-- The nodes from which an edge leads to each node. -/
def invert (successors : Table NodeId (List NodeId)) : Table NodeId (List NodeId) :=
  successors.mapEntries fun n _ =>
    ascending ((successors.entries.filter fun e => e.2.contains n).map (·.1))

/-- What leads out of the data nodes. -/
def dataExits (p : Program) (exit : NodeId) (covered : Table NodeId (List NodeId)) :
    List (NodeId × List NodeId) :=
  covered.entries.map fun e => (e.1, exitsOf p exit e.2)

/-- Where the entry leads.  An entry with the id of the last instruction also leads to the exit. -/
def entryExits (p : Program) (entry exit : NodeId) : List NodeId :=
  ascending (p.first :: if entry = p.last then [exit] else [])

/-- The nodes to which an edge leads from each node.  If an id is used for two nodes, the later
entry of the list counts: nothing leads out of an exit, the entry comes before an instruction and a
block before the entry. -/
def successorsOf (kind : GraphKind) (p : Program) (entry exit : NodeId)
    (covered : Table NodeId (List NodeId)) : Table NodeId (List NodeId) :=
  .ofList <| match kind with
    | .single => dataExits p exit covered ++ [(entry, entryExits p entry exit), (exit, [])]
    | .blocks => (entry, [p.first]) :: dataExits p exit covered ++ [(exit, [])]

/-- What the data nodes of a kind of graph cover. -/
def coverOf (kind : GraphKind) (p : Program) : Table NodeId (List NodeId) :=
  match kind with
  | .single => p.singletons
  | .blocks => p.basicBlocks

/-- The graph of a kind, and the program with the ids of its entry and exit reserved. -/
def build (kind : GraphKind) (p : Program) : FlowGraph × Program :=
  let (entry, p) := p.reserve
  let (exit, p) := p.reserve
  let covered := coverOf kind p
  let successors := successorsOf kind p entry exit covered
  ({ kind, program := p, entry, exit, covered, successors, predecessors := invert successors }, p)

/-- The first place that an edge leads to and that is no node.  There is none if no two
instructions have the same id. -/
def dangling? (g : FlowGraph) : Option NodeId :=
  g.successors.values.flatten.find? fun n => !g.successors.contains n

/-- The graph of a kind, or the place that an edge leads to in vain. -/
def build? (kind : GraphKind) (p : Program) : Except NodeId FlowGraph × Program :=
  let (g, p) := build kind p
  match g.dangling? with
  | some n => (.error n, p)
  | none => (.ok g, p)

end FlowGraph

end FlowTrace
