import FlowTrace.Program.Basic
import FlowTrace.Text.Quoted

/-!
# Flow graphs

A flow graph has an entry, an exit and data nodes that each cover consecutive instructions; a data
node has the id of the first instruction that it covers.  An edge between data nodes that does not
go forward in the program is a back edge.  Ids are taken as they come: a data node may have the id
of the entry or of the exit, which then names one node that stands at two places.
-/

namespace FlowTrace

/-- What a data node covers: one instruction or a basic block. -/
inductive GraphKind where
  | single
  | blocks
deriving DecidableEq, Repr

namespace GraphKind

def name : GraphKind → String
  | single => "single"
  | blocks => "blocks"

/-- The name of a graph of the kind. -/
def title : GraphKind → String
  | single => "SingleInstructionGraph"
  | blocks => "BasicBlockGraph"

/-- The kind in front of the word graph. -/
def adjective : GraphKind → String
  | single => "single-instruction"
  | blocks => "basic-block"

def ofName? (s : String) : Option GraphKind := [single, blocks].find? (·.name == s)

/-- What is said of a name that is no kind of graph. -/
def unknownMessage (s : String) : String := "unknown graph kind " ++ Text.quote s

end GraphKind

inductive NodeKind where
  | entry
  | exit
  | node
deriving DecidableEq, Repr

def NodeKind.name : NodeKind → String
  | entry => "entry"
  | exit => "exit"
  | node => "node"

structure Edge where
  source : NodeId
  target : NodeId
  isBack : Bool
deriving DecidableEq, Repr

/-- A graph over the instructions of a program.  The lists of neighbours are ascending. -/
structure FlowGraph where
  kind : GraphKind
  program : Program
  entry : NodeId
  exit : NodeId
  covered : Table NodeId (List NodeId)
  successors : Table NodeId (List NodeId)
  predecessors : Table NodeId (List NodeId)

namespace FlowGraph

/-- The data nodes in program order. -/
def dataNodes (g : FlowGraph) : List NodeId := g.covered.keys

/-- The entry, the data nodes in program order, the exit. -/
def nodes (g : FlowGraph) : List NodeId := g.entry :: g.dataNodes ++ [g.exit]

def size (g : FlowGraph) : Nat := g.covered.size + 2

def nodeKind? (g : FlowGraph) (n : NodeId) : Option NodeKind :=
  if n = g.entry then some .entry
  else if n = g.exit then some .exit
  else if g.covered.contains n then some .node
  else none

/-- The instructions that a node covers. -/
def coveredBy (g : FlowGraph) (n : NodeId) : List NodeId := (g.covered.get? n).getD []

def instrsOf (g : FlowGraph) (n : NodeId) : List (NodeId × Instr) :=
  (g.coveredBy n).filterMap fun i => (g.program.instr? i).map (i, ·)

def successors? (g : FlowGraph) (n : NodeId) : Option (List NodeId) := g.successors.get? n

def predecessors? (g : FlowGraph) (n : NodeId) : Option (List NodeId) := g.predecessors.get? n

def hasEdge (g : FlowGraph) (a b : NodeId) : Bool := ((g.successors? a).getD []).contains b

def isBackEdge (g : FlowGraph) (a b : NodeId) : Bool :=
  g.hasEdge a b && !([a, b].any fun n => n == g.entry || n == g.exit) && !g.program.isBefore a b

/-- The nodes, each once and at its last place. -/
def lastPlaces (g : FlowGraph) : List NodeId := g.nodes.reverse.eraseDups.reverse

/-- All edges, by the place of the source and then by the last place of the target. -/
def edges (g : FlowGraph) : List Edge :=
  let places := g.lastPlaces
  g.nodes.flatMap fun a =>
    let targets := (g.successors? a).getD []
    (places.filter fun b => targets.contains b).map fun b => ⟨a, b, g.isBackEdge a b⟩

def backEdges (g : FlowGraph) : List Edge := g.edges.filter (·.isBack)

/-- The block that covers an instruction. -/
def blockOf? (g : FlowGraph) (i : NodeId) : Option NodeId :=
  (g.covered.entries.find? fun e => e.2.contains i).map (·.1)

/-- The instructions of a data node, or the name of the entry or exit. -/
def nodeLabel? (g : FlowGraph) (n : NodeId) : Option String :=
  (g.nodeKind? n).map fun
    | .node => "\n".intercalate ((g.instrsOf n).map (·.2.text))
    | kind => kind.name

/-- A line about the graph. -/
def describe (g : FlowGraph) : String :=
  g.kind.title ++ "(nodes=" ++ toString g.size ++ ", edges=" ++
    toString g.successors.values.flatten.length ++ ")"

end FlowGraph

end FlowTrace
