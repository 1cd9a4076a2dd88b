import FlowTrace.Graph.Basic
import FlowTrace.Text.Style

/-!
# Graphs as text

Each node with its successors and instructions; back edges are starred.  The entry and the exit are
named as such wherever a node is shown.
-/

namespace FlowTrace.Report

open Text

def nodeName (n : NodeId) : String := "N" ++ toString n

/-- What is said of the kind of a node; nothing if it is a data node. -/
def kindNote : NodeKind → String
  | .node => ""
  | kind => " (" ++ kind.name ++ ")"

/-- The nodes that a node leads to. -/
def targets (g : FlowGraph) (n : NodeId) : String :=
  ", ".intercalate <| ((g.successors? n).getD []).map fun m =>
    nodeName m ++ (if g.isBackEdge n m then "*" else "")

def graphNode (g : FlowGraph) (paint : Coloring) (n : NodeId) : List String :=
  (paint Color.cyan.bold (nodeName n) ++ kindNote ((g.nodeKind? n).getD .node) ++
      " -> [" ++ targets g n ++ "]") ::
    (g.instrsOf n).map fun (_, i) => "    " ++ i.text

def graph (g : FlowGraph) (color : Bool) (colored : Coloring := terminalColoring) : String :=
  let paint := painter colored color
  "\n".intercalate <|
    g.nodes.flatMap (graphNode g paint) ++ [paint ⟨none, [.dark]⟩ "(* marks a back edge)"]

end FlowTrace.Report
