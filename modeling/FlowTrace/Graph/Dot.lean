import FlowTrace.Graph.Basic

/-!
# Graphs in the dot language

Each node is a box with its instructions; back edges are dashed.
-/

namespace FlowTrace.FlowGraph

/-- A label inside double quotes: quotes are escaped, and lines end left-aligned. -/
def dotLabel (s : String) : String :=
  String.ofList <| s.toList.flatMap fun c =>
    if c = '"' then ['\\', '"'] else if c = '\n' then ['\\', 'l'] else [c]

def dotFill : NodeKind → String
  | .entry => ", style=filled, fillcolor=\"#ccffcc\""
  | .exit => ", style=filled, fillcolor=\"#ffcccc\""
  | .node => ""

def dotNode (g : FlowGraph) (n : NodeId) : String :=
  "  N" ++ toString n ++ " [label=\"" ++ dotLabel ((g.nodeLabel? n).getD "") ++ "\"" ++
    dotFill ((g.nodeKind? n).getD .node) ++ "];"

def dotEdge (e : Edge) : String :=
  "  N" ++ toString e.source ++ " -> N" ++ toString e.target ++
    (if e.isBack then " [style=dashed, color=blue]" else "") ++ ";"

/-- The graph as a digraph; an empty title is left out. -/
def toDot (g : FlowGraph) (title : Option String) : String :=
  let caption := match title with
    | some s => if s.isEmpty then [] else ["  label=\"" ++ s ++ "\";"]
    | none => []
  "\n".intercalate <|
    ["digraph CFG \x7b"] ++ caption ++
      ["  node [shape=box, fontname=monospace, fontsize=10];"] ++
      g.nodes.map g.dotNode ++ g.edges.map dotEdge ++ ["\x7d"]

end FlowTrace.FlowGraph
