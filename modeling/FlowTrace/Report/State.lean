import FlowTrace.Report.Graph
import FlowTrace.Session.View

/-!
# Steps of an analysis as text

Each node with its instructions and facts.  A fact that was changed in the step stands out, one
that was looked at is underlined, and an arrow points to the present node.
-/

namespace FlowTrace.Report

open Text

/-- How a fact appears. -/
def factStyle (v : FactView) : Style where
  color := if v.changed then some .yellow else none
  emphases := (if v.changed then [.bold] else []) ++ (if v.lookedAt then [.underline] else [])

/-- A fact with its name, which is filled up to four characters. -/
def factLine (paint : Coloring) (name : String) (v : FactView) : String :=
  "    " ++ String.ofList (List.replicate (4 - name.length) ' ') ++ name ++ " = " ++
    paint (factStyle v) v.data.text

def instructionLine (paint : Coloring) : String × String → String
  | (marker, text) =>
    "      " ++
      (if marker.isEmpty then "" else paint ⟨some .magenta, []⟩ (marker ++ ": ")) ++ text

/-- The line that names a node. -/
def titleLine (paint : Coloring) (n : NodeView) : String :=
  (if n.isCurrent then paint Color.green.bold "▶" else " ") ++ " " ++
    paint Color.cyan.bold (nodeName n.id ++ kindNote n.kind)

/-- The facts of a node, with their names. -/
def factLines (paint : Coloring) (n : NodeView) : List String :=
  n.sides.map (fun (name, v) => factLine paint name v) ++
    [factLine paint "in" n.input, factLine paint "out" n.output]

def node (paint : Coloring) (n : NodeView) : List String :=
  titleLine paint n :: n.instructions.map (instructionLine paint) ++ factLines paint n

/-- What a state is headed by: the number of the step if it is known, the phase and the node. -/
def heading (s : StateView) (step : Option Int) : String :=
  let counter := match step with
    | some k => "step " ++ toString k ++ ": "
    | none => ""
  let place := match s.current with
    | some n => " at " ++ nodeName n
    | none => ""
  "── " ++ counter ++ s.phase.name ++ place ++ " ──"

/-- A state, with the number of the step if it is known. -/
def state (s : StateView) (step : Option Int) (color : Bool)
    (colored : Coloring := terminalColoring) : String :=
  let paint := painter colored color
  "\n".intercalate <| paint Color.blue.bold (heading s step) :: s.nodes.flatMap (node paint)

end FlowTrace.Report
