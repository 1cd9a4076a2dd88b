import FlowTrace.Dataflow.Run
import FlowTrace.Lattice.Basic
import FlowTrace.Lattice.Pointwise
import FlowTrace.Session.Selection
import FlowTrace.Text.NaturalOrder

/-!
# Views of a snapshot

A snapshot as plain values: names in natural order and constants as text.  Names that are equal in
the natural order are shown as the set is gone through.  A view can fail, since names may have no
natural order and constants may be too long to be written.
-/

namespace FlowTrace

/-- The data of a fact. -/
inductive FactData where
  | names (names : List String)
  | constants (entries : List (String × String))
deriving DecidableEq, Repr

namespace FactData

def typeName : FactData → String
  | names _ => "string-set"
  | constants _ => "string-map"

/-- The data between braces. -/
def text (d : FactData) : String :=
  let items := match d with
    | .names items => items
    | .constants entries => entries.map fun (name, value) => name ++ ": " ++ value
  "\x7b" ++ ", ".intercalate items ++ "\x7d"

end FactData

/-- Facts that can be viewed, given how sets are gone through. -/
class Viewable (α : Type) where
  view : NameSet.Enumeration → α → Except Text.NumeralError FactData

instance : Viewable NameSet where
  view order names := (Text.sortNaturally (order.members names)).map .names

instance : Viewable ConstMap where
  view _ m := do
    let sorted ← Text.sortNaturallyBy (·.1) m.entries
    return .constants (← sorted.mapM fun (name, value) => do return (name, ← value.text))

/-- A fact with its marks. -/
structure FactView where
  data : FactData
  lookedAt : Bool
  changed : Bool
deriving DecidableEq, Repr

structure NodeView where
  id : NodeId
  kind : NodeKind
  isCurrent : Bool
  input : FactView
  output : FactView
  /-- The facts that describe the effect of the node. -/
  sides : List (String × FactView)
  /-- The instructions with what stands in front of them. -/
  instructions : List (String × String)
deriving DecidableEq, Repr

structure StateView where
  algorithm : Algorithm
  phase : Phase
  current : Option NodeId
  nodes : List NodeView
  edges : List Edge
deriving DecidableEq, Repr

def StateView.node? (s : StateView) (n : NodeId) : Option NodeView := s.nodes.find? (·.id == n)

namespace Snapshot

variable {α : Type} [Viewable α] (order : NameSet.Enumeration)

/-- The fact of a node, which is nothing at all if the node is unknown. -/
def viewFact (facts : Observed α) (empty : α) (n : NodeId) :
    Except Text.NumeralError FactView := do
  let cell := (facts.get? n).getD (.fresh empty)
  return ⟨← Viewable.view order cell.value, cell.lookedAt, cell.changed⟩

/-- A node; only data nodes have instructions and facts about their effect. -/
def viewNode (p : Problem α) (s : Snapshot α) (n : NodeId) :
    Except Text.NumeralError NodeView := do
  let kind := (p.graph.nodeKind? n).getD .node
  let sides ←
    if kind = .node then
      s.sides.mapM fun (name, facts) => do return (name, ← viewFact order facts p.lattice.bottom n)
    else pure []
  let instructions :=
    if kind = .node then
      (p.graph.instrsOf n).map fun (i, instr) => ((p.markers.get? i).getD "", instr.text)
    else []
  return {
    id := n
    kind
    isCurrent := s.current == some n
    input := ← viewFact order s.ins p.lattice.bottom n
    output := ← viewFact order s.outs p.lattice.bottom n
    sides
    instructions }

/-- All nodes and edges at a snapshot. -/
def view (algorithm : Algorithm) (p : Problem α) (s : Snapshot α) :
    Except Text.NumeralError StateView := do
  return {
    algorithm
    phase := s.phase
    current := s.current
    nodes := ← p.graph.nodes.mapM (viewNode order p s)
    edges := p.graph.edges }

end Snapshot

end FlowTrace
