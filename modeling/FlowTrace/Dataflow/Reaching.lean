import FlowTrace.Dataflow.Problem
import FlowTrace.Lattice.Basic

/-!
# Reaching definitions

An assignment reaches a point if its target may still hold its value there.  Assignments are tagged
`d1`, `d2`, … in program order.  Going forward, `in(n) = ⋃ out(p)` over the predecessors `p` of `n`
and `out(n) = gen(n) ∪ (in(n) \ kill(n))`.
-/

namespace FlowTrace.Reaching

/-- The assignments of a graph in program order. -/
def assignments (g : FlowGraph) : List NodeId :=
  g.dataNodes.flatMap fun n =>
    ((g.instrsOf n).filter fun (_, i) => i.isAssignment).map (·.1)

/-- Give an assignment the tag that comes after as many tags as there are. -/
def tagNext (tags : Table NodeId String) (i : NodeId) : Table NodeId String :=
  tags.insert i ("d" ++ toString (tags.size + 1))

/-- The tags of the assignments. -/
def tags (g : FlowGraph) : Table NodeId String := (assignments g).foldl tagNext .empty

/-- The variables that some instructions write, each with the tag of the assignment. -/
def tagged (tags : Table NodeId String) (code : List (NodeId × Instr)) : List (String × String) :=
  code.filterMap fun (i, instr) => do return (← instr.defines?, ← tags.get? i)

/-- The last definition of each variable that a node writes. -/
def lastWrites (g : FlowGraph) (tags : Table NodeId String) (n : NodeId) : Table String String :=
  .ofList (tagged tags (g.instrsOf n))

/-- The definitions that a node leaves behind. -/
def gen (g : FlowGraph) (tags : Table NodeId String) (n : NodeId) : NameSet :=
  NameSet.ofList (lastWrites g tags n).values

/-- All other definitions of the variables that a node writes. -/
def kill (g : FlowGraph) (tags : Table NodeId String) (n : NodeId) : NameSet :=
  let all := tagged tags (g.dataNodes.flatMap g.instrsOf)
  let writes := lastWrites g tags n
  NameSet.ofList ((all.filter fun e => writes.contains e.1).map (·.2)) \ gen g tags n

/-- The problem of reaching definitions. -/
def problem (g : FlowGraph) : Problem NameSet :=
  let tags := tags g
  let gens := g.tabulate (gen g tags)
  let kills := g.tabulate (kill g tags)
  { name := "reaching-definitions"
    direction := .forward
    graph := g
    lattice := NameSet.openLattice
    sides := [("gen", gens), ("kill", kills)]
    boundary := fun _ => ∅
    transfer := fun n facts => (gens.get? n).getD ∅ ∪ (facts \ (kills.get? n).getD ∅)
    absorb := (· ∪ ·)
    markers := tags
    height := tags.size }

end FlowTrace.Reaching
