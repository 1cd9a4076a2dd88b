import FlowTrace.Dataflow.Problem
import FlowTrace.Lattice.Basic

/-!
# Live variables

A variable is live where its present value may still be read.  Going backward,
`out(n) = ⋃ in(s)` over the successors `s` of `n` and `in(n) = use(n) ∪ (out(n) \ def(n))`; a given
set of variables is live at the exit.
-/

namespace FlowTrace.Liveness

/-- What a node reads before it writes it, and what it writes before it reads it. -/
structure UseDef where
  use : NameSet
  defs : NameSet

def UseDef.empty : UseDef := ⟨∅, ∅⟩

/-- One instruction reads its operands and then writes its target. -/
def useDefOfInstr (i : Instr) : UseDef := ⟨i.uses, NameSet.ofList i.defines?.toList⟩

/-- Record that a variable is read. -/
def UseDef.read (ud : UseDef) (name : String) : UseDef :=
  if ud.defs.contains name then ud else { ud with use := ud.use.insert name }

/-- Record that a variable is written. -/
def UseDef.write (ud : UseDef) (name : String) : UseDef :=
  if ud.use.contains name then ud else { ud with defs := ud.defs.insert name }

def UseDef.step (ud : UseDef) (i : Instr) : UseDef :=
  i.defines?.toList.foldl UseDef.write (i.reads.foldl UseDef.read ud)

/-- A block: its first access decides about a variable. -/
def useDefOfBlock (instrs : List Instr) : UseDef := instrs.foldl UseDef.step .empty

/-- A node, by the rule for blocks or by its first instruction alone. -/
def useDefOfNode (g : FlowGraph) (blockRule : Bool) (n : NodeId) : UseDef :=
  let instrs := (g.instrsOf n).map (·.2)
  if blockRule then useDefOfBlock instrs else (instrs.head?.map useDefOfInstr).getD .empty

/-- Without a choice, the rule for blocks holds in graphs of blocks. -/
def blockRuleFor (g : FlowGraph) (choice : Option Bool) : Bool :=
  choice.getD (g.kind == .blocks)

/-- The problem of live variables. -/
def problem (g : FlowGraph) (liveOut : NameSet) (blockRule : Option Bool) : Problem NameSet :=
  let facts := g.tabulate (useDefOfNode g (blockRuleFor g blockRule))
  let use := facts.mapEntries fun _ ud => ud.use
  let defs := facts.mapEntries fun _ ud => ud.defs
  { name := "liveness"
    direction := .backward
    graph := g
    lattice := NameSet.openLattice
    sides := [("use", use), ("def", defs)]
    boundary := fun n => if n = g.exit then liveOut else ∅
    transfer := fun n out => (use.get? n).getD ∅ ∪ (out \ (defs.get? n).getD ∅)
    absorb := (· ∪ ·)
    markers := .empty
    height := (use.values.foldl (· ∪ ·) liveOut).size }

end FlowTrace.Liveness
