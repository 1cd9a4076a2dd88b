import FlowTrace.Proofs.Dataflow.LeastSolution

/-!
# The analyses

One name for each of the analyses, with the type of its facts, the order on them, the equations, and
the reading of its problems.  What holds of every reading with a finite height then holds of all
analyses at once.
-/

namespace FlowTrace

/-- An analysis: live variables, with what is live at the exit and the choice of the rule for
blocks, reaching definitions, or constant propagation. -/
inductive Analysis where
  | liveness (liveOut : NameSet) (rule : Option Bool)
  | reaching
  | constants

namespace Analysis

/-- The facts of an analysis. -/
@[reducible] def Fact : Analysis → Type
  | liveness _ _ | reaching => NameSet
  | constants => ConstMap

def problem : (a : Analysis) → FlowGraph → Problem a.Fact
  | liveness liveOut rule, g => Liveness.problem g liveOut rule
  | reaching, g => Reaching.problem g
  | constants, g => Constants.problem g

@[simp] theorem graph_problem (a : Analysis) (g : FlowGraph) : (a.problem g).graph = g := by
  cases a <;> rfl

theorem wellFormed_graph (a : Analysis) {g : FlowGraph} (hg : g.WellFormed) :
    (a.problem g).graph.WellFormed := by
  rw [graph_problem]
  exact hg

/-- Sets by inclusion; maps by their names and what is known of them. -/
def Le : (a : Analysis) → a.Fact → a.Fact → Prop
  | liveness _ _ | reaching => fun s t => s.isSubset t = true
  | constants => ConstMap.Below

/-- Equal facts; maps are compared without the order of their names. -/
def Same : (a : Analysis) → a.Fact → a.Fact → Prop
  | liveness _ _ | reaching => Eq
  | constants => ConstMap.Same

def Equations : (a : Analysis) → FlowGraph → (NodeId → a.Fact) → (NodeId → a.Fact) → Prop
  | liveness liveOut rule, g => Liveness.Equations g liveOut rule
  | reaching, g => Reaching.Equations g
  | constants, g => Constants.Equations g

/-! ## Readings -/

/-- What the facts of an analysis are read in. -/
@[reducible] def Read : Analysis → Type
  | liveness _ _ | reaching => Set String
  | constants => Knowledge

instance (a : Analysis) : SemilatticeSup a.Read :=
  match a with
  | liveness _ _ | reaching => inferInstanceAs (SemilatticeSup (Set String))
  | constants => inferInstanceAs (SemilatticeSup Knowledge)

instance (a : Analysis) : OrderBot a.Read :=
  match a with
  | liveness _ _ | reaching => inferInstanceAs (OrderBot (Set String))
  | constants => inferInstanceAs (OrderBot Knowledge)

def reading : (a : Analysis) → (g : FlowGraph) → (a.problem g).Reading a.Read
  | liveness liveOut rule, g => (Liveness.gainLoss g liveOut rule).reading
  | reaching, g => (Reaching.gainLoss g).reading
  | constants, g => Constants.reading g

noncomputable def height : (a : Analysis) → (g : FlowGraph) → (a.reading g).Height
  | liveness liveOut rule, g => Liveness.height g liveOut rule
  | reaching, g => Reaching.height g
  | constants, g => Constants.height g

variable (a : Analysis) {g : FlowGraph}

theorem read_le_iff {x y : a.Fact} :
    (a.reading g).read x ≤ (a.reading g).read y ↔ a.Le x y := by
  cases a with
  | liveness _ _ => exact NameSet.isSubset_iff.symm
  | reaching => exact NameSet.isSubset_iff.symm
  | constants => exact ConstMap.reading_le_iff

theorem read_eq_iff {x y : a.Fact} :
    (a.reading g).read x = (a.reading g).read y ↔ a.Same x y := by
  cases a with
  | liveness _ _ => exact NameSet.members_injective.eq_iff
  | reaching => exact NameSet.members_injective.eq_iff
  | constants => exact ConstMap.reading_eq_iff

/-- The equations of an analysis are those of its problem. -/
theorem solves_iff (hg : g.WellFormed) {ins outs : NodeId → a.Fact} :
    (a.reading g).system.Solves (.ofSides (a.problem g).direction ((a.reading g).read ∘ ins)
      ((a.reading g).read ∘ outs)) ↔ a.Equations g ins outs := by
  cases a with
  | liveness _ _ => exact Liveness.solves_iff hg
  | reaching => exact Reaching.solves_iff
  | constants => exact Constants.solves_iff hg

/-- The run of an analysis ends in the least facts that satisfy its equations. -/
theorem ends_least (hg : g.WellFormed) :
    (a.problem g).EndsWith (LeastFacts g.nodes a.Le (a.Equations g)) := by
  cases a with
  | liveness liveOut rule => exact Liveness.ends_least hg liveOut rule
  | reaching => exact Reaching.ends_least hg
  | constants => exact Constants.ends_least hg

end Analysis

end FlowTrace
