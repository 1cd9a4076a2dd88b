import FlowTrace.Proofs.Dataflow.GainLoss
import FlowTrace.Proofs.Dataflow.Knowledge

/-!
# The equations of the analyses

The equations of each analysis, in its own facts and without the facts of an earlier sweep in them.
For every program that was accepted, the runs of all analyses on both graphs end, and the facts that
the last snapshot shows are the least solution.
-/

namespace FlowTrace

variable {α β : Type}

/-- Facts that satisfy some equations, and are below all other facts that do. -/
structure LeastFacts (nodes : List NodeId) (le : α → α → Prop)
    (equations : (NodeId → α) → (NodeId → α) → Prop) (ins outs : NodeId → α) : Prop where
  solves : equations ins outs
  below : ∀ ins' outs', equations ins' outs' → ∀ n ∈ nodes, le (ins n) (ins' n) ∧
    le (outs n) (outs' n)

/-- A merged fact is the join of the flowed facts of the sources to the boundary. -/
theorem Problem.Reading.merges_iff [SemilatticeSup β] [OrderBot β] {p : Problem α}
    (R : p.Reading β) (hg : p.graph.WellFormed) {n : NodeId} (hn : n ∈ p.graph.nodes)
    (merged flowed : NodeId → α) :
    R.system.Merges ⟨R.read ∘ merged, R.read ∘ flowed⟩ n ↔
      R.read (merged n) = R.read ((((p.sources? n).getD []).map flowed).foldl p.lattice.join
        (p.boundary n)) := by
  obtain ⟨ss, hss, hmem⟩ := exists_sources hg hn
  have hlub := R.isLUB_foldl_join (ss.map flowed) (p.boundary n)
  rw [← R.image_sources hmem (x := R.read ∘ flowed) fun _ _ => rfl] at hlub
  rw [hss]
  constructor
  · intro h
    exact h.unique hlub
  · intro h
    change IsLUB _ (R.read (merged n))
    rw [h]
    exact hlub

/-! ## Live variables -/

namespace Liveness

/-- The equations of live variables. -/
structure Equations (g : FlowGraph) (liveOut : NameSet) (rule : Option Bool)
    (ins outs : NodeId → NameSet) : Prop where
  out_exit : outs g.exit = liveOut
  out_eq : ∀ n ∈ g.nodes, n ≠ g.exit → ∀ x, x ∈ outs n ↔ ∃ s, g.hasEdge n s = true ∧ x ∈ ins s
  in_eq : ∀ n ∈ g.nodes, ins n = (useDef g rule n).use ∪ (outs n \ (useDef g rule n).defs)

variable {g : FlowGraph} {liveOut : NameSet} {rule : Option Bool} {ins outs : NodeId → NameSet}

theorem solves_iff (hg : g.WellFormed) :
    (gainLoss g liveOut rule).reading.system.Solves
      ⟨NameSet.members ∘ outs, NameSet.members ∘ ins⟩ ↔ Equations g liveOut rule ins outs := by
  constructor
  · intro h
    refine ⟨?_, ?_, fun n hn => (gainLoss g liveOut rule).flows_iff.mp (h n hn).2⟩
    · have hexit := merges_iff.mp (h g.exit g.exit_mem).1
      simpa [NameSet.ext_iff_mem, hg.hasEdge_exit] using hexit
    · intro n hn hne
      have hmerged := merges_iff.mp (h n hn).1
      simpa [hne] using hmerged
  · intro h n hn
    refine ⟨merges_iff.mpr ?_, (gainLoss g liveOut rule).flows_iff.mpr (h.in_eq n hn)⟩
    by_cases hne : n = g.exit
    · subst hne
      simp [hg.hasEdge_exit, h.out_exit]
    · simp [hne, h.out_eq n hn hne]

/-- Every run ends in the least facts that satisfy the equations of live variables. -/
theorem ends_least (hg : g.WellFormed) (liveOut : NameSet) (rule : Option Bool) :
    (problem g liveOut rule).EndsWith (LeastFacts g.nodes (fun s t => s.isSubset t = true)
      (Equations g liveOut rule)) := by
  refine (ends hg liveOut rule).imp fun ins outs h => ⟨(solves_iff hg).mp h.solves, ?_⟩
  intro ins' outs' h' n hn
  have hle := h.below _ ((solves_iff hg).mpr h').closed n hn
  exact ⟨NameSet.isSubset_iff.mpr hle.2, NameSet.isSubset_iff.mpr hle.1⟩

end Liveness

/-! ## Reaching definitions -/

namespace Reaching

/-- The equations of reaching definitions. -/
structure Equations (g : FlowGraph) (ins outs : NodeId → NameSet) : Prop where
  in_eq : ∀ n ∈ g.nodes, ∀ t, t ∈ ins n ↔ ∃ s, g.hasEdge s n = true ∧ t ∈ outs s
  out_eq : ∀ n ∈ g.nodes, outs n = gen g (tags g) n ∪ (ins n \ kill g (tags g) n)

variable {g : FlowGraph} {ins outs : NodeId → NameSet}

theorem solves_iff : (gainLoss g).reading.system.Solves
    ⟨NameSet.members ∘ ins, NameSet.members ∘ outs⟩ ↔ Equations g ins outs := by
  constructor
  · intro h
    exact ⟨fun n hn => merges_iff.mp (h n hn).1, fun n hn => (gainLoss g).flows_iff.mp (h n hn).2⟩
  · intro h n hn
    exact ⟨merges_iff.mpr (h.in_eq n hn), (gainLoss g).flows_iff.mpr (h.out_eq n hn)⟩

/-- Every run ends in the least facts that satisfy the equations of reaching definitions. -/
theorem ends_least (hg : g.WellFormed) :
    (problem g).EndsWith (LeastFacts g.nodes (fun s t => s.isSubset t = true) (Equations g)) := by
  refine (ends hg).imp fun ins outs h => ⟨solves_iff.mp h.solves, ?_⟩
  intro ins' outs' h' n hn
  have hle := h.below _ (solves_iff.mpr h').closed n hn
  exact ⟨NameSet.isSubset_iff.mpr hle.1, NameSet.isSubset_iff.mpr hle.2⟩

end Reaching

/-! ## Constants -/

namespace ConstMap

/-- The same names with the same constants, in any order. -/
def Same (m n : ConstMap) : Prop := ∀ x, m.get? x = n.get? x

/-- All names of the first map are in the second, with constants that are not below. -/
def Below (m n : ConstMap) : Prop :=
  ∀ x c, m.get? x = some c → ∃ d, n.get? x = some d ∧ c.leq d = true

end ConstMap

namespace Constants

/-- The equations of constant propagation. -/
structure Equations (g : FlowGraph) (ins outs : NodeId → ConstMap) : Prop where
  in_eq : ∀ n ∈ g.nodes,
    (ins n).Same (ConstMap.lattice.joinAll (((g.predecessors? n).getD []).map outs))
  out_eq : ∀ n ∈ g.nodes, (outs n).Same (replay (definitionsOf g n) (ins n))

variable {g : FlowGraph} {ins outs : NodeId → ConstMap}

theorem solves_iff (hg : g.WellFormed) : (reading g).system.Solves
    ⟨ConstMap.reading ∘ ins, ConstMap.reading ∘ outs⟩ ↔ Equations g ins outs := by
  have hmerges : ∀ n ∈ g.nodes,
      ((reading g).system.Merges ⟨ConstMap.reading ∘ ins, ConstMap.reading ∘ outs⟩ n ↔
        (ins n).Same (ConstMap.lattice.joinAll (((g.predecessors? n).getD []).map outs))) := by
    intro n hn
    rw [ConstMap.Same, ← ConstMap.reading_eq_iff]
    exact (reading g).merges_iff hg hn ins outs
  have hflows : ∀ n,
      (reading g).system.Flows ⟨ConstMap.reading ∘ ins, ConstMap.reading ∘ outs⟩ n ↔
        (outs n).Same (replay (definitionsOf g n) (ins n)) := by
    intro n
    rw [ConstMap.Same, ← ConstMap.reading_eq_iff, reading_replay]
    exact Iff.rfl
  constructor
  · intro h
    exact ⟨fun n hn => (hmerges n hn).mp (h n hn).1, fun n hn => (hflows n).mp (h n hn).2⟩
  · intro h n hn
    exact ⟨(hmerges n hn).mpr (h.in_eq n hn), (hflows n).mpr (h.out_eq n hn)⟩

/-- Every run ends in the least facts that satisfy the equations of constant propagation. -/
theorem ends_least (hg : g.WellFormed) :
    (problem g).EndsWith (LeastFacts g.nodes ConstMap.Below (Equations g)) := by
  refine (ends hg).imp fun ins outs h => ⟨(solves_iff hg).mp h.solves, ?_⟩
  intro ins' outs' h' n hn
  have hle := h.below _ ((solves_iff hg).mpr h').closed n hn
  exact ⟨ConstMap.reading_le_iff.mp hle.1, ConstMap.reading_le_iff.mp hle.2⟩

end Constants

/-! ## All analyses -/

/-- On both graphs of a verified program, the runs of all analyses end, and their last snapshots
show the least solutions of the equations. -/
theorem Program.Verified.analyses_end_in_least_solutions {p : Program} (hp : p.Verified)
    (kind : GraphKind) :
    (∀ liveOut rule, (Liveness.problem (p.graph kind) liveOut rule).EndsWith
      (LeastFacts (p.graph kind).nodes (fun s t => s.isSubset t = true)
        (Liveness.Equations (p.graph kind) liveOut rule))) ∧
    (Reaching.problem (p.graph kind)).EndsWith
      (LeastFacts (p.graph kind).nodes (fun s t => s.isSubset t = true)
        (Reaching.Equations (p.graph kind))) ∧
    (Constants.problem (p.graph kind)).EndsWith
      (LeastFacts (p.graph kind).nodes ConstMap.Below (Constants.Equations (p.graph kind))) := by
  have hg : (p.graph kind).WellFormed := hp.wellFormed.graph kind
  exact ⟨Liveness.ends_least hg, Reaching.ends_least hg, Constants.ends_least hg⟩

/-- A loop, in a graph of blocks and with the counter live at the exit. -/
theorem Program.countdown_analyses_end_in_least_solutions :
    countdown.Verified ∧
    (Liveness.problem (countdown.graph .blocks) (NameSet.ofList ["n"]) none).EndsWith
      (LeastFacts (countdown.graph .blocks).nodes (fun s t => s.isSubset t = true)
        (Liveness.Equations (countdown.graph .blocks) (NameSet.ofList ["n"]) none)) ∧
    (Reaching.problem (countdown.graph .blocks)).EndsWith
      (LeastFacts (countdown.graph .blocks).nodes (fun s t => s.isSubset t = true)
        (Reaching.Equations (countdown.graph .blocks))) ∧
    (Constants.problem (countdown.graph .blocks)).EndsWith
      (LeastFacts (countdown.graph .blocks).nodes ConstMap.Below
        (Constants.Equations (countdown.graph .blocks))) := by
  obtain ⟨hlive, hreach, hconst⟩ := verified_countdown.analyses_end_in_least_solutions .blocks
  exact ⟨verified_countdown, hlive _ _, hreach, hconst⟩

end FlowTrace
