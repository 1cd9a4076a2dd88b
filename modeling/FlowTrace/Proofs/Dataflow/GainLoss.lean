import FlowTrace.Dataflow.Liveness
import FlowTrace.Dataflow.Reaching
import FlowTrace.Proofs.Dataflow.Fixpoint
import FlowTrace.Proofs.Lattice.Names
import Mathlib.Order.CompletePartialOrder

/-!
# Problems over sets of names

Live variables and reaching definitions have facts of one kind: each node adds some names to a set
and takes others away from it.  Their runs end in the least solution of equations between sets.
-/

namespace FlowTrace

/-! ## Equations between sets -/

namespace System

variable {S : System (Set String)} {x : Family (Set String)} {n : NodeId}

/-- The merged value is the union of the boundary and of what comes from the sources. -/
theorem merges_iff_mem : S.Merges x n ↔
    ∀ a, a ∈ x.merged n ↔ a ∈ S.boundary n ∨ ∃ s ∈ S.sources n, a ∈ x.flowed s := by
  have hunion : IsLUB (insert (S.boundary n) (x.flowed '' S.sources n))
      {a | a ∈ S.boundary n ∨ ∃ s ∈ S.sources n, a ∈ x.flowed s} := by
    constructor
    · rintro _ (rfl | ⟨s, hs, rfl⟩) a ha
      · exact .inl ha
      · exact .inr ⟨s, hs, ha⟩
    · rintro u hu a (ha | ⟨s, hs, ha⟩)
      · exact hu (Set.mem_insert _ _) ha
      · exact hu (Set.mem_insert_of_mem _ ⟨s, hs, rfl⟩) ha
  constructor
  · intro h a
    rw [hunion.unique h |>.symm]
    rfl
  · intro h
    have heq : x.merged n = {a | a ∈ S.boundary n ∨ ∃ s ∈ S.sources n, a ∈ x.flowed s} :=
      Set.ext h
    rw [Merges, heq]
    exact hunion

end System

/-! ## Gains and losses -/

/-- What each node adds to a set of names and what it takes away from it. -/
structure Problem.GainLoss (p : Problem NameSet) where
  described : p.Described
  gain : NodeId → NameSet
  loss : NodeId → NameSet
  lattice_eq : p.lattice = NameSet.openLattice
  absorb_eq : ∀ a b, p.absorb a b = a ∪ b
  transfer_eq : ∀ n s, p.transfer n s = gain n ∪ (s \ loss n)

namespace Problem.GainLoss

variable {p : Problem NameSet}

/-- Sets of names are read as sets. -/
def reading (G : p.GainLoss) : p.Reading (Set String) where
  described := G.described
  read := NameSet.members
  effect n s := (G.gain n).members ∪ (s \ (G.loss n).members)
  read_bottom := by
    rw [G.lattice_eq]
    exact NameSet.members_empty
  eq_iff a b := by
    rw [G.lattice_eq]
    change (a == b) = true ↔ _
    rw [beq_iff_eq, NameSet.members_injective.eq_iff]
  read_join a b := by
    rw [G.lattice_eq]
    exact NameSet.members_union
  read_transfer n a := by
    rw [G.transfer_eq, NameSet.members_union, NameSet.members_diff]
  effect_mono n s t h := Set.union_subset_union_right _ (Set.sdiff_subset_sdiff_left h)
  read_absorb a b h := by
    rw [G.absorb_eq, NameSet.members_union]
    exact Set.union_eq_self_of_subset_left h

theorem flows_iff (G : p.GainLoss) {merged flowed : NodeId → NameSet} {n : NodeId} :
    G.reading.system.Flows ⟨NameSet.members ∘ merged, NameSet.members ∘ flowed⟩ n ↔
      flowed n = G.gain n ∪ (merged n \ G.loss n) := by
  rw [← NameSet.members_injective.eq_iff, NameSet.members_union, NameSet.members_diff]
  exact Iff.rfl

/-- A finite set that has all names in it is a bound on the facts. -/
noncomputable def height (G : p.GainLoss) (all : Set String) (hfin : all.Finite)
    (hcard : all.ncard ≤ p.height)
    (hboundary : ∀ n ∈ p.graph.nodes, (p.boundary n).members ⊆ all)
    (hgain : ∀ n ∈ p.graph.nodes, (G.gain n).members ⊆ all) : G.reading.Height where
  ceiling := all
  rank := Set.ncard
  boundary_le := hboundary
  effect_le n hn := Set.union_subset (hgain n hn) Set.sdiff_subset
  rank_lt hlt hle := Set.ncard_lt_ncard hlt (hfin.subset hle)
  rank_le hle := (Set.ncard_le_ncard hle hfin).trans hcard

end Problem.GainLoss

/-! ## Live variables -/

namespace Liveness

variable {g : FlowGraph} {liveOut : NameSet} {rule : Option Bool} {n : NodeId}

/-- What a node of a graph uses and defines under a choice of the rule for blocks. -/
def useDef (g : FlowGraph) (rule : Option Bool) (n : NodeId) : UseDef :=
  useDefOfNode g (blockRuleFor g rule) n

theorem useDefOfNode_of_notMem (blockRule : Bool) (h : n ∉ g.nodes) :
    useDefOfNode g blockRule n = .empty := by
  rw [useDefOfNode, FlowGraph.instrsOf_of_notMem h]
  cases blockRule <;> rfl

def gainLoss (g : FlowGraph) (liveOut : NameSet) (rule : Option Bool) :
    (problem g liveOut rule).GainLoss where
  described := by
    have hkeys : ∀ (f : UseDef → NameSet) (n : NodeId),
        n ∈ ((g.tabulate (useDefOfNode g (blockRuleFor g rule))).mapEntries fun _ ud => f ud).keys ↔
          n ∈ g.nodes := by
      intro f n
      rw [Table.keys_mapEntries, FlowGraph.mem_keys_tabulate]
    exact List.forall_mem_cons.mpr ⟨hkeys _, List.forall_mem_singleton.mpr (hkeys _)⟩
  gain n := (useDef g rule n).use
  loss n := (useDef g rule n).defs
  lattice_eq := rfl
  absorb_eq _ _ := rfl
  transfer_eq n s := by
    have hget : ∀ f : UseDef → NameSet, f .empty = ∅ →
        (((g.tabulate (useDefOfNode g (blockRuleFor g rule))).mapEntries
          fun _ ud => f ud).get? n).getD ∅ = f (useDef g rule n) := by
      intro f hf
      rw [Table.get?_mapEntries, ← hf, Option.getD_map, FlowGraph.getD_get?_tabulate]
      · rfl
      · exact useDefOfNode_of_notMem _
    simp only [problem, hget UseDef.use rfl, hget UseDef.defs rfl]

/-- Only at the exit variables are live by themselves. -/
theorem boundary_eq : (gainLoss g liveOut rule).reading.system.boundary n =
    {a | n = g.exit ∧ a ∈ liveOut} := by
  change (if n = g.exit then liveOut else ∅).members = _
  ext a
  split
  · next h => simp [h]
  · next h => simp [h]

/-- Variables are live after a node if they are live before a successor. -/
theorem merges_iff {x : Family (Set String)} :
    (gainLoss g liveOut rule).reading.system.Merges x n ↔ ∀ a, a ∈ x.merged n ↔
      (n = g.exit ∧ a ∈ liveOut) ∨ ∃ s, g.hasEdge n s = true ∧ a ∈ x.flowed s := by
  rw [System.merges_iff_mem, boundary_eq]
  exact Iff.rfl

/-- All names that a set of live variables can have: those that are live at the exit and those that
some node reads. -/
def names (g : FlowGraph) (liveOut : NameSet) (rule : Option Bool) : NameSet :=
  ((g.tabulate (useDefOfNode g (blockRuleFor g rule))).mapEntries fun _ ud => ud.use).values.foldl
    (· ∪ ·) liveOut

theorem members_names : (names g liveOut rule).members = liveOut.members ∪
    {x | ∃ u ∈ ((g.tabulate (useDefOfNode g (blockRuleFor g rule))).mapEntries
      fun _ ud => ud.use).values, x ∈ u} :=
  NameSet.members_foldl_union id _ liveOut

/-- A variable becomes live at a node at most once. -/
noncomputable def height (g : FlowGraph) (liveOut : NameSet) (rule : Option Bool) :
    (gainLoss g liveOut rule).reading.Height :=
  (gainLoss g liveOut rule).height (names g liveOut rule).members
    (names g liveOut rule).finite_members (NameSet.ncard_members (names g liveOut rule)).le
    (by
      intro n _
      rw [members_names]
      simp only [problem]
      split
      · exact Set.subset_union_left
      · simp)
    (by
      intro n hn x hx
      have hget : ((g.tabulate (useDefOfNode g (blockRuleFor g rule))).mapEntries
          fun _ ud => ud.use).get? n = some (useDef g rule n).use := by
        have hmem : n ∈ g.nodes := hn
        rw [Table.get?_mapEntries, FlowGraph.get?_tabulate, if_pos hmem]
        rfl
      rw [members_names]
      exact .inr ⟨_, Table.mem_values_iff.mpr ⟨n, hget⟩, hx⟩)

/-- Every run ends in the least solution of the equations of live variables. -/
theorem ends (hg : g.WellFormed) (liveOut : NameSet) (rule : Option Bool) :
    (problem g liveOut rule).EndsWith fun ins outs =>
      (gainLoss g liveOut rule).reading.system.LeastSolution
        ⟨NameSet.members ∘ outs, NameSet.members ∘ ins⟩ :=
  (gainLoss g liveOut rule).reading.ends (height g liveOut rule) hg

end Liveness

/-! ## Reaching definitions -/

namespace Reaching

variable {g : FlowGraph} {n : NodeId} {ts : Table NodeId String}

theorem mem_tagged {code : List (NodeId × Instr)} {w : String × String} : w ∈ tagged ts code ↔
    ∃ e ∈ code, e.2.defines? = some w.1 ∧ ts.get? e.1 = some w.2 := by
  simp only [tagged, List.mem_filterMap, Option.bind_eq_bind, Option.bind_eq_some_iff,
    Option.pure_def, Option.some.injEq]
  constructor
  · rintro ⟨e, he, x, hx, t, ht, rfl⟩
    exact ⟨e, he, hx, ht⟩
  · rintro ⟨e, he, hx, ht⟩
    exact ⟨e, he, w.1, hx, w.2, ht, rfl⟩

/-- What a node leaves behind are tags of the table. -/
theorem mem_values_of_mem_gen {t : String} (h : t ∈ gen g ts n) : t ∈ ts.values := by
  rw [gen, NameSet.mem_ofList, Table.mem_values_iff] at h
  obtain ⟨x, hx⟩ := h
  obtain ⟨e, -, -, ht⟩ := mem_tagged.mp (Table.mem_of_get?_ofList hx)
  exact Table.mem_values_iff.mpr ⟨e.1, ht⟩

theorem gen_of_notMem (h : n ∉ g.nodes) : gen g ts n = ∅ := by
  rw [gen, lastWrites, FlowGraph.instrsOf_of_notMem h]
  rfl

theorem kill_of_notMem (h : n ∉ g.nodes) : kill g ts n = ∅ := by
  rw [NameSet.ext_iff_mem]
  intro t
  simp [kill, lastWrites, FlowGraph.instrsOf_of_notMem h, tagged, Table.ofList, Table.insertAll,
    Table.contains]

def gainLoss (g : FlowGraph) : (problem g).GainLoss where
  described := List.forall_mem_cons.mpr ⟨fun _ => FlowGraph.mem_keys_tabulate,
    List.forall_mem_singleton.mpr fun _ => FlowGraph.mem_keys_tabulate⟩
  gain := gen g (tags g)
  loss := kill g (tags g)
  lattice_eq := rfl
  absorb_eq _ _ := rfl
  transfer_eq n s := by
    simp only [problem, FlowGraph.getD_get?_tabulate gen_of_notMem,
      FlowGraph.getD_get?_tabulate kill_of_notMem]

theorem boundary_eq : (gainLoss g).reading.system.boundary n = ∅ := NameSet.members_empty

/-- A definition reaches a node if it leaves a predecessor. -/
theorem merges_iff {x : Family (Set String)} :
    (gainLoss g).reading.system.Merges x n ↔ ∀ t, t ∈ x.merged n ↔
      ∃ s, g.hasEdge s n = true ∧ t ∈ x.flowed s := by
  rw [System.merges_iff_mem, boundary_eq]
  simp only [Set.mem_empty_iff_false, false_or]
  exact Iff.rfl

/-- A definition comes to reach a node at most once. -/
noncomputable def height (g : FlowGraph) : (gainLoss g).reading.Height :=
  (gainLoss g).height (tags g).values.toFinset (tags g).values.toFinset.finite_toSet
    (by
      rw [Set.ncard_coe_finset]
      refine (List.toFinset_card_le _).trans ?_
      rw [Table.values, List.length_map]
      exact le_rfl)
    (fun n _ => by simp [problem])
    (by
      intro n _ t ht
      exact List.mem_toFinset.mpr (mem_values_of_mem_gen ht))

/-- Every run ends in the least solution of the equations of reaching definitions. -/
theorem ends (hg : g.WellFormed) :
    (problem g).EndsWith fun ins outs =>
      (gainLoss g).reading.system.LeastSolution
        ⟨NameSet.members ∘ ins, NameSet.members ∘ outs⟩ :=
  (gainLoss g).reading.ends (height g) hg

end Reaching

end FlowTrace
