import FlowTrace.Proofs.Graph.Builds
import FlowTrace.Proofs.Program.Renaming

/-!
# Graphs under other ids

A renaming that carries one program to another one carries their graphs to each other, if it also
carries the entry to the entry and the exit to the exit: nodes, what they cover, edges, and the
order in which the edges are listed.
-/

namespace FlowTrace

namespace FlowGraph

/-- One graph is the other with its ids renamed. -/
structure Renamed (σ : Equiv.Perm NodeId) (g g' : FlowGraph) : Prop where
  kind_eq : g'.kind = g.kind
  program : g.program.Renamed σ g'.program
  entry_eq : g'.entry = σ g.entry
  exit_eq : g'.exit = σ g.exit
  covered_eq : g'.covered.entries = g.covered.entries.map (Prod.map σ (List.map σ))
  hasEdge_eq : ∀ a b, g'.hasEdge (σ a) (σ b) = g.hasEdge a b

namespace Renamed

variable {σ : Equiv.Perm NodeId} {g g' : FlowGraph} {n : NodeId}

theorem dataNodes_eq (h : g.Renamed σ g') : g'.dataNodes = g.dataNodes.map σ := by
  rw [dataNodes, Table.keys, h.covered_eq, List.map_map, dataNodes, Table.keys, List.map_map]
  rfl

theorem nodes_eq (h : g.Renamed σ g') : g'.nodes = g.nodes.map σ := by
  simp [nodes, h.dataNodes_eq, h.entry_eq, h.exit_eq]

theorem mem_nodes_iff (h : g.Renamed σ g') : σ n ∈ g'.nodes ↔ n ∈ g.nodes := by
  rw [h.nodes_eq, List.mem_map_of_injective σ.injective]

theorem coveredBy_eq (h : g.Renamed σ g') (n : NodeId) :
    g'.coveredBy (σ n) = (g.coveredBy n).map σ := by
  rw [coveredBy, Table.get?_rename σ.injective _ h.covered_eq, coveredBy]
  cases g.covered.get? n <;> rfl

/-- A node covers the same instructions. -/
theorem instrsOf_eq (h : g.Renamed σ g') (n : NodeId) :
    g'.instrsOf (σ n) = (g.instrsOf n).map (Prod.map σ id) := by
  rw [instrsOf, h.coveredBy_eq, List.filterMap_map, instrsOf, List.map_filterMap]
  refine List.filterMap_congr fun i _ => ?_
  rw [Function.comp_apply, h.program.instr?_eq]
  cases g.program.instr? i <;> rfl

theorem map_snd_instrsOf (h : g.Renamed σ g') (n : NodeId) :
    (g'.instrsOf (σ n)).map Prod.snd = (g.instrsOf n).map Prod.snd := by
  rw [h.instrsOf_eq, List.map_map]
  rfl

theorem isBackEdge_eq (h : g.Renamed σ g') (a b : NodeId) :
    g'.isBackEdge (σ a) (σ b) = g.isBackEdge a b := by
  have hbeq : ∀ i j : NodeId, (σ i == σ j) = (i == j) := fun i j => by
    rw [Bool.eq_iff_iff, beq_iff_eq, beq_iff_eq, σ.injective.eq_iff]
  rw [isBackEdge, isBackEdge, h.hasEdge_eq, h.program.isBefore_eq, h.entry_eq, h.exit_eq]
  simp only [List.any_cons, List.any_nil, hbeq]

/-- Edges are listed in the same order. -/
theorem edges_eq (h : g.Renamed σ g') (hg : g.nodes.Nodup) :
    g'.edges = g.edges.map fun e => ⟨σ e.source, σ e.target, e.isBack⟩ := by
  have hg' : g'.nodes.Nodup := h.nodes_eq ▸ hg.map σ.injective
  rw [FlowGraph.edges_eq hg, FlowGraph.edges_eq hg', h.nodes_eq, List.flatMap_map, List.map_flatMap]
  refine List.flatMap_congr fun a _ => ?_
  rw [List.filter_map, List.map_map, List.map_map]
  simp only [Function.comp_def, h.hasEdge_eq, h.isBackEdge_eq]

end Renamed

end FlowGraph

namespace Program.Renamed

variable {σ : Equiv.Perm NodeId} {p q : Program} {kind : GraphKind}

theorem coverOf_eq (h : p.Renamed σ q) (kind : GraphKind) :
    (FlowGraph.coverOf kind q).entries =
      (FlowGraph.coverOf kind p).entries.map (Prod.map σ (List.map σ)) := by
  cases kind with
  | single => exact h.singletons_eq
  | blocks => exact h.basicBlocks_eq

/-- Edges lead from the same nodes to the same nodes. -/
theorem hasEdge_iff (h : p.Renamed σ q) (hp : p.WellFormed) (hq : q.WellFormed)
    (hentry : (q.graph kind).entry = σ (p.graph kind).entry)
    (hexit : (q.graph kind).exit = σ (p.graph kind).exit) (a b : NodeId) :
    (q.graph kind).hasEdge (σ a) (σ b) = true ↔ (p.graph kind).hasEdge a b = true := by
  rw [hp.graph_hasEdge_iff, hq.graph_hasEdge_iff, hentry, hexit, h.first_eq, h.last_eq,
    Table.get?_rename σ.injective _ (h.coverOf_eq kind)]
  simp only [σ.injective.eq_iff, Option.map_eq_some_iff]
  refine or_congr Iff.rfl ⟨?_, ?_⟩
  · rintro ⟨_, l, ⟨c, hc, rfl⟩, hl, hb⟩
    rw [List.getLast?_map, Option.map_eq_some_iff] at hl
    obtain ⟨l, hl, rfl⟩ := hl
    rw [h.mem_successors_iff, σ.injective.eq_iff] at hb
    exact ⟨c, l, hc, hl, hb⟩
  · rintro ⟨c, l, hc, hl, hb⟩
    refine ⟨c.map σ, σ l, ⟨c, hc, rfl⟩, by rw [List.getLast?_map, hl]; rfl, ?_⟩
    rw [h.mem_successors_iff, σ.injective.eq_iff]
    exact hb

theorem graph (h : p.Renamed σ q) (hp : p.WellFormed) (hq : q.WellFormed)
    (hentry : (q.graph kind).entry = σ (p.graph kind).entry)
    (hexit : (q.graph kind).exit = σ (p.graph kind).exit) :
    (p.graph kind).Renamed σ (q.graph kind) where
  kind_eq := rfl
  program := ⟨h.code_eq, h.labelled?_eq⟩
  entry_eq := hentry
  exit_eq := hexit
  covered_eq := by
    rw [graph_covered, graph_covered]
    exact h.coverOf_eq kind
  hasEdge_eq a b := Bool.eq_iff_iff.mpr (h.hasEdge_iff hp hq hentry hexit a b)

end Program.Renamed

/-- The graphs of verified programs of the same instructions are renamings of each other. -/
theorem Program.Verified.exists_renamed_graph {p q : Program} (hp : p.Verified) (hq : q.Verified)
    (hcode : q.code.map Prod.snd = p.code.map Prod.snd) (kind : GraphKind) :
    ∃ σ : Equiv.Perm NodeId, (p.graph kind).Renamed σ (q.graph kind) := by
  have hnodup : ∀ {p : Program}, p.Verified →
      ([(p.graph kind).entry, (p.graph kind).exit] ++ p.ids).Nodup := by
    intro p hp
    have hwf := hp.wellFormed
    have hentry : (p.graph kind).entry ∉ p.ids := hwf.graph_entry_notMem
    have hexit : (p.graph kind).exit ∉ p.ids := hwf.graph_exit_notMem
    simp [hwf.ids_nodup, hwf.graph_entry_ne_exit, hentry, hexit]
  have hlength : [(p.graph kind).entry, (p.graph kind).exit].length =
      [(q.graph kind).entry, (q.graph kind).exit].length := rfl
  obtain ⟨σ, hl, hσ⟩ := hp.exists_renamed hq hcode hlength (hnodup hp) (hnodup hq)
  obtain ⟨hentry, hl⟩ := List.cons.inj hl
  obtain ⟨hexit, -⟩ := List.cons.inj hl
  exact ⟨σ, hσ.graph hp.wellFormed hq.wellFormed hentry hexit⟩

end FlowTrace
