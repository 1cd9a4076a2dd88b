import FlowTrace.Proofs.Graph.Quotient
import Mathlib.Data.List.Nodup

/-!
# Graphs that are built one after the other

Building graphs of a program, of either kind and any number of them, never fails.  Each of the
graphs is *orderly*: its nodes stand in program order, its two kinds of lists say the same about its
edges, and the edges are listed once each.  The ids that are reserved for entries and exits are new
every time.
-/

namespace FlowTrace

/-! ## Order -/

theorem eraseDups_of_nodup {l : List NodeId} (h : l.Nodup) : l.eraseDups = l := by
  induction l with
  | nil => rfl
  | cons a l ih =>
    obtain ⟨ha, hl⟩ := List.nodup_cons.mp h
    have hfilter : l.filter (fun b => !b == a) = l := by
      rw [List.filter_eq_self]
      intro b hb
      have hne : b ≠ a := fun e => ha (e ▸ hb)
      simp [hne]
    rw [List.eraseDups_cons, hfilter, ih hl]

/-- In a list without repetition places grow from the left to the right. -/
theorem pairwise_idxOf {l : List NodeId} (h : l.Nodup) :
    l.Pairwise fun a b => l.idxOf a < l.idxOf b := by
  rw [List.pairwise_iff_getElem]
  intro i j hi hj hij
  rw [h.idxOf_getElem i hi, h.idxOf_getElem j hj]
  exact hij

namespace Program

variable {p : Program} {kind : GraphKind} {i : NodeId}

theorem WellFormed.pairwise_isBefore (hp : p.WellFormed) :
    p.ids.Pairwise fun i j => p.isBefore i j = true := by
  rw [List.pairwise_iff_getElem]
  intro m n hm hn hmn
  have hpos : ∀ k (hk : k < p.ids.length), p.position? p.ids[k] = some k := fun k hk =>
    hp.position?_eq_some_iff.mpr (List.getElem?_eq_getElem hk)
  exact (isBefore_of_position? (hpos m hm) (hpos n hn)).mpr hmn

/-- Wherever a jump goes, there is an instruction. -/
theorem WellFormed.exists_jumpTargets (hp : p.WellFormed) {o : Option NodeId}
    (ho : o ∈ p.jumpTargets i) : ∃ j ∈ p.ids, o = some j := by
  rw [jumpTargets, List.mem_map] at ho
  obtain ⟨label, hlabel, rfl⟩ := ho
  obtain ⟨instr, hi, ht⟩ := Option.bind_eq_some_iff.mp (Option.mem_toList.mp hlabel)
  exact hp.target_mem (hp.instr?_eq_some_iff.mp hi) ht

/-- Wherever control goes on, there is an instruction. -/
theorem WellFormed.exists_executedAfter (hp : p.WellFormed) {o : Option NodeId}
    (ho : o ∈ p.executedAfter i) : ∃ j ∈ p.ids, o = some j := by
  rw [executedAfter, List.mem_append] at ho
  rcases ho with ho | ho
  · split at ho
    · obtain ⟨j, hj, rfl⟩ := List.mem_map.mp ho
      exact ⟨j, (hp.mem_of_following? (Option.mem_toList.mp hj)).2, rfl⟩
    · cases ho
  · exact hp.exists_jumpTargets (List.mem_of_mem_filter ho)

end Program

namespace FlowGraph

variable {g : FlowGraph} {p : Program} {covered : Table NodeId (List NodeId)}

/-- The nodes of a cover stand in program order. -/
theorem Covers.keys_sublist (hc : Covers p covered) : covered.keys.Sublist p.ids := by
  have hheads : ∀ es : List (NodeId × List NodeId), (∀ e ∈ es, e.2.head? = some e.1) →
      (es.map Prod.fst).Sublist (es.flatMap Prod.snd) := by
    intro es hes
    induction es with
    | nil => exact List.Sublist.refl []
    | cons e es ih =>
      obtain ⟨rest, hrest⟩ := List.head?_eq_some_iff.mp (hes e List.mem_cons_self)
      rw [List.map_cons, List.flatMap_cons, hrest, List.cons_append]
      exact .cons_cons e.1
        ((ih fun d hd => hes d (List.mem_cons_of_mem _ hd)).trans (List.sublist_append_right _ _))
  rw [← hc.flatten_eq]
  exact hheads covered.entries fun e he => hc.head_eq (Table.get?_eq_some_iff.mpr he)

/-- One node covers the last instruction, at its end. -/
theorem Covers.existsUnique_last (hc : Covers p covered) (hp : p.WellFormed) :
    ∃! n, ∃ c, covered.get? n = some c ∧ c.getLast? = some p.last := by
  obtain ⟨n, c, hn, hmem⟩ := hc.exists_mem p.last_mem
  obtain ⟨pre, post, rfl⟩ := List.append_of_mem hmem
  refine ⟨n, ⟨_, hn, ?_⟩, ?_⟩
  · cases post with
    | nil => exact List.getLast?_concat
    | cons j post => exact absurd rfl (hc.inner hn).2.2.1
  · rintro m ⟨c, hm, hlast⟩
    exact hc.unique hp hm hn (List.mem_of_mem_getLast? hlast) hmem

/-! ## Orderly graphs -/

/-- One edge is listed before another: by the place of its source, then by that of its target. -/
def ListedBefore (g : FlowGraph) (e f : Edge) : Prop :=
  g.nodes.idxOf e.source < g.nodes.idxOf f.source ∨
    (e.source = f.source ∧ g.nodes.idxOf e.target < g.nodes.idxOf f.target)

/-- What holds of a graph that was built: its nodes stand in order, and its lists of neighbours and
of edges fit together. -/
structure Orderly (g : FlowGraph) : Prop where
  nodes_eq : g.nodes = g.entry :: g.dataNodes ++ [g.exit]
  nodes_nodup : g.nodes.Nodup
  data_ordered : g.dataNodes.Pairwise fun a b => g.program.isBefore a b = true
  /-- A data node is the first of the instructions that it covers. -/
  covered_eq : ∀ n ∈ g.dataNodes, ∃ rest, g.covered.get? n = some (n :: rest)
  covered_flatten : g.covered.values.flatten = g.program.ids
  /-- Wherever control goes on, there is an instruction. -/
  executedAfter_mem : ∀ i ∈ g.program.ids, ∀ o ∈ g.program.executedAfter i,
    ∃ j ∈ g.program.ids, o = some j
  mem_nodes_iff_successors : ∀ n, n ∈ g.nodes ↔ ∃ ss, g.successors? n = some ss
  mem_nodes_iff_predecessors : ∀ n, n ∈ g.nodes ↔ ∃ ps, g.predecessors? n = some ps
  successor_mem : ∀ {n ss}, g.successors? n = some ss → ∀ b ∈ ss, b ∈ g.nodes
  predecessor_mem : ∀ {n ps}, g.predecessors? n = some ps → ∀ a ∈ ps, a ∈ g.nodes
  mem_successors_iff : ∀ {a b ss ps}, g.successors? a = some ss → g.predecessors? b = some ps →
    (b ∈ ss ↔ a ∈ ps)
  predecessors_entry : g.predecessors? g.entry = some []
  successors_entry : g.successors? g.entry = some [g.program.first]
  successors_exit : g.successors? g.exit = some []
  existsUnique_exit : ∃! n, n ∈ g.dataNodes ∧ g.hasEdge n g.exit = true
  mem_edges_iff : ∀ e, e ∈ g.edges ↔
    g.hasEdge e.source e.target = true ∧ e.isBack = g.isBackEdge e.source e.target
  edges_ordered : g.edges.Pairwise g.ListedBefore

theorem lastPlaces_eq (h : g.nodes.Nodup) : g.lastPlaces = g.nodes := by
  rw [lastPlaces, eraseDups_of_nodup (List.nodup_reverse.mpr h), List.reverse_reverse]

theorem edges_eq (h : g.nodes.Nodup) :
    g.edges = g.nodes.flatMap fun a => (g.nodes.filter (g.hasEdge a ·)).map fun b =>
      ⟨a, b, g.isBackEdge a b⟩ := by
  rw [edges, lastPlaces_eq h]
  rfl

theorem WellFormed.mem_edges_iff (hg : g.WellFormed) {e : Edge} : e ∈ g.edges ↔
    g.hasEdge e.source e.target = true ∧ e.isBack = g.isBackEdge e.source e.target := by
  rw [edges_eq hg.nodes_nodup]
  simp only [List.mem_flatMap, List.mem_map, List.mem_filter]
  constructor
  · rintro ⟨a, -, b, ⟨-, hab⟩, rfl⟩
    exact ⟨hab, rfl⟩
  · rintro ⟨hedge, hback⟩
    obtain ⟨hs, ht⟩ := hg.mem_of_hasEdge hedge
    exact ⟨e.source, hs, e.target, ⟨ht, hedge⟩, by rw [← hback]⟩

theorem pairwise_edges (h : g.nodes.Nodup) : g.edges.Pairwise g.ListedBefore := by
  rw [edges_eq h, List.pairwise_flatMap]
  constructor
  · intro a _
    rw [List.pairwise_map]
    exact ((pairwise_idxOf h).sublist List.filter_sublist).imp fun hlt => .inr ⟨rfl, hlt⟩
  · refine (pairwise_idxOf h).imp ?_
    intro a b hab e he f hf
    obtain ⟨_, -, rfl⟩ := List.mem_map.mp he
    obtain ⟨_, -, rfl⟩ := List.mem_map.mp hf
    exact .inl hab

end FlowGraph

namespace Program

variable {p : Program} {kind : GraphKind} {n : NodeId}

theorem WellFormed.successors?_exit (hp : p.WellFormed) :
    (p.graph kind).successors? (p.graph kind).exit = some [] := by
  rw [graph_successors?, FlowGraph.get?_successorsOf (FlowGraph.covers_coverOf hp kind)
    hp.graph_entry_notMem hp.graph_exit_notMem hp.graph_entry_ne_exit]
  exact .inr (.inl ⟨rfl, rfl⟩)

/-- Only nodes have lists of neighbours. -/
theorem WellFormed.mem_nodes_of_successors? (hp : p.WellFormed) {ss : List NodeId}
    (h : (p.graph kind).successors? n = some ss) : n ∈ (p.graph kind).nodes := by
  rw [graph_successors?, FlowGraph.get?_successorsOf (FlowGraph.covers_coverOf hp kind)
    hp.graph_entry_notMem hp.graph_exit_notMem hp.graph_entry_ne_exit] at h
  rcases h with ⟨rfl, -⟩ | ⟨rfl, -⟩ | ⟨c, hc, -⟩
  · exact FlowGraph.entry_mem _
  · exact FlowGraph.exit_mem _
  · exact FlowGraph.data_mem (mem_dataNodes_iff.mpr ⟨c, hc⟩)

theorem WellFormed.mem_nodes_of_predecessors? (hp : p.WellFormed) {ps : List NodeId}
    (h : (p.graph kind).predecessors? n = some ps) : n ∈ (p.graph kind).nodes := by
  rw [graph_predecessors?, FlowGraph.invert, Table.get?_mapEntries, Option.map_eq_some_iff] at h
  obtain ⟨ss, hss, -⟩ := h
  exact hp.mem_nodes_of_successors? hss

/-- The data node that ends with the last instruction is the only one that leads to the exit. -/
theorem WellFormed.existsUnique_exit (hp : p.WellFormed) :
    ∃! n, n ∈ (p.graph kind).dataNodes ∧
      (p.graph kind).hasEdge n (p.graph kind).exit = true := by
  have hcov := FlowGraph.covers_coverOf hp kind
  have hiff : ∀ n, (n ∈ (p.graph kind).dataNodes ∧
      (p.graph kind).hasEdge n (p.graph kind).exit = true) ↔
      ∃ c, (FlowGraph.coverOf kind p).get? n = some c ∧ c.getLast? = some p.last := by
    intro n
    rw [hp.graph_hasEdge_iff]
    constructor
    · rintro ⟨-, ⟨-, hfirst⟩ | ⟨c, l, hc, hl, hb | ⟨rfl, -⟩⟩⟩
      · exact absurd (hfirst ▸ p.first_mem) hp.graph_exit_notMem
      · exact absurd (hp.mem_of_mem_successors hb).2 hp.graph_exit_notMem
      · exact ⟨c, hc, hl⟩
    · rintro ⟨c, hc, hl⟩
      exact ⟨mem_dataNodes_iff.mpr ⟨c, hc⟩, .inr ⟨c, p.last, hc, hl, .inr ⟨rfl, rfl⟩⟩⟩
  exact (existsUnique_congr hiff).mpr (hcov.existsUnique_last hp)

/-- The lists of successors and of predecessors say the same. -/
theorem WellFormed.mem_successors_iff_mem_predecessors (hp : p.WellFormed) {a b : NodeId}
    {ss ps : List NodeId} (hss : (p.graph kind).successors? a = some ss)
    (hps : (p.graph kind).predecessors? b = some ps) : b ∈ ss ↔ a ∈ ps := by
  obtain ⟨ps', hps', hmem⟩ := (hp.graph kind).exists_predecessors b
    (hp.mem_nodes_of_predecessors? hps)
  rw [hps, Option.some.injEq] at hps'
  rw [hps', hmem, FlowGraph.hasEdge_iff, hss]
  simp

theorem WellFormed.orderly (hp : p.WellFormed) (kind : GraphKind) : (p.graph kind).Orderly := by
  have hg := hp.graph kind
  have hcov := FlowGraph.covers_coverOf hp kind
  have hpredecessor : ∀ {n ps}, (p.graph kind).predecessors? n = some ps → ∀ a ∈ ps,
      (p.graph kind).hasEdge a n = true := by
    intro n ps hps a ha
    obtain ⟨ps', hps', hmem⟩ := hg.exists_predecessors n (hp.mem_nodes_of_predecessors? hps)
    rw [hps, Option.some.injEq] at hps'
    exact (hmem a).mp (hps' ▸ ha)
  exact {
    nodes_eq := rfl
    nodes_nodup := hg.nodes_nodup
    data_ordered := by
      rw [FlowGraph.dataNodes, graph_covered]
      exact hp.pairwise_isBefore.sublist hcov.keys_sublist
    covered_eq := fun n hn => hp.head_of_mem_dataNodes hn
    covered_flatten := by
      rw [graph_covered, Table.values, ← List.flatMap_def]
      exact hcov.flatten_eq
    executedAfter_mem := fun i _ o ho => hp.exists_executedAfter ho
    mem_nodes_iff_successors := fun n =>
      ⟨hg.exists_successors n, fun ⟨_, h⟩ => hp.mem_nodes_of_successors? h⟩
    mem_nodes_iff_predecessors := fun n =>
      ⟨fun hn => (hg.exists_predecessors n hn).imp fun _ h => h.1,
        fun ⟨_, h⟩ => hp.mem_nodes_of_predecessors? h⟩
    successor_mem := fun hss b hb =>
      (hg.mem_of_hasEdge (FlowGraph.hasEdge_iff.mpr ⟨_, hss, hb⟩)).2
    predecessor_mem := fun hps a ha => (hg.mem_of_hasEdge (hpredecessor hps a ha)).1
    mem_successors_iff := hp.mem_successors_iff_mem_predecessors
    predecessors_entry := by
      obtain ⟨ps, hps, -⟩ := hg.exists_predecessors _ (FlowGraph.entry_mem _)
      have hnil : ps = [] := List.eq_nil_iff_forall_not_mem.mpr fun a ha =>
        Bool.false_ne_true (hg.hasEdge_entry.symm.trans (hpredecessor hps a ha))
      rw [hps, hnil]
    successors_entry := hp.successors?_entry
    successors_exit := hp.successors?_exit
    existsUnique_exit := hp.existsUnique_exit
    mem_edges_iff := fun _ => hg.mem_edges_iff
    edges_ordered := FlowGraph.pairwise_edges hg.nodes_nodup }

/-! ## Sequences of builds -/

/-- Build graphs of some kinds one after the other. -/
def buildAll (p : Program) : List GraphKind → List (Except NodeId FlowGraph) × Program
  | [] => ([], p)
  | kind :: kinds =>
    let (g, p) := FlowGraph.build? kind p
    let (gs, p) := p.buildAll kinds
    (g :: gs, p)

theorem build?_snd (p : Program) (kind : GraphKind) :
    (FlowGraph.build? kind p).2 = p.reserve.2.reserve.2 := by
  simp only [FlowGraph.build?, FlowGraph.build, reserve]
  split <;> rfl

/-- What a sequence of builds gives, with the ids that it takes from the supply. -/
theorem WellFormed.exists_buildAll (hp : p.WellFormed) (kinds : List GraphKind) :
    ∃ gs : List FlowGraph, (p.buildAll kinds).1 = gs.map .ok ∧ gs.map (·.kind) = kinds ∧
      (∀ g ∈ gs, g.Orderly ∧ p.SameCode g.program) ∧
      (gs.flatMap fun g => [g.entry, g.exit]) =
        (List.range (2 * kinds.length)).map p.supply.nth := by
  induction kinds generalizing p with
  | nil => exact ⟨[], rfl, rfl, by simp, rfl⟩
  | cons kind kinds ih =>
    obtain ⟨gs, hok, hkinds, hall, hids⟩ := ih hp.reserve.reserve
    refine ⟨p.graph kind :: gs, ?_, ?_, ?_, ?_⟩
    · simp only [buildAll, hp.build?_eq, build?_snd, hok, List.map_cons]
    · rw [List.map_cons, hkinds]
      rfl
    · intro g hg
      rcases List.mem_cons.mp hg with rfl | hg
      · exact ⟨hp.orderly kind, sameCode_graph p kind⟩
      · exact (hall g hg).imp_right fun h => ⟨h.code_eq, h.labels_eq⟩
    · have hlength : 2 * (kind :: kinds).length = 2 * kinds.length + 1 + 1 := by
        rw [List.length_cons, Nat.mul_succ]
      rw [List.flatMap_cons, hids, hlength, List.range_succ_eq_map, List.range_succ_eq_map]
      simp only [List.map_cons, List.map_map]
      rfl

/-- Graphs of either kind can be built one after the other without end; each of them is orderly, and
no id is used for two of their entries and exits or for one of those and an instruction. -/
theorem Verified.builds_are_orderly {p : Program} (hp : p.Verified) (kinds : List GraphKind) :
    ∃ gs : List FlowGraph, (p.buildAll kinds).1 = gs.map .ok ∧ gs.map (·.kind) = kinds ∧
      (∀ g ∈ gs, g.Orderly ∧ p.SameCode g.program) ∧
      ((gs.flatMap fun g => [g.entry, g.exit]) ++ p.ids).Nodup := by
  have hwf := hp.wellFormed
  obtain ⟨gs, hok, hkinds, hall, hids⟩ := hwf.exists_buildAll kinds
  refine ⟨gs, hok, hkinds, hall, ?_⟩
  rw [hids, List.nodup_append]
  refine ⟨List.nodup_range.map hwf.supply_distinct, hwf.ids_nodup, ?_⟩
  rintro _ hi j hj rfl
  obtain ⟨k, -, rfl⟩ := List.mem_map.mp hi
  exact hwf.supply_fresh k hj

/-- Three graphs of a loop. -/
theorem countdown_builds_are_orderly :
    countdown.Verified ∧ ∃ gs : List FlowGraph,
      (countdown.buildAll [.blocks, .single, .blocks]).1 = gs.map .ok ∧
      gs.map (·.kind) = [.blocks, .single, .blocks] ∧
      (∀ g ∈ gs, g.Orderly ∧ countdown.SameCode g.program) ∧
      ((gs.flatMap fun g => [g.entry, g.exit]) ++ countdown.ids).Nodup :=
  ⟨verified_countdown, verified_countdown.builds_are_orderly _⟩

end Program

end FlowTrace
