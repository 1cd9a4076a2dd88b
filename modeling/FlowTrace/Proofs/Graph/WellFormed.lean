import FlowTrace.Proofs.Graph.Blocks

/-!
# Well-formed graphs

The graphs of a program whose ids do not repeat: no node comes twice, every node has its lists of
neighbours, all edges lead from nodes to nodes, and the two kinds of lists agree.  An edge leaves a
data node where control may leave the last instruction that the node covers.
-/

namespace FlowTrace

/-- The graph of a kind. -/
def Program.graph (p : Program) (kind : GraphKind) : FlowGraph := (FlowGraph.build kind p).1

@[simp] theorem mem_ascending {ids : List NodeId} {i : NodeId} : i ∈ ascending ids ↔ i ∈ ids := by
  rw [ascending, Std.TreeSet.mem_toList, Std.TreeSet.mem_ofList, List.contains_iff_mem]

namespace FlowGraph

variable {g : FlowGraph} {p : Program} {kind : GraphKind} {a b n entry exit : NodeId}
  {covered : Table NodeId (List NodeId)}

/-- What the analyses rely on. -/
structure WellFormed (g : FlowGraph) : Prop where
  nodes_nodup : g.nodes.Nodup
  exists_successors : ∀ n ∈ g.nodes, ∃ ss, g.successors? n = some ss
  exists_predecessors : ∀ n ∈ g.nodes, ∃ ps, g.predecessors? n = some ps ∧
    ∀ a, a ∈ ps ↔ g.hasEdge a n = true
  mem_of_hasEdge : ∀ {a b}, g.hasEdge a b = true → a ∈ g.nodes ∧ b ∈ g.nodes
  /-- Nothing leads out of the exit. -/
  hasEdge_exit : ∀ {b}, g.hasEdge g.exit b = false
  /-- Nothing leads to the entry. -/
  hasEdge_entry : ∀ {a}, g.hasEdge a g.entry = false

theorem hasEdge_iff : g.hasEdge a b = true ↔ ∃ ss, g.successors? a = some ss ∧ b ∈ ss := by
  rw [hasEdge, List.contains_iff_mem]
  cases g.successors? a with
  | none => simp
  | some ss => simp

theorem mem_nodes_iff : n ∈ g.nodes ↔ n = g.entry ∨ n ∈ g.dataNodes ∨ n = g.exit := by
  simp [nodes]

theorem entry_mem (g : FlowGraph) : g.entry ∈ g.nodes := mem_nodes_iff.mpr (.inl rfl)

theorem exit_mem (g : FlowGraph) : g.exit ∈ g.nodes := mem_nodes_iff.mpr (.inr (.inr rfl))

theorem data_mem (h : n ∈ g.dataNodes) : n ∈ g.nodes := mem_nodes_iff.mpr (.inr (.inl h))

/-- The neighbours that the successor lists name. -/
theorem WellFormed.mem_successors (hg : g.WellFormed) (hn : n ∈ g.nodes) :
    ∃ ss, g.successors? n = some ss ∧ ∀ b, b ∈ ss ↔ g.hasEdge n b = true := by
  obtain ⟨ss, hss⟩ := hg.exists_successors n hn
  refine ⟨ss, hss, fun b => ?_⟩
  rw [hasEdge_iff, hss]
  simp

/-! ## What data nodes cover -/

/-- What holds of a cover: its lists make up the program, and control passes along each of them. -/
structure Covers (p : Program) (covered : Table NodeId (List NodeId)) : Prop where
  head_eq : ∀ {n c}, covered.get? n = some c → c.head? = some n
  flatten_eq : covered.entries.flatMap Prod.snd = p.ids
  first_mem : p.first ∈ covered.keys
  /-- Control leaves a node to the start of a node. -/
  successor_mem : ∀ {n c l b}, covered.get? n = some c → c.getLast? = some l →
    b ∈ p.successors l → b ∈ covered.keys
  /-- Inside a node control goes from one instruction to the next only. -/
  inner : ∀ {n before i j after}, covered.get? n = some (before ++ i :: j :: after) →
    (∀ b, b ∈ p.successors i ↔ b = j) ∧ (∀ a, j ∈ p.successors a ↔ a = i) ∧
      i ≠ p.last ∧ j ≠ p.first

theorem get?_singletons {c : List NodeId} :
    p.singletons.get? n = some c ↔ n ∈ p.ids ∧ c = [n] := by
  rw [Program.singletons, Table.get?_ofList, ← List.map_reverse, Table.lookup_map_key]
  simp only [List.mem_reverse]
  split
  · next h => simp [h, eq_comm]
  · next h => simp [h]

theorem mem_keys_singletons : n ∈ p.singletons.keys ↔ n ∈ p.ids := by
  simp [Table.mem_keys_iff, get?_singletons]

theorem covers_singletons (hp : p.WellFormed) : Covers p p.singletons where
  head_eq h := by
    obtain ⟨-, rfl⟩ := get?_singletons.mp h
    rfl
  flatten_eq := by
    have hnodup : ((p.ids.map fun i => (i, [i])).map Prod.fst).Nodup := by
      simpa [Function.comp_def] using hp.ids_nodup
    rw [Program.singletons, Table.entries_ofList hnodup, List.flatMap_map]
    exact List.flatMap_singleton' _
  first_mem := mem_keys_singletons.mpr p.first_mem
  successor_mem _ _ hb := mem_keys_singletons.mpr (hp.mem_of_mem_successors hb).2
  inner h := by
    have hlen := congrArg List.length (get?_singletons.mp h).2
    simp only [List.length_append, List.length_cons, List.length_nil] at hlen
    omega

theorem covers_basicBlocks (hp : p.WellFormed) : Covers p p.basicBlocks where
  head_eq h := (Program.isBlock_of_get? hp h).head_eq
  flatten_eq := by
    obtain ⟨pieces, hentries, hids, -⟩ := Program.exists_blocks hp
    rw [hentries, hids, List.flatMap_map]
  first_mem := Table.mem_keys_iff.mpr
    (Program.exists_block_of_starts hp p.first_mem p.first_mem_blockStarts)
  successor_mem h hl hb := Table.mem_keys_iff.mpr <|
    Program.exists_block_of_starts hp (hp.mem_of_mem_successors hb).2
      ((Program.isBlock_of_get? hp h).starts_of_mem_successors hp hl hb)
  inner h := by
    have hblock := Program.isBlock_of_get? hp h
    refine ⟨fun _ => hblock.mem_successors_inner hp rfl,
      fun _ => hblock.mem_predecessors_inner hp rfl, hblock.ne_last_of_inner hp rfl, ?_⟩
    rintro rfl
    exact (hblock.inner hp rfl).2.1 p.first_mem_blockStarts

theorem covers_coverOf (hp : p.WellFormed) (kind : GraphKind) : Covers p (coverOf kind p) := by
  cases kind with
  | single => exact covers_singletons hp
  | blocks => exact covers_basicBlocks hp

namespace Covers

variable {n' i : NodeId} {c c' : List NodeId}

theorem mem_ids (hc : Covers p covered) (h : covered.get? n = some c) (hi : i ∈ c) : i ∈ p.ids := by
  rw [← hc.flatten_eq]
  exact List.mem_flatMap.mpr ⟨(n, c), Table.get?_eq_some_iff.mp h, hi⟩

/-- Every instruction is covered. -/
theorem exists_mem (hc : Covers p covered) (hi : i ∈ p.ids) :
    ∃ n c, covered.get? n = some c ∧ i ∈ c := by
  rw [← hc.flatten_eq] at hi
  obtain ⟨e, he, hie⟩ := List.mem_flatMap.mp hi
  exact ⟨e.1, e.2, Table.get?_eq_some_iff.mpr he, hie⟩

theorem nodup (hc : Covers p covered) (hp : p.WellFormed) (h : covered.get? n = some c) :
    c.Nodup := by
  have hnodup := hp.ids_nodup
  rw [← hc.flatten_eq, List.nodup_flatMap] at hnodup
  exact hnodup.1 (n, c) (Table.get?_eq_some_iff.mp h)

/-- No instruction is covered twice. -/
theorem unique (hc : Covers p covered) (hp : p.WellFormed) (h : covered.get? n = some c)
    (h' : covered.get? n' = some c') (hi : i ∈ c) (hi' : i ∈ c') : n = n' := by
  have hnodup := hp.ids_nodup
  rw [← hc.flatten_eq, List.nodup_flatMap] at hnodup
  by_contra hne
  have hsymm : Std.Symm (Function.onFun List.Disjoint (Prod.snd : NodeId × List NodeId → _)) :=
    ⟨fun _ _ h _ ha hb => h hb ha⟩
  exact hnodup.2.forall (Table.get?_eq_some_iff.mp h) (Table.get?_eq_some_iff.mp h')
    (fun e => hne (congrArg Prod.fst e)) hi hi'

theorem key_mem_ids (hc : Covers p covered) (h : n ∈ covered.keys) : n ∈ p.ids := by
  obtain ⟨c, hn⟩ := Table.mem_keys_iff.mp h
  exact hc.mem_ids hn (List.mem_of_mem_head? (hc.head_eq hn))

end Covers

/-! ## Edges -/

theorem mem_exitsOf {c : List NodeId} : b ∈ exitsOf p exit c ↔
    ∃ l, c.getLast? = some l ∧ (b ∈ p.successors l ∨ (l = p.last ∧ b = exit)) := by
  rw [exitsOf]
  cases c.getLast? with
  | none => simp
  | some l =>
    simp only [mem_ascending, List.mem_append, Option.some.injEq, exists_eq_left']
    refine or_congr Iff.rfl ?_
    split
    · next h => simp [h]
    · next h => simp [h]

/-- The successor lists: one for the entry, an empty one for the exit, and those of the data
nodes. -/
theorem get?_successorsOf (hc : Covers p covered) (he : entry ∉ p.ids) (hx : exit ∉ p.ids)
    (hne : entry ≠ exit) {ss : List NodeId} :
    (successorsOf kind p entry exit covered).get? n = some ss ↔
      (n = entry ∧ ss = [p.first]) ∨ (n = exit ∧ ss = []) ∨
        ∃ c, covered.get? n = some c ∧ ss = exitsOf p exit c := by
  have hfst : (dataExits p exit covered).map Prod.fst = covered.keys := by
    simp [dataExits, Table.keys]
  have hdata : (n, ss) ∈ dataExits p exit covered ↔
      ∃ c, covered.get? n = some c ∧ ss = exitsOf p exit c := by
    simp only [dataExits, List.mem_map, Prod.mk.injEq, Table.get?_eq_some_iff]
    constructor
    · rintro ⟨e, hmem, rfl, rfl⟩
      exact ⟨e.2, hmem, rfl⟩
    · rintro ⟨c, hmem, rfl⟩
      exact ⟨(n, c), hmem, rfl, rfl⟩
  have hkeys : covered.keys.Nodup := covered.keys_nodup
  have hekeys : entry ∉ covered.keys := fun h => he (hc.key_mem_ids h)
  have hxkeys : exit ∉ covered.keys := fun h => hx (hc.key_mem_ids h)
  have hentry : entryExits p entry exit = [p.first] := by
    have hlast : entry ≠ p.last := fun h => he (h ▸ p.last_mem)
    rw [entryExits, if_neg hlast]
    rfl
  -- No key comes twice in either list of entries, so their order does not matter.
  cases kind with
  | single =>
    have hnodup : ((dataExits p exit covered ++
        [(entry, entryExits p entry exit), (exit, [])]).map Prod.fst).Nodup := by
      rw [List.map_append, hfst, List.nodup_append]
      refine ⟨hkeys, by simp [hne], ?_⟩
      simp only [List.map_cons, List.map_nil, List.mem_cons, List.not_mem_nil, or_false]
      rintro k hk m (rfl | rfl) rfl
      · exact hekeys hk
      · exact hxkeys hk
    rw [Table.get?_eq_some_iff, successorsOf, Table.entries_ofList hnodup, List.mem_append, hdata,
      hentry]
    simp only [List.mem_cons, Prod.mk.injEq, List.not_mem_nil, or_false]
    rw [or_comm, or_assoc]
  | blocks =>
    have hnodup : (((entry, [p.first]) :: dataExits p exit covered ++ [(exit, [])]).map
        Prod.fst).Nodup := by
      rw [List.map_append, List.map_cons, hfst]
      refine List.nodup_append.mpr ⟨List.nodup_cons.mpr ⟨hekeys, hkeys⟩, by simp, ?_⟩
      simp only [List.map_cons, List.map_nil, List.mem_cons, List.not_mem_nil, or_false]
      rintro k (rfl | hk) m rfl rfl
      · exact hne rfl
      · exact hxkeys hk
    rw [Table.get?_eq_some_iff, successorsOf, Table.entries_ofList hnodup, List.mem_append,
      List.mem_cons, hdata]
    simp only [List.mem_cons, Prod.mk.injEq, List.not_mem_nil, or_false]
    rw [or_assoc]
    exact or_congr Iff.rfl or_comm

/-- The predecessor lists are the successor lists read backward. -/
theorem mem_invert {successors : Table NodeId (List NodeId)} {ps : List NodeId}
    (h : (invert successors).get? n = some ps) :
    a ∈ ps ↔ ∃ ss, successors.get? a = some ss ∧ n ∈ ss := by
  rw [invert, Table.get?_mapEntries, Option.map_eq_some_iff] at h
  obtain ⟨-, -, rfl⟩ := h
  simp only [mem_ascending, List.mem_map, List.mem_filter, List.contains_iff_mem,
    Table.get?_eq_some_iff]
  constructor
  · rintro ⟨e, ⟨he, hn⟩, rfl⟩
    exact ⟨e.2, he, hn⟩
  · rintro ⟨ss, hss, hn⟩
    exact ⟨(a, ss), ⟨hss, hn⟩, rfl⟩

end FlowGraph

namespace Program

variable {p : Program} {kind : GraphKind} {a b n : NodeId}

@[simp] theorem graph_covered (p : Program) (kind : GraphKind) :
    (p.graph kind).covered = FlowGraph.coverOf kind p := by
  cases kind <;> rfl

theorem graph_successors? (p : Program) (kind : GraphKind) (n : NodeId) :
    (p.graph kind).successors? n = (FlowGraph.successorsOf kind p (p.graph kind).entry
      (p.graph kind).exit (FlowGraph.coverOf kind p)).get? n := by
  cases kind <;> rfl

theorem graph_predecessors? (p : Program) (kind : GraphKind) (n : NodeId) :
    (p.graph kind).predecessors? n = (FlowGraph.invert (p.graph kind).successors).get? n := rfl

theorem WellFormed.graph_entry_notMem (hp : p.WellFormed) : (p.graph kind).entry ∉ p.ids :=
  hp.supply_fresh 0

theorem WellFormed.graph_exit_notMem (hp : p.WellFormed) : (p.graph kind).exit ∉ p.ids :=
  hp.supply_fresh 1

theorem WellFormed.graph_entry_ne_exit (hp : p.WellFormed) :
    (p.graph kind).entry ≠ (p.graph kind).exit := by
  intro h
  have hzero : 0 = 1 := hp.supply_distinct h
  cases hzero

/-- The edges of a graph: from the entry to the first instruction, and from where a data node ends
to where control may go, the exit included. -/
theorem WellFormed.graph_hasEdge_iff (hp : p.WellFormed) :
    (p.graph kind).hasEdge a b = true ↔
      (a = (p.graph kind).entry ∧ b = p.first) ∨
        ∃ c l, (FlowGraph.coverOf kind p).get? a = some c ∧ c.getLast? = some l ∧
          (b ∈ p.successors l ∨ (l = p.last ∧ b = (p.graph kind).exit)) := by
  rw [FlowGraph.hasEdge_iff, graph_successors?]
  simp only [FlowGraph.get?_successorsOf (FlowGraph.covers_coverOf hp kind) hp.graph_entry_notMem
    hp.graph_exit_notMem hp.graph_entry_ne_exit]
  constructor
  · rintro ⟨ss, ⟨rfl, rfl⟩ | ⟨rfl, rfl⟩ | ⟨c, hc, rfl⟩, hb⟩
    · exact .inl ⟨rfl, by simpa using hb⟩
    · cases hb
    · obtain ⟨l, hl, hb⟩ := FlowGraph.mem_exitsOf.mp hb
      exact .inr ⟨c, l, hc, hl, hb⟩
  · rintro (⟨rfl, rfl⟩ | ⟨c, l, hc, hl, hb⟩)
    · exact ⟨_, .inl ⟨rfl, rfl⟩, List.mem_singleton_self _⟩
    · exact ⟨_, .inr (.inr ⟨c, hc, rfl⟩), FlowGraph.mem_exitsOf.mpr ⟨l, hl, hb⟩⟩

theorem mem_dataNodes_iff :
    n ∈ (p.graph kind).dataNodes ↔ ∃ c, (FlowGraph.coverOf kind p).get? n = some c := by
  rw [FlowGraph.dataNodes, graph_covered, Table.mem_keys_iff]

theorem WellFormed.dataNode_mem_ids (hp : p.WellFormed) (h : n ∈ (p.graph kind).dataNodes) :
    n ∈ p.ids :=
  (FlowGraph.covers_coverOf hp kind).key_mem_ids (Table.mem_keys_iff.mpr (mem_dataNodes_iff.mp h))

theorem WellFormed.graph_nodes_nodup (hp : p.WellFormed) : (p.graph kind).nodes.Nodup := by
  refine List.nodup_append.mpr ⟨List.nodup_cons.mpr ⟨?_, ?_⟩, by simp, ?_⟩
  · exact fun h => hp.graph_entry_notMem (hp.dataNode_mem_ids h)
  · exact (p.graph kind).covered.keys_nodup
  · rintro m hm _ hx rfl
    rw [List.mem_singleton] at hx
    subst hx
    rcases List.mem_cons.mp hm with h | h
    · exact hp.graph_entry_ne_exit h.symm
    · exact hp.graph_exit_notMem (hp.dataNode_mem_ids h)

theorem WellFormed.graph_exists_successors (hp : p.WellFormed) (hn : n ∈ (p.graph kind).nodes) :
    ∃ ss, (p.graph kind).successors? n = some ss := by
  simp only [graph_successors?, FlowGraph.get?_successorsOf (FlowGraph.covers_coverOf hp kind)
    hp.graph_entry_notMem hp.graph_exit_notMem hp.graph_entry_ne_exit]
  rcases FlowGraph.mem_nodes_iff.mp hn with rfl | hdata | rfl
  · exact ⟨_, .inl ⟨rfl, rfl⟩⟩
  · obtain ⟨c, hc⟩ := mem_dataNodes_iff.mp hdata
    exact ⟨_, .inr (.inr ⟨c, hc, rfl⟩)⟩
  · exact ⟨_, .inr (.inl ⟨rfl, rfl⟩)⟩

theorem WellFormed.graph (hp : p.WellFormed) (kind : GraphKind) : (p.graph kind).WellFormed where
  nodes_nodup := hp.graph_nodes_nodup
  exists_successors _ hn := hp.graph_exists_successors hn
  exists_predecessors n hn := by
    obtain ⟨ss, hss⟩ := hp.graph_exists_successors hn
    have hps : ∃ ps, (p.graph kind).predecessors? n = some ps := by
      have hget : (p.graph kind).successors.get? n = some ss := hss
      rw [graph_predecessors?, FlowGraph.invert, Table.get?_mapEntries, hget]
      exact ⟨_, rfl⟩
    obtain ⟨ps, hps⟩ := hps
    refine ⟨ps, hps, fun a => ?_⟩
    rw [graph_predecessors?] at hps
    rw [FlowGraph.mem_invert hps, FlowGraph.hasEdge_iff]
    rfl
  mem_of_hasEdge {a b} hab := by
    have hcov := FlowGraph.covers_coverOf hp kind
    have hdata : ∀ {n}, n ∈ (FlowGraph.coverOf kind p).keys → n ∈ (p.graph kind).nodes := fun hn =>
      FlowGraph.data_mem (mem_dataNodes_iff.mpr (Table.mem_keys_iff.mp hn))
    rcases hp.graph_hasEdge_iff.mp hab with ⟨rfl, rfl⟩ | ⟨c, l, hc, hl, hb⟩
    · exact ⟨FlowGraph.entry_mem _, hdata hcov.first_mem⟩
    · refine ⟨hdata (Table.mem_keys_iff.mpr ⟨c, hc⟩), ?_⟩
      rcases hb with hb | ⟨-, rfl⟩
      · exact hdata (hcov.successor_mem hc hl hb)
      · exact FlowGraph.exit_mem _
  hasEdge_exit {b} := by
    rw [← Bool.not_eq_true, hp.graph_hasEdge_iff]
    rintro (⟨h, -⟩ | ⟨c, l, hc, -, -⟩)
    · exact hp.graph_entry_ne_exit h.symm
    · exact hp.graph_exit_notMem (hp.dataNode_mem_ids (mem_dataNodes_iff.mpr ⟨c, hc⟩))
  hasEdge_entry {a} := by
    rw [← Bool.not_eq_true, hp.graph_hasEdge_iff]
    rintro (⟨-, h⟩ | ⟨c, l, hc, hl, hb | ⟨-, h⟩⟩)
    · exact hp.graph_entry_notMem (h ▸ p.first_mem)
    · exact hp.graph_entry_notMem (hp.mem_of_mem_successors hb).2
    · exact hp.graph_entry_ne_exit h

/-- Building a graph finds no edge that leads nowhere. -/
theorem WellFormed.build?_eq (hp : p.WellFormed) (kind : GraphKind) :
    (FlowGraph.build? kind p).1 = .ok (p.graph kind) := by
  have hg := hp.graph kind
  have hdangling : (p.graph kind).dangling? = none := by
    rw [FlowGraph.dangling?, List.find?_eq_none]
    intro n hn
    simp only [Table.values, List.mem_flatten, List.mem_map] at hn
    obtain ⟨_, ⟨e, he, rfl⟩, hn⟩ := hn
    have hedge : (p.graph kind).hasEdge e.1 n = true :=
      FlowGraph.hasEdge_iff.mpr ⟨e.2, Table.get?_eq_some_iff.mpr he, hn⟩
    obtain ⟨ss, hss⟩ := hg.exists_successors n (hg.mem_of_hasEdge hedge).2
    have hcontains : (p.graph kind).successors.contains n = true :=
      Table.contains_iff.mpr (Table.mem_keys_iff.mpr ⟨ss, hss⟩)
    simp [hcontains]
  rw [Program.graph] at hdangling ⊢
  simp [FlowGraph.build?, hdangling]

end Program

/-! ## Paths -/

namespace FlowGraph

/-- A path, with all its nodes but the last. -/
inductive Path (g : FlowGraph) : NodeId → List NodeId → NodeId → Prop where
  | nil (n : NodeId) : Path g n [] n
  | cons {a b c : NodeId} {rest : List NodeId} (h : g.hasEdge a b = true)
      (hrest : Path g b rest c) : Path g a (a :: rest) c

variable {g : FlowGraph} {a b c : NodeId} {l : List NodeId}

theorem Path.snoc (h : g.Path a l b) (hbc : g.hasEdge b c = true) : g.Path a (l ++ [b]) c := by
  induction h with
  | nil n => exact .cons hbc (.nil c)
  | cons hab _ ih => exact .cons hab (ih hbc)

theorem Path.append {l' : List NodeId} (h : g.Path a l b) (h' : g.Path b l' c) :
    g.Path a (l ++ l') c := by
  induction h with
  | nil n => exact h'
  | cons hab _ ih => exact .cons hab (ih h')

/-- A path that goes somewhere starts at a node. -/
theorem WellFormed.mem_of_path (hg : g.WellFormed) (h : g.Path a l b) (hl : l ≠ []) :
    a ∈ g.nodes := by
  cases h with
  | nil => exact absurd rfl hl
  | cons hab _ => exact (hg.mem_of_hasEdge hab).1

end FlowGraph

end FlowTrace
