import FlowTrace.Proofs.Graph.WellFormed

/-!
# Nodes as chains of instructions

Each node of a graph of a program stands for a chain of nodes of a graph of single instructions: a
data node for the instructions that it covers, the entry and the exit for themselves.  Control
passes along a chain, and an edge leads from the last node of a chain to the head of another one.
The two graphs may be built one after the other, so that their entries and exits have different ids.
-/

namespace FlowTrace

/-! ## Chains of a graph -/

namespace FlowGraph

/-- The nodes of a graph stand for chains of nodes of a finer one. -/
structure Chains (g fine : FlowGraph) (chain : NodeId → List NodeId) : Prop where
  ne_nil : ∀ {n}, n ∈ g.nodes → chain n ≠ []
  mem_iff : ∀ {j}, j ∈ fine.nodes ↔ ∃ n ∈ g.nodes, j ∈ chain n
  place_unique : ∀ {n n' pre pre' post post' j}, n ∈ g.nodes → n' ∈ g.nodes →
    chain n = pre ++ j :: post → chain n' = pre' ++ j :: post' → n = n' ∧ pre = pre'
  hasEdge_iff : ∀ {a b l f}, a ∈ g.nodes → b ∈ g.nodes → (chain a).getLast? = some l →
    (chain b).head? = some f → (g.hasEdge a b = true ↔ fine.hasEdge l f = true)
  inner : ∀ {n pre i j post}, n ∈ g.nodes → chain n = pre ++ i :: j :: post →
    (∀ b, fine.hasEdge i b = true ↔ b = j) ∧ ∀ a, fine.hasEdge a j = true ↔ a = i

variable {g fine : FlowGraph} {chain : NodeId → List NodeId} {n a f : NodeId} {rest : List NodeId}

/-- No node has two places in chains that are followed from their ends. -/
theorem Chains.place_unique_reverse (h : g.Chains fine chain) {n' j : NodeId}
    {pre pre' post post' : List NodeId} (hn : n ∈ g.nodes) (hn' : n' ∈ g.nodes)
    (hsplit : (chain n).reverse = pre ++ j :: post)
    (hsplit' : (chain n').reverse = pre' ++ j :: post') : n = n' ∧ pre = pre' := by
  have hplace : chain n = post.reverse ++ j :: pre.reverse := by
    simpa using List.reverse_eq_iff.mp hsplit
  have hplace' : chain n' = post'.reverse ++ j :: pre'.reverse := by
    simpa using List.reverse_eq_iff.mp hsplit'
  obtain ⟨rfl, hpost⟩ := h.place_unique hn hn' hplace hplace'
  obtain rfl := List.reverse_inj.mp hpost
  exact ⟨rfl, List.append_cancel_right (hsplit.symm.trans hsplit')⟩

/-- The edges to the head of a chain come from the ends of chains. -/
theorem Chains.hasEdge_head_iff (h : g.Chains fine chain) (hg : g.WellFormed)
    (hfine : fine.WellFormed) (hn : n ∈ g.nodes) (hf : chain n = f :: rest) :
    fine.hasEdge a f = true ↔ ∃ s, g.hasEdge s n = true ∧ (chain s).getLast? = some a := by
  have hhead : (chain n).head? = some f := by rw [hf]; rfl
  constructor
  · intro ha
    obtain ⟨s, hs, hmem⟩ := h.mem_iff.mp (hfine.mem_of_hasEdge ha).1
    obtain ⟨pre, post, hsplit⟩ := List.append_of_mem hmem
    cases post with
    | nil =>
      have hlast : (chain s).getLast? = some a := by rw [hsplit, List.getLast?_concat]
      exact ⟨s, (h.hasEdge_iff hs hn hlast hhead).mpr ha, hlast⟩
    | cons j post =>
      -- The node after `a` in its chain is the only one that follows it, and no head.
      obtain rfl := ((h.inner hs hsplit).1 f).mp ha
      have hsnoc : chain s = (pre ++ [a]) ++ f :: post := by simpa using hsplit
      have hnil : chain n = [] ++ f :: rest := hf
      have hpre := (h.place_unique hs hn hsnoc hnil).2
      simp at hpre
  · rintro ⟨s, hs, hlast⟩
    exact (h.hasEdge_iff (hg.mem_of_hasEdge hs).1 hn hlast hhead).mp hs

/-- The edges from the end of a chain lead to the heads of chains. -/
theorem Chains.hasEdge_last_iff (h : g.Chains fine chain) (hg : g.WellFormed)
    (hfine : fine.WellFormed) (hn : n ∈ g.nodes) {l : NodeId} (hl : (chain n).getLast? = some l) :
    fine.hasEdge l a = true ↔ ∃ s, g.hasEdge n s = true ∧ (chain s).head? = some a := by
  constructor
  · intro ha
    obtain ⟨s, hs, hmem⟩ := h.mem_iff.mp (hfine.mem_of_hasEdge ha).2
    obtain ⟨pre, post, hsplit⟩ := List.append_of_mem hmem
    rcases List.eq_nil_or_concat pre with rfl | ⟨pre, i, rfl⟩
    · have hhead : (chain s).head? = some a := by rw [hsplit]; rfl
      exact ⟨s, (h.hasEdge_iff hn hs hl hhead).mpr ha, hhead⟩
    · -- The node before `a` in its chain is the only one that leads to it, and no end.
      have hsplit : chain s = pre ++ i :: a :: post := by simpa using hsplit
      obtain rfl := ((h.inner hs hsplit).2 l).mp ha
      obtain ⟨init, hinit⟩ := List.getLast?_eq_some_iff.mp hl
      obtain ⟨rfl, rfl⟩ := h.place_unique hn hs hinit hsplit
      rw [hinit] at hsplit
      simp at hsplit
  · rintro ⟨s, hs, hhead⟩
    exact (h.hasEdge_iff hn (hg.mem_of_hasEdge hs).2 hl hhead).mp hs

end FlowGraph

/-! ## Chains of a program -/

namespace Program

/-- Two programs of the same code, with other ids in supply. -/
structure SameCode (p q : Program) : Prop where
  code_eq : q.code = p.code
  labels_eq : q.labels = p.labels

variable {p q : Program} {kind : GraphKind} {n i j a b : NodeId}

theorem SameCode.refl (p : Program) : p.SameCode p := ⟨rfl, rfl⟩

theorem SameCode.reserve (h : p.SameCode q) : p.SameCode q.reserve.2 := ⟨h.code_eq, h.labels_eq⟩

theorem SameCode.eq_withSupply (h : p.SameCode q) : q = { p with supply := q.supply } := by
  cases p
  cases q
  cases h.code_eq
  cases h.labels_eq
  rfl

theorem SameCode.ids_eq (h : p.SameCode q) : q.ids = p.ids := by
  rw [h.eq_withSupply]
  rfl

theorem SameCode.first_eq (h : p.SameCode q) : q.first = p.first := by
  rw [h.eq_withSupply]
  rfl

theorem SameCode.last_eq (h : p.SameCode q) : q.last = p.last := by
  rw [h.eq_withSupply]
  rfl

theorem SameCode.successors_eq (h : p.SameCode q) (i : NodeId) :
    q.successors i = p.successors i := by
  rw [h.eq_withSupply]
  rfl

theorem SameCode.entry_notMem (hpq : p.SameCode q) (hq : q.WellFormed) :
    (q.graph kind).entry ∉ p.ids := hpq.ids_eq ▸ hq.graph_entry_notMem

theorem SameCode.exit_notMem (hpq : p.SameCode q) (hq : q.WellFormed) :
    (q.graph kind).exit ∉ p.ids := hpq.ids_eq ▸ hq.graph_exit_notMem

/-- The edges between single instructions. -/
theorem WellFormed.single_hasEdge_iff (hp : p.WellFormed) :
    (p.graph .single).hasEdge a b = true ↔ (a = (p.graph .single).entry ∧ b = p.first) ∨
      b ∈ p.successors a ∨ (a = p.last ∧ b = (p.graph .single).exit) := by
  rw [hp.graph_hasEdge_iff]
  refine or_congr Iff.rfl ⟨?_, fun hb => ?_⟩
  · rintro ⟨c, l, hc, hl, hb⟩
    obtain ⟨-, rfl⟩ := FlowGraph.get?_singletons.mp hc
    obtain rfl := Option.some.inj hl
    exact hb
  · have ha : a ∈ p.ids := by
      rcases hb with hb | ⟨rfl, -⟩
      · exact (hp.mem_of_mem_successors hb).1
      · exact p.last_mem
    exact ⟨[a], a, FlowGraph.get?_singletons.mpr ⟨ha, rfl⟩, rfl, hb⟩

/-- The chain that a node stands for in the graph of single instructions of another program. -/
def chain (p q : Program) (kind : GraphKind) (n : NodeId) : List NodeId :=
  if n = (p.graph kind).entry then [(q.graph .single).entry]
  else if n = (p.graph kind).exit then [(q.graph .single).exit]
  else (p.graph kind).coveredBy n

/-- The three kinds of chains. -/
inductive Chain (p q : Program) (kind : GraphKind) : NodeId → List NodeId → Prop where
  | entry : Chain p q kind (p.graph kind).entry [(q.graph .single).entry]
  | data {n : NodeId} {c : List NodeId} (h : (FlowGraph.coverOf kind p).get? n = some c) :
      Chain p q kind n c
  | exit : Chain p q kind (p.graph kind).exit [(q.graph .single).exit]

theorem WellFormed.chain_eq (hp : p.WellFormed) {c : List NodeId} (h : Chain p q kind n c) :
    chain p q kind n = c := by
  cases h with
  | entry => exact if_pos rfl
  | data hc =>
    have hids := (FlowGraph.covers_coverOf hp kind).key_mem_ids (Table.mem_keys_iff.mpr ⟨c, hc⟩)
    rw [chain, if_neg fun h => hp.graph_entry_notMem (h ▸ hids),
      if_neg fun h => hp.graph_exit_notMem (h ▸ hids), FlowGraph.coveredBy, graph_covered, hc]
    rfl
  | exit => rw [chain, if_neg hp.graph_entry_ne_exit.symm, if_pos rfl]

/-- A data node stands for what it covers. -/
theorem WellFormed.chain_of_covered (hp : p.WellFormed) (q : Program) {c : List NodeId}
    (h : (p.graph kind).covered.get? n = some c) :
    n ∈ (p.graph kind).nodes ∧ chain p q kind n = c := by
  rw [graph_covered] at h
  exact ⟨FlowGraph.data_mem (mem_dataNodes_iff.mpr ⟨c, h⟩), hp.chain_eq (.data h)⟩

theorem WellFormed.chain_of_mem (hp : p.WellFormed) (q : Program)
    (hn : n ∈ (p.graph kind).nodes) : Chain p q kind n (chain p q kind n) := by
  have hexists : ∃ c, Chain p q kind n c := by
    rcases FlowGraph.mem_nodes_iff.mp hn with rfl | hdata | rfl
    · exact ⟨_, .entry⟩
    · obtain ⟨c, hc⟩ := mem_dataNodes_iff.mp hdata
      exact ⟨c, .data hc⟩
    · exact ⟨_, .exit⟩
  obtain ⟨c, hc⟩ := hexists
  rw [hp.chain_eq hc]
  exact hc

namespace Chain

variable {c c' : List NodeId} {n' : NodeId}

theorem nodup (hp : p.WellFormed) (h : Chain p q kind n c) : c.Nodup := by
  cases h with
  | entry => exact List.nodup_singleton _
  | data hc => exact (FlowGraph.covers_coverOf hp kind).nodup hp hc
  | exit => exact List.nodup_singleton _

theorem ne_nil (hp : p.WellFormed) (h : Chain p q kind n c) : c ≠ [] := by
  cases h with
  | entry => exact List.cons_ne_nil _ _
  | data hc =>
    rintro rfl
    cases (FlowGraph.covers_coverOf hp kind).head_eq hc
  | exit => exact List.cons_ne_nil _ _

/-- No node is in the chains of two nodes. -/
theorem unique (hp : p.WellFormed) (hq : q.WellFormed) (hpq : p.SameCode q)
    (h : Chain p q kind n c) (h' : Chain p q kind n' c') (hi : i ∈ c) (hi' : i ∈ c') : n = n' := by
  have hcov := FlowGraph.covers_coverOf hp kind
  have hentry : ∀ {m d}, (FlowGraph.coverOf kind p).get? m = some d →
      (q.graph .single).entry ∉ d := fun hd hmem => hpq.entry_notMem hq (hcov.mem_ids hd hmem)
  have hexit : ∀ {m d}, (FlowGraph.coverOf kind p).get? m = some d →
      (q.graph .single).exit ∉ d := fun hd hmem => hpq.exit_notMem hq (hcov.mem_ids hd hmem)
  have hne : (q.graph .single).entry ≠ (q.graph .single).exit := hq.graph_entry_ne_exit
  cases h with
  | entry =>
    obtain rfl := List.mem_singleton.mp hi
    cases h' with
    | entry => rfl
    | data hc' => exact absurd hi' (hentry hc')
    | exit => exact absurd (List.mem_singleton.mp hi') hne
  | data hc =>
    cases h' with
    | entry => exact absurd (List.mem_singleton.mp hi' ▸ hi) (hentry hc)
    | data hc' => exact hcov.unique hp hc hc' hi hi'
    | exit => exact absurd (List.mem_singleton.mp hi' ▸ hi) (hexit hc)
  | exit =>
    obtain rfl := List.mem_singleton.mp hi
    cases h' with
    | entry => exact absurd (List.mem_singleton.mp hi').symm hne
    | data hc' => exact absurd hi' (hexit hc')
    | exit => rfl

/-- A data node is the head of its chain. -/
theorem head_eq_iff (hp : p.WellFormed) (hq : q.WellFormed) (hpq : p.SameCode q) {f : NodeId}
    (h : Chain p q kind n c) (hf : c.head? = some f) (hi : i ∈ p.ids) : n = i ↔ f = i := by
  cases h with
  | entry =>
    obtain rfl := Option.some.inj hf
    exact iff_of_false (fun h => hp.graph_entry_notMem (h ▸ hi))
      (fun h => hpq.entry_notMem hq (h ▸ hi))
  | data hc =>
    have hn := (FlowGraph.covers_coverOf hp kind).head_eq hc
    rw [hf, Option.some.injEq] at hn
    rw [hn]
  | exit =>
    obtain rfl := Option.some.inj hf
    exact iff_of_false (fun h => hp.graph_exit_notMem (h ▸ hi))
      (fun h => hpq.exit_notMem hq (h ▸ hi))

/-- The exit is the head of its chain. -/
theorem head_eq_exit_iff (hp : p.WellFormed) (hq : q.WellFormed) (hpq : p.SameCode q) {f : NodeId}
    (h : Chain p q kind n c) (hf : c.head? = some f) :
    n = (p.graph kind).exit ↔ f = (q.graph .single).exit := by
  cases h with
  | entry =>
    obtain rfl := Option.some.inj hf
    exact iff_of_false hp.graph_entry_ne_exit hq.graph_entry_ne_exit
  | data hc =>
    have hcov := FlowGraph.covers_coverOf hp kind
    have hn := hcov.key_mem_ids (Table.mem_keys_iff.mpr ⟨_, hc⟩)
    have hf := hcov.mem_ids hc (List.mem_of_mem_head? hf)
    exact iff_of_false (fun h => hp.graph_exit_notMem (h ▸ hn))
      (fun h => hpq.exit_notMem hq (h ▸ hf))
  | exit =>
    obtain rfl := Option.some.inj hf
    exact iff_of_true rfl rfl

/-- An edge of the one graph is an edge from the end of a chain to the head of a chain. -/
theorem hasEdge_iff (hp : p.WellFormed) (hq : q.WellFormed) (hpq : p.SameCode q) {l f : NodeId}
    (ha : Chain p q kind a c) (hb : Chain p q kind b c') (hl : c.getLast? = some l)
    (hf : c'.head? = some f) :
    (p.graph kind).hasEdge a b = true ↔ (q.graph .single).hasEdge l f = true := by
  have hcov := FlowGraph.covers_coverOf hp kind
  have hfirst := hb.head_eq_iff hp hq hpq hf p.first_mem
  have hexit := hb.head_eq_exit_iff hp hq hpq hf
  have hsucc : ∀ {k}, b ∈ p.successors k ↔ f ∈ p.successors k := by
    intro k
    constructor
    · intro h
      rwa [(hb.head_eq_iff hp hq hpq hf (hp.mem_of_mem_successors h).2).mp rfl]
    · intro h
      rwa [(hb.head_eq_iff hp hq hpq hf (hp.mem_of_mem_successors h).2).mpr rfl]
  rw [hp.graph_hasEdge_iff, hq.single_hasEdge_iff, hpq.first_eq, hpq.last_eq, hpq.successors_eq,
    hfirst]
  cases ha with
  | entry =>
    obtain rfl := Option.some.inj hl
    exact or_congr (and_congr (iff_of_true rfl rfl) Iff.rfl) (iff_of_false
      (by
        rintro ⟨d, k, hd, -, -⟩
        exact hp.graph_entry_notMem (hcov.key_mem_ids (Table.mem_keys_iff.mpr ⟨d, hd⟩)))
      (by
        rintro (h | ⟨h, -⟩)
        · exact hpq.entry_notMem hq ((hp.mem_of_mem_successors h).1)
        · exact hpq.entry_notMem hq (h ▸ p.last_mem)))
  | data hc =>
    have hids := hcov.key_mem_ids (Table.mem_keys_iff.mpr ⟨c, hc⟩)
    have hlids := hcov.mem_ids hc (List.mem_of_mem_getLast? hl)
    refine or_congr (iff_of_false ?_ ?_) ?_
    · rintro ⟨rfl, -⟩
      exact hp.graph_entry_notMem hids
    · rintro ⟨rfl, -⟩
      exact hpq.entry_notMem hq hlids
    · rw [hc]
      simp only [Option.some.injEq, exists_and_left, exists_eq_left', hl, hsucc, hexit]
  | exit =>
    obtain rfl := Option.some.inj hl
    refine iff_of_false ?_ ?_
    · rintro (⟨h, -⟩ | ⟨d, k, hd, -, -⟩)
      · exact hp.graph_entry_ne_exit h.symm
      · exact hp.graph_exit_notMem (hcov.key_mem_ids (Table.mem_keys_iff.mpr ⟨d, hd⟩))
    · rintro (⟨h, -⟩ | h | ⟨h, -⟩)
      · exact hq.graph_entry_ne_exit h.symm
      · exact hpq.exit_notMem hq ((hp.mem_of_mem_successors h).1)
      · exact hpq.exit_notMem hq (h ▸ p.last_mem)

/-- Along a chain control goes from one node to the next only. -/
theorem inner (hp : p.WellFormed) (hq : q.WellFormed) (hpq : p.SameCode q) {pre post : List NodeId}
    (h : Chain p q kind n c) (hsplit : c = pre ++ i :: j :: post) :
    (∀ b, (q.graph .single).hasEdge i b = true ↔ b = j) ∧
      ∀ a, (q.graph .single).hasEdge a j = true ↔ a = i := by
  have hcov := FlowGraph.covers_coverOf hp kind
  have hlen := congrArg List.length hsplit
  simp only [List.length_append, List.length_cons] at hlen
  cases h with
  | entry =>
    rw [List.length_singleton] at hlen
    omega
  | data hc =>
    subst hsplit
    obtain ⟨hout, hin, hlast, hfirst⟩ := hcov.inner hc
    have hi : i ∈ p.ids := hcov.mem_ids hc (by simp)
    have hj : j ∈ p.ids := hcov.mem_ids hc (by simp)
    have hne : i ≠ (q.graph .single).entry := fun h => hpq.entry_notMem hq (h ▸ hi)
    have hne' : j ≠ (q.graph .single).exit := fun h => hpq.exit_notMem hq (h ▸ hj)
    simp only [hq.single_hasEdge_iff, hpq.first_eq, hpq.last_eq, hpq.successors_eq, hout, hin,
      hne, hlast, hfirst, hne', false_and, and_false, false_or, or_false, implies_true, and_self]
  | exit =>
    rw [List.length_singleton] at hlen
    omega

end Chain

theorem single_mem_nodes_iff : j ∈ (p.graph .single).nodes ↔
    j = (p.graph .single).entry ∨ j ∈ p.ids ∨ j = (p.graph .single).exit := by
  rw [FlowGraph.mem_nodes_iff, FlowGraph.dataNodes, graph_covered]
  exact or_congr Iff.rfl (or_congr FlowGraph.mem_keys_singletons Iff.rfl)

/-- The nodes of a graph stand for chains of single instructions. -/
theorem WellFormed.chains (hp : p.WellFormed) (hq : q.WellFormed) (hpq : p.SameCode q)
    (kind : GraphKind) : (p.graph kind).Chains (q.graph .single) (chain p q kind) where
  ne_nil hn := (hp.chain_of_mem q hn).ne_nil hp
  mem_iff {j} := by
    have hcov := FlowGraph.covers_coverOf hp kind
    rw [single_mem_nodes_iff, hpq.ids_eq]
    constructor
    · rintro (rfl | hj | rfl)
      · exact ⟨_, FlowGraph.entry_mem _, by simp [hp.chain_eq (q := q) .entry]⟩
      · obtain ⟨n, c, hc, hmem⟩ := hcov.exists_mem hj
        refine ⟨n, FlowGraph.data_mem (mem_dataNodes_iff.mpr ⟨c, hc⟩), ?_⟩
        rw [hp.chain_eq (.data hc)]
        exact hmem
      · exact ⟨_, FlowGraph.exit_mem _, by simp [hp.chain_eq (q := q) .exit]⟩
    · rintro ⟨n, hn, hj⟩
      have hchain := hp.chain_of_mem q hn
      generalize chain p q kind n = c at hchain hj
      cases hchain with
      | entry => exact .inl (List.mem_singleton.mp hj)
      | data hc => exact .inr (.inl (hcov.mem_ids hc hj))
      | exit => exact .inr (.inr (List.mem_singleton.mp hj))
  place_unique {n n' pre pre' post post' j} hn hn' hsplit hsplit' := by
    have hj : j ∈ chain p q kind n := by simp [hsplit]
    have hj' : j ∈ chain p q kind n' := by simp [hsplit']
    have hchain := hp.chain_of_mem q hn
    obtain rfl := hchain.unique hp hq hpq (hp.chain_of_mem q hn') hj hj'
    have hnodup := hchain.nodup hp
    rw [hsplit, List.nodup_middle, List.nodup_cons, List.mem_append, not_or] at hnodup
    have heq := hsplit.symm.trans hsplit'
    exact ⟨rfl, ((List.append_cons_inj_of_notMem hnodup.1.1 hnodup.1.2).mp heq).1⟩
  hasEdge_iff ha hb hl hf :=
    (hp.chain_of_mem q ha).hasEdge_iff hp hq hpq (hp.chain_of_mem q hb) hl hf
  inner hn hsplit := (hp.chain_of_mem q hn).inner hp hq hpq hsplit

/-- A chain is what the node covers, but for the entry and the exit, which cover nothing. -/
theorem WellFormed.chain_eq_coveredBy (hp : p.WellFormed) (hq : q.WellFormed) (hpq : p.SameCode q)
    (hn : n ∈ (p.graph kind).nodes) : chain p q kind n = (p.graph kind).coveredBy n ∨
      (p.graph kind).coveredBy n = [] ∧ ∃ i ∉ p.ids, chain p q kind n = [i] := by
  have hnone : ∀ {m}, m ∉ p.ids → (p.graph kind).coveredBy m = [] := by
    intro m hm
    rw [FlowGraph.coveredBy]
    cases hc : (p.graph kind).covered.get? m with
    | none => rfl
    | some c => exact absurd (hp.dataNode_mem_ids (Table.mem_keys_iff.mpr ⟨c, hc⟩)) hm
  have hchain := hp.chain_of_mem q hn
  generalize chain p q kind n = c at hchain
  cases hchain with
  | entry => exact .inr ⟨hnone hp.graph_entry_notMem, _, hpq.entry_notMem hq, rfl⟩
  | data hc => exact .inl (by rw [FlowGraph.coveredBy, graph_covered, hc, Option.getD_some])
  | exit => exact .inr ⟨hnone hp.graph_exit_notMem, _, hpq.exit_notMem hq, rfl⟩

/-- Only the instructions of a chain count where nothing else has an effect. -/
theorem WellFormed.foldl_chain {β : Type} (hp : p.WellFormed) (hq : q.WellFormed)
    (hpq : p.SameCode q) {f : β → NodeId → β} (hid : ∀ i ∉ p.ids, ∀ v, f v i = v)
    (hn : n ∈ (p.graph kind).nodes) (v : β) :
    (chain p q kind n).foldl f v = ((p.graph kind).coveredBy n).foldl f v := by
  rcases hp.chain_eq_coveredBy hq hpq hn with heq | ⟨hnil, i, hi, heq⟩
  · rw [heq]
  · rw [heq, hnil]
    exact hid i hi v

/-- The same from the last instruction to the first. -/
theorem WellFormed.foldr_chain {β : Type} (hp : p.WellFormed) (hq : q.WellFormed)
    (hpq : p.SameCode q) {f : NodeId → β → β} (hid : ∀ i ∉ p.ids, ∀ v, f i v = v)
    (hn : n ∈ (p.graph kind).nodes) (v : β) :
    (chain p q kind n).foldr f v = ((p.graph kind).coveredBy n).foldr f v := by
  rcases hp.chain_eq_coveredBy hq hpq hn with heq | ⟨hnil, i, hi, heq⟩
  · rw [heq]
  · rw [heq, hnil]
    exact hid i hi v

end Program

end FlowTrace
