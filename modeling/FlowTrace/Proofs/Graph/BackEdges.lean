import FlowTrace.Proofs.Graph.Builds

/-!
# Back edges

The nodes of a graph stand in program order, between the entry and the exit.  An edge goes from one
node to a later one, unless it is a back edge; so every edge against the order is listed among the
back edges, and no cycle can do without one.
-/

namespace FlowTrace

/-! ## Cycles -/

namespace FlowGraph

variable {g : FlowGraph} {a b n : NodeId} {l : List NodeId}

/-- An edge that is no back edge. -/
def LeadsOn (g : FlowGraph) (a b : NodeId) : Prop :=
  g.hasEdge a b = true ∧ g.isBackEdge a b = false

/-- An edge on the way from a node over others to the last one. -/
def OnPath (a b : NodeId) (l : List NodeId) (last : NodeId) : Prop :=
  ∃ before after, l ++ [last] = before ++ a :: b :: after

/-- Edges lead from one node of the list to a later one. -/
structure TopologicalOrder (order : List NodeId) (edge : NodeId → NodeId → Prop) : Prop where
  nodup : order.Nodup
  mem : ∀ {a b}, edge a b → a ∈ order ∧ b ∈ order
  idxOf_lt : ∀ {a b}, edge a b → order.idxOf a < order.idxOf b

/-- A relation that respects an order has no cycle. -/
theorem TopologicalOrder.acyclic {order : List NodeId} {edge : NodeId → NodeId → Prop}
    (h : TopologicalOrder order edge) (n : NodeId) : ¬ Relation.TransGen edge n n := by
  intro hcycle
  have hlt : ∀ {m}, Relation.TransGen edge n m → order.idxOf n < order.idxOf m := by
    intro m hm
    induction hm with
    | single hedge => exact h.idxOf_lt hedge
    | tail _ hedge ih => exact Nat.lt_trans ih (h.idxOf_lt hedge)
  exact Nat.lt_irrefl _ (hlt hcycle)

theorem Path.head_eq (h : g.Path a l b) : ∃ rest, l ++ [b] = a :: rest := by
  cases h with
  | nil => exact ⟨[], rfl⟩
  | cons => exact ⟨_, rfl⟩

/-- A path that does not climb with each of its edges has one that does not climb. -/
theorem Path.exists_not_lt (h : g.Path n l b) (rank : NodeId → Nat)
    (hrank : rank b < rank n + l.length) :
    ∃ x y, OnPath x y l b ∧ g.hasEdge x y = true ∧ rank y ≤ rank x := by
  induction h with
  | nil n => exact absurd hrank (Nat.lt_irrefl _)
  | @cons n m last rest hedge hrest ih =>
    rcases Nat.lt_or_ge (rank n) (rank m) with hlt | hle
    · rw [List.length_cons] at hrank
      obtain ⟨x, y, ⟨before, after, hsplit⟩, hxy⟩ := ih (by omega)
      exact ⟨x, y, ⟨n :: before, after, congrArg (n :: ·) hsplit⟩, hxy⟩
    · obtain ⟨after, hafter⟩ := hrest.head_eq
      exact ⟨n, m, ⟨[], after, congrArg (n :: ·) hafter⟩, hedge, hle⟩

end FlowGraph

/-! ## The order of the nodes -/

namespace Program

variable {p : Program} {kind : GraphKind} {a b i j : NodeId}

theorem isBefore_self (p : Program) (i : NodeId) : p.isBefore i i = false := by
  unfold isBefore
  cases p.position? i <;> simp

theorem isBefore_asymm (h : p.isBefore i j = true) : p.isBefore j i = false := by
  unfold isBefore at h ⊢
  cases hi : p.position? i with
  | none => simp [hi] at h
  | some m =>
    cases hj : p.position? j with
    | none => rfl
    | some n =>
      simp only [hi, hj, decide_eq_true_eq] at h
      simp only [decide_eq_false_iff_not]
      omega

namespace WellFormed

/-- Nodes stand in program order, between the entry and the exit. -/
theorem pairwise_nodes (hp : p.WellFormed) (kind : GraphKind) :
    (p.graph kind).nodes.Pairwise fun a b => a = (p.graph kind).entry ∨ b = (p.graph kind).exit ∨
      a ∈ (p.graph kind).dataNodes ∧ b ∈ (p.graph kind).dataNodes ∧ p.isBefore a b = true := by
  have hdata := (hp.orderly kind).data_ordered
  simp only [(sameCode_graph p kind).isBefore_eq] at hdata
  refine List.pairwise_append.mpr ⟨List.pairwise_cons.mpr ⟨fun _ _ => .inl rfl, ?_⟩,
    List.pairwise_singleton _ _, fun _ _ b hb => .inr (.inl (List.mem_singleton.mp hb))⟩
  exact hdata.imp_of_mem fun ha hb h => .inr (.inr ⟨ha, hb, h⟩)

/-- An edge to a node that does not come later is a back edge. -/
theorem isBackEdge_of_idxOf_le (hp : p.WellFormed) (hedge : (p.graph kind).hasEdge a b = true)
    (hle : (p.graph kind).nodes.idxOf b ≤ (p.graph kind).nodes.idxOf a) :
    (p.graph kind).isBackEdge a b = true := by
  have hg := hp.graph kind
  obtain ⟨ha, hb⟩ := hg.mem_of_hasEdge hedge
  have hexit : a ≠ (p.graph kind).exit := by
    rintro rfl
    rw [hg.hasEdge_exit] at hedge
    cases hedge
  have hentry : b ≠ (p.graph kind).entry := by
    rintro rfl
    rw [hg.hasEdge_entry] at hedge
    cases hedge
  suffices h : a ∈ (p.graph kind).dataNodes ∧ b ∈ (p.graph kind).dataNodes ∧
      p.isBefore a b = false by
    rw [hp.isBackEdge_eq (hp.dataNode_mem_ids h.1) (hp.dataNode_mem_ids h.2.1), hedge, h.2.2]
    rfl
  rcases Nat.eq_or_lt_of_le hle with heq | hlt
  · obtain rfl := (List.idxOf_inj hb).mp heq
    have hdata := ((FlowGraph.mem_nodes_iff.mp ha).resolve_left hentry).resolve_right hexit
    exact ⟨hdata, hdata, p.isBefore_self b⟩
  · have hrel := List.pairwise_iff_getElem.mp (hp.pairwise_nodes kind) _ _
      (List.idxOf_lt_length_of_mem hb) (List.idxOf_lt_length_of_mem ha) hlt
    rw [List.getElem_idxOf, List.getElem_idxOf] at hrel
    obtain ⟨hb, ha, hbefore⟩ := (hrel.resolve_left hentry).resolve_left hexit
    exact ⟨ha, hb, isBefore_asymm hbefore⟩

theorem mem_backEdges_iff (hp : p.WellFormed) {e : Edge} : e ∈ (p.graph kind).backEdges ↔
    (p.graph kind).isBackEdge e.source e.target = true ∧ e.isBack = true := by
  rw [FlowGraph.backEdges, List.mem_filter, (hp.graph kind).mem_edges_iff]
  constructor
  · rintro ⟨⟨-, hback⟩, hisBack⟩
    exact ⟨hback ▸ hisBack, hisBack⟩
  · rintro ⟨hback, hisBack⟩
    have hedge : (p.graph kind).hasEdge e.source e.target = true := by
      rw [FlowGraph.isBackEdge, Bool.and_eq_true, Bool.and_eq_true] at hback
      exact hback.1.1
    exact ⟨⟨hedge, hisBack.trans hback.symm⟩, hisBack⟩

/-- An edge to a node that does not come later is listed among the back edges. -/
theorem mem_backEdges_of_idxOf_le (hp : p.WellFormed) (hedge : (p.graph kind).hasEdge a b = true)
    (hle : (p.graph kind).nodes.idxOf b ≤ (p.graph kind).nodes.idxOf a) :
    ⟨a, b, true⟩ ∈ (p.graph kind).backEdges :=
  hp.mem_backEdges_iff.mpr ⟨hp.isBackEdge_of_idxOf_le hedge hle, rfl⟩

/-- A back edge leads from a data node to one that does not stand after it. -/
theorem isBackEdge_iff (hp : p.WellFormed) : (p.graph kind).isBackEdge a b = true ↔
    (p.graph kind).hasEdge a b = true ∧ a ∈ (p.graph kind).dataNodes ∧
      b ∈ (p.graph kind).dataNodes ∧
      ∃ m n, p.position? a = some m ∧ p.position? b = some n ∧ n ≤ m := by
  have hposition : ∀ {i}, i ∈ (p.graph kind).dataNodes → ∃ m, p.position? i = some m := by
    intro i hi
    obtain ⟨before, after, hids⟩ := List.append_of_mem (hp.dataNode_mem_ids hi)
    exact ⟨_, hp.position?_of_split hids⟩
  constructor
  · intro hback
    simp only [FlowGraph.isBackEdge, Bool.and_eq_true, Bool.not_eq_true', List.any_cons,
      List.any_nil, Bool.or_false, Bool.or_eq_false_iff, beq_eq_false_iff_ne,
      (sameCode_graph p kind).isBefore_eq] at hback
    obtain ⟨⟨hedge, ⟨hentry, hexit⟩, hentry', hexit'⟩, hbefore⟩ := hback
    obtain ⟨ha, hb⟩ := (hp.graph kind).mem_of_hasEdge hedge
    have ha := ((FlowGraph.mem_nodes_iff.mp ha).resolve_left hentry).resolve_right hexit
    have hb := ((FlowGraph.mem_nodes_iff.mp hb).resolve_left hentry').resolve_right hexit'
    obtain ⟨m, hm⟩ := hposition ha
    obtain ⟨n, hn⟩ := hposition hb
    refine ⟨hedge, ha, hb, m, n, hm, hn, Nat.le_of_not_lt fun hlt => ?_⟩
    rw [(isBefore_of_position? hm hn).mpr hlt] at hbefore
    cases hbefore
  · rintro ⟨hedge, ha, hb, m, n, hm, hn, hle⟩
    have hbefore : p.isBefore a b = false := by
      rw [← Bool.not_eq_true, isBefore_of_position? hm hn]
      exact Nat.not_lt_of_le hle
    rw [hp.isBackEdge_eq (hp.dataNode_mem_ids ha) (hp.dataNode_mem_ids hb), hedge, hbefore]
    rfl

/-- The nodes are ordered by the edges that are no back edges. -/
theorem topologicalOrder_nodes (hp : p.WellFormed) (kind : GraphKind) :
    FlowGraph.TopologicalOrder (p.graph kind).nodes (p.graph kind).LeadsOn where
  nodup := (hp.graph kind).nodes_nodup
  mem h := (hp.graph kind).mem_of_hasEdge h.1
  idxOf_lt {a b} h := by
    obtain ⟨hedge, hback⟩ := h
    by_contra hle
    rw [hp.isBackEdge_of_idxOf_le hedge (Nat.le_of_not_lt hle)] at hback
    cases hback

end WellFormed

/-- **Back edges cut every cycle.**  On the way round from a node back to it there is a back edge.
Back edges lead from data nodes to data nodes that do not stand after them; the other edges lead to
later nodes, so without back edges there are no cycles, and the nodes are in a topological order. -/
theorem Verified.backEdges_cut_cycles (hp : p.Verified) (kind : GraphKind) :
    let g := p.graph kind
    (∀ n l, g.Path n l n → l ≠ [] →
      ∃ a b, FlowGraph.OnPath a b l n ∧ g.isBackEdge a b = true) ∧
    (∀ a b, g.isBackEdge a b = true ↔
      g.hasEdge a b = true ∧ a ∈ g.dataNodes ∧ b ∈ g.dataNodes ∧
        ∃ i j, p.position? a = some i ∧ p.position? b = some j ∧ j ≤ i) ∧
    (∀ a b, g.hasEdge a b = true → g.isBackEdge a b = false →
      g.nodes.idxOf a < g.nodes.idxOf b) ∧
    (∀ n, ¬ Relation.TransGen g.LeadsOn n n) ∧
    FlowGraph.TopologicalOrder g.nodes g.LeadsOn := by
  intro g
  have hwf := hp.wellFormed
  have horder := hwf.topologicalOrder_nodes kind
  refine ⟨fun n l hpath hne => ?_, fun a b => hwf.isBackEdge_iff,
    fun a b hedge hback => horder.idxOf_lt ⟨hedge, hback⟩, horder.acyclic, horder⟩
  have hlength := List.length_pos_iff.mpr hne
  obtain ⟨a, b, hon, hedge, hle⟩ :=
    hpath.exists_not_lt g.nodes.idxOf (Nat.lt_add_of_pos_right hlength)
  exact ⟨a, b, hon, hwf.isBackEdge_of_idxOf_le hedge hle⟩

/-- The loop goes back from the condition to the instruction before it. -/
theorem countdown_backEdges_cut_loop :
    let g := countdown.graph .single
    countdown.Verified ∧ g.Path 1 [1, 2] 1 ∧
      (∃ a b, FlowGraph.OnPath a b [1, 2] 1 ∧ g.isBackEdge a b = true) ∧
      (1 ∈ g.dataNodes ∧ 2 ∈ g.dataNodes ∧ g.isBackEdge 2 1 = true) ∧
      FlowGraph.TopologicalOrder g.nodes g.LeadsOn := by
  intro g
  obtain ⟨hcycles, hback, -, -, horder⟩ := verified_countdown.backEdges_cut_cycles .single
  have hloop : g.Path 1 [1, 2] 1 := .cons (by decide) (.cons (by decide) (.nil 1))
  have hedge : g.isBackEdge 2 1 = true := by decide
  obtain ⟨-, htwo, hone, -⟩ := (hback 2 1).mp hedge
  exact ⟨verified_countdown, hloop, hcycles 1 [1, 2] hloop (List.cons_ne_nil _ _),
    ⟨hone, htwo, hedge⟩, horder⟩

end Program

end FlowTrace
