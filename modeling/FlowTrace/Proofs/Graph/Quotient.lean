import FlowTrace.Proofs.Graph.Chains

/-!
# The graph of blocks as a quotient

The graph of blocks is the graph of single instructions with each block drawn together into one
node.  An edge between blocks is an edge from where the one ends to where the other starts, and the
edges that are lost lie inside blocks, where they are the only way on and the only way in.  Whether
an edge leads back is told by the first instruction of a block as well as by its last one.
-/

namespace FlowTrace

/-! ## Order inside and between blocks -/

namespace Program

variable {p q : Program} {kind : GraphKind} {f c i j l : NodeId}

theorem isBefore_of_position? {m n : Nat} (hi : p.position? i = some m)
    (hj : p.position? j = some n) : p.isBefore i j = true ↔ m < n := by
  simp [isBefore, hi, hj]

/-- An instruction outside a block comes after its last instruction if and only if it comes after
its leader. -/
theorem IsBlock.isBefore_last (hp : p.WellFormed) {b : List NodeId} (h : p.IsBlock f b)
    (hl : b.getLast? = some l) (hc : c ∈ p.ids) (hcb : c ∈ b → c = f) :
    p.isBefore l c = p.isBefore f c := by
  obtain ⟨before, after, hids, -⟩ := h.split
  obtain ⟨rest, hrest⟩ := List.head?_eq_some_iff.mp h.head_eq
  obtain ⟨init, hinit⟩ := List.getLast?_eq_some_iff.mp hl
  have hf : p.position? f = some before.length :=
    hp.position?_of_split (show p.ids = before ++ f :: (rest ++ after) by simp [hids, hrest])
  have hl : p.position? l = some (before ++ init).length :=
    hp.position?_of_split (show p.ids = (before ++ init) ++ l :: after by simp [hids, hinit])
  have hmem : c ∈ before ∨ c ∈ b ∨ c ∈ after := by
    rw [hids, List.mem_append, List.mem_append, or_assoc] at hc
    exact hc
  rw [Bool.eq_iff_iff]
  rcases hmem with hbefore | hin | hafter
  · obtain ⟨pre, post, rfl⟩ := List.append_of_mem hbefore
    have hpos : p.position? c = some pre.length :=
      hp.position?_of_split (show p.ids = pre ++ c :: (post ++ b ++ after) by simp [hids])
    rw [isBefore_of_position? hl hpos, isBefore_of_position? hf hpos]
    simp only [List.length_append, List.length_cons]
    omega
  · obtain rfl := hcb hin
    rw [isBefore_of_position? hl hf, isBefore_of_position? hf hf]
    simp only [List.length_append]
    omega
  · obtain ⟨pre, post, rfl⟩ := List.append_of_mem hafter
    have hpos : p.position? c = some (before ++ b ++ pre).length :=
      hp.position?_of_split (show p.ids = (before ++ b ++ pre) ++ c :: post by simp [hids])
    rw [isBefore_of_position? hl hpos, isBefore_of_position? hf hpos]
    simp only [hinit, List.length_append, List.length_singleton]
    omega

theorem SameCode.isBefore_eq (h : p.SameCode q) (i j : NodeId) :
    q.isBefore i j = p.isBefore i j := by
  rw [h.eq_withSupply]
  rfl

/-- A graph keeps the code of its program. -/
theorem sameCode_graph (p : Program) (kind : GraphKind) : p.SameCode (p.graph kind).program :=
  (SameCode.refl p).reserve.reserve

/-- Between instructions an edge is a back edge unless its target comes later. -/
theorem WellFormed.isBackEdge_eq (hp : p.WellFormed) (hi : i ∈ p.ids) (hj : j ∈ p.ids) :
    (p.graph kind).isBackEdge i j = ((p.graph kind).hasEdge i j && !p.isBefore i j) := by
  have hentry : ∀ {k}, k ∈ p.ids → (k == (p.graph kind).entry) = false := fun hk =>
    beq_eq_false_iff_ne.mpr fun h => hp.graph_entry_notMem (h ▸ hk)
  have hexit : ∀ {k}, k ∈ p.ids → (k == (p.graph kind).exit) = false := fun hk =>
    beq_eq_false_iff_ne.mpr fun h => hp.graph_exit_notMem (h ▸ hk)
  rw [FlowGraph.isBackEdge, (sameCode_graph p kind).isBefore_eq]
  simp [hentry hi, hentry hj, hexit hi, hexit hj]

end Program

/-! ## Quotients -/

namespace FlowGraph

/-- The data node ends with an instruction. -/
def EndsAt (g : FlowGraph) (n l : NodeId) : Prop :=
  ∃ c, g.covered.get? n = some c ∧ c.getLast? = some l

/-- An instruction directly follows another one in what some data node covers. -/
def Inside (g : FlowGraph) (i j : NodeId) : Prop :=
  ∃ n pre post, g.covered.get? n = some (pre ++ i :: j :: post)

/-- A graph whose data nodes draw together those of a finer one. -/
structure IsQuotientOf (g fine : FlowGraph) : Prop where
  /-- Both graphs are entered at the first instruction. -/
  entry_eq : g.successors? g.entry = some [g.program.first] ∧
    fine.successors? fine.entry = some [g.program.first]
  /-- An edge between data nodes is an edge from where the one ends to where the other starts. -/
  hasEdge_iff : ∀ {a c l}, g.EndsAt a l → c ∈ g.dataNodes →
    (g.hasEdge a c = true ↔ fine.hasEdge l c = true)
  hasEdge_exit_iff : ∀ {a l}, g.EndsAt a l →
    (g.hasEdge a g.exit = true ↔ fine.hasEdge l fine.exit = true)
  /-- Data nodes lead to data nodes and to the exit. -/
  successor_mem : ∀ {a b}, a ∈ g.dataNodes → g.hasEdge a b = true → b ∈ g.dataNodes ∨ b = g.exit
  /-- The edges of the finer graph: from the entry, between data nodes, and inside of them. -/
  fine_edge : ∀ {i j}, fine.hasEdge i j = true → i = fine.entry ∨
    (∃ a, g.EndsAt a i ∧ (j ∈ g.dataNodes ∨ j = fine.exit)) ∨ g.Inside i j
  /-- Inside a data node there is one way on and one way in. -/
  inside_iff : ∀ {i j}, g.Inside i j →
    (∀ k, fine.hasEdge i k = true ↔ k = j) ∧ ∀ k, fine.hasEdge k j = true ↔ k = i
  isBackEdge_eq : ∀ {a c l}, g.EndsAt a l → c ∈ g.dataNodes →
    g.isBackEdge a c = fine.isBackEdge l c

end FlowGraph

namespace Program

variable {p q : Program} {kind : GraphKind} {a c i j l : NodeId}

theorem WellFormed.successors?_entry (hp : p.WellFormed) :
    (p.graph kind).successors? (p.graph kind).entry = some [p.first] := by
  rw [graph_successors?, FlowGraph.get?_successorsOf (FlowGraph.covers_coverOf hp kind)
    hp.graph_entry_notMem hp.graph_exit_notMem hp.graph_entry_ne_exit]
  exact .inl ⟨rfl, rfl⟩

/-- A data node is the head of what it covers. -/
theorem WellFormed.head_of_mem_dataNodes (hp : p.WellFormed) (hc : c ∈ (p.graph kind).dataNodes) :
    ∃ rest, (p.graph kind).covered.get? c = some (c :: rest) := by
  obtain ⟨b, hb⟩ := mem_dataNodes_iff.mp hc
  obtain ⟨rest, rfl⟩ :=
    List.head?_eq_some_iff.mp ((FlowGraph.covers_coverOf hp kind).head_eq hb)
  exact ⟨rest, by rw [graph_covered, hb]⟩

/-- An edge of single instructions leaves a data node where it ends, or stays inside of it. -/
theorem WellFormed.single_edge_cases (hp : p.WellFormed) (hq : q.WellFormed) (hpq : p.SameCode q)
    (h : (q.graph .single).hasEdge i j = true) : i = (q.graph .single).entry ∨
      (∃ a, (p.graph kind).EndsAt a i ∧
        (j ∈ (p.graph kind).dataNodes ∨ j = (q.graph .single).exit)) ∨
      (p.graph kind).Inside i j := by
  have hcov := FlowGraph.covers_coverOf hp kind
  by_cases hentry : i = (q.graph .single).entry
  · exact .inl hentry
  have hleaves : j ∈ p.successors i ∨ (i = p.last ∧ j = (q.graph .single).exit) := by
    rw [hq.single_hasEdge_iff, hpq.successors_eq, hpq.last_eq] at h
    exact h.resolve_left fun h => hentry h.1
  have hi : i ∈ p.ids := by
    rcases hleaves with hj | ⟨rfl, -⟩
    · exact (hp.mem_of_mem_successors hj).1
    · exact p.last_mem
  obtain ⟨n, b, hb, hmem⟩ := hcov.exists_mem hi
  obtain ⟨pre, post, rfl⟩ := List.append_of_mem hmem
  cases post with
  | nil =>
    have hlast : (pre ++ [i]).getLast? = some i := List.getLast?_concat
    refine .inr (.inl ⟨n, ⟨_, by rw [graph_covered, hb], hlast⟩, ?_⟩)
    rcases hleaves with hj | ⟨-, hj⟩
    · exact .inl (mem_dataNodes_iff.mpr (Table.mem_keys_iff.mp (hcov.successor_mem hb hlast hj)))
    · exact .inr hj
  | cons k post =>
    -- Only `k` comes after `i`, and `i` is not the last instruction.
    obtain ⟨hout, -, hlast, -⟩ := hcov.inner hb
    rcases hleaves with hj | ⟨rfl, -⟩
    · obtain rfl := (hout j).mp hj
      exact .inr (.inr ⟨n, pre, post, by rw [graph_covered, hb]⟩)
    · exact absurd rfl hlast

/-- Blocks end and start in the same order. -/
theorem WellFormed.isBefore_of_endsAt (hp : p.WellFormed) (hl : (p.graph .blocks).EndsAt a l)
    (hc : c ∈ (p.graph .blocks).dataNodes) : p.isBefore l c = p.isBefore a c := by
  obtain ⟨b, hb, hlast⟩ := hl
  rw [graph_covered] at hb
  refine (isBlock_of_get? hp hb).isBefore_last hp hlast (hp.dataNode_mem_ids hc) fun hcb => ?_
  obtain ⟨rest, hrest⟩ := hp.head_of_mem_dataNodes hc
  rw [graph_covered] at hrest
  exact (FlowGraph.covers_coverOf hp .blocks).unique hp hrest hb List.mem_cons_self hcb

theorem WellFormed.mem_ids_of_endsAt (hp : p.WellFormed) (hl : (p.graph kind).EndsAt a l) :
    a ∈ p.ids ∧ l ∈ p.ids := by
  obtain ⟨b, hb, hlast⟩ := hl
  refine ⟨hp.dataNode_mem_ids (Table.mem_keys_iff.mpr ⟨b, hb⟩), ?_⟩
  rw [graph_covered] at hb
  exact (FlowGraph.covers_coverOf hp kind).mem_ids hb (List.mem_of_mem_getLast? hlast)

theorem WellFormed.hasEdge_iff_of_endsAt (hp : p.WellFormed) (hq : q.WellFormed)
    (hpq : p.SameCode q) (hl : (p.graph kind).EndsAt a l) (hc : c ∈ (p.graph kind).dataNodes) :
    (p.graph kind).hasEdge a c = true ↔ (q.graph .single).hasEdge l c = true := by
  obtain ⟨b, hb, hlast⟩ := hl
  obtain ⟨ha, rfl⟩ := hp.chain_of_covered q hb
  obtain ⟨rest, hrest⟩ := hp.head_of_mem_dataNodes hc
  obtain ⟨hmem, hchain⟩ := hp.chain_of_covered q hrest
  have hhead : (p.chain q kind c).head? = some c := by rw [hchain]; rfl
  exact (hp.chains hq hpq kind).hasEdge_iff ha hmem hlast hhead

theorem WellFormed.hasEdge_exit_iff_of_endsAt (hp : p.WellFormed) (hq : q.WellFormed)
    (hpq : p.SameCode q) (hl : (p.graph kind).EndsAt a l) :
    (p.graph kind).hasEdge a (p.graph kind).exit = true ↔
      (q.graph .single).hasEdge l (q.graph .single).exit = true := by
  obtain ⟨b, hb, hlast⟩ := hl
  obtain ⟨ha, rfl⟩ := hp.chain_of_covered q hb
  have hhead : (p.chain q kind (p.graph kind).exit).head? = some (q.graph .single).exit := by
    rw [hp.chain_eq .exit]
    rfl
  exact (hp.chains hq hpq kind).hasEdge_iff ha (FlowGraph.exit_mem _) hlast hhead

/-- The graph of blocks of a verified program is the quotient of its graph of single instructions,
in whatever order the two are built. -/
theorem Verified.blocks_isQuotientOf_single (hp : p.Verified) (hq : q.Verified)
    (hpq : p.SameCode q) : (p.graph .blocks).IsQuotientOf (q.graph .single) where
  entry_eq := by
    have hfirst := (sameCode_graph p .blocks).first_eq
    rw [hp.wellFormed.successors?_entry, hq.wellFormed.successors?_entry, hpq.first_eq, hfirst]
    exact ⟨rfl, rfl⟩
  hasEdge_iff := hp.wellFormed.hasEdge_iff_of_endsAt hq.wellFormed hpq
  hasEdge_exit_iff := hp.wellFormed.hasEdge_exit_iff_of_endsAt hq.wellFormed hpq
  successor_mem {a b} _ hab := by
    have hg := hp.wellFormed.graph .blocks
    rcases FlowGraph.mem_nodes_iff.mp (hg.mem_of_hasEdge hab).2 with rfl | hb | hb
    · rw [hg.hasEdge_entry] at hab
      cases hab
    · exact .inl hb
    · exact .inr hb
  fine_edge := hp.wellFormed.single_edge_cases hq.wellFormed hpq
  inside_iff := by
    rintro i j ⟨n, pre, post, hn⟩
    obtain ⟨hmem, hchain⟩ := hp.wellFormed.chain_of_covered q hn
    exact (hp.wellFormed.chains hq.wellFormed hpq .blocks).inner hmem hchain
  isBackEdge_eq {a c l} hl hc := by
    have hw := hp.wellFormed
    obtain ⟨ha, hlast⟩ := hw.mem_ids_of_endsAt hl
    have hstart := hw.dataNode_mem_ids hc
    have hedge := Bool.eq_iff_iff.mpr (hw.hasEdge_iff_of_endsAt hq.wellFormed hpq hl hc)
    rw [hw.isBackEdge_eq ha hstart, hedge, ← hw.isBefore_of_endsAt hl hc]
    rw [← hpq.ids_eq] at hlast hstart
    rw [hq.wellFormed.isBackEdge_eq hlast hstart, hpq.isBefore_eq]

/-- The block of the loop ends in a jump to its own leader, and both graphs see an edge back. -/
theorem countdown_loop_in_quotient :
    countdown.Verified ∧ countdown.SameCode countdown.reserve.2.reserve.2 ∧
      (countdown.graph .blocks).EndsAt 1 2 ∧ (countdown.graph .blocks).isBackEdge 1 1 = true ∧
      (countdown.reserve.2.reserve.2.graph .single).isBackEdge 2 1 = true ∧
      ∀ k, (countdown.reserve.2.reserve.2.graph .single).hasEdge k 2 = true ↔ k = 1 := by
  have hsame := (SameCode.refl countdown).reserve.reserve
  have hquotient := verified_countdown.blocks_isQuotientOf_single
    verified_countdown.reserve.reserve hsame
  have hends : (countdown.graph .blocks).EndsAt 1 2 := ⟨[1, 2], by decide, rfl⟩
  have hback : (countdown.graph .blocks).isBackEdge 1 1 = true := by decide
  refine ⟨verified_countdown, hsame, hends, hback, ?_, ?_⟩
  · rw [← hquotient.isBackEdge_eq hends (by decide)]
    exact hback
  · exact (hquotient.inside_iff ⟨1, [], [], by decide⟩).2

end Program

end FlowTrace
