import FlowTrace.Proofs.Dataflow.Actions
import FlowTrace.Proofs.Dataflow.System
import FlowTrace.Proofs.Graph.WellFormed
import Mathlib.Order.BoundedOrder.Lattice

/-!
# Reading the facts of a problem

The facts of a problem are read in an ordered type where the operations of the problem become those
of the order: facts that are equal for the lattice are read alike, joins are suprema, and putting a
fact over a smaller one gives the larger one.  A half of a visit to a node is then a half step of
the system of equations that the problem stands for.
-/

namespace FlowTrace

variable {α β : Type}

/-! ## Tables over the nodes of a graph -/

theorem FlowGraph.get?_tabulate (g : FlowGraph) (f : NodeId → α) (n : NodeId) :
    (g.tabulate f).get? n = if n ∈ g.nodes then some (f n) else none := by
  rw [FlowGraph.tabulate, Table.get?_ofList, ← List.map_reverse, Table.lookup_map_key]
  simp only [List.mem_reverse]

theorem FlowGraph.mem_keys_tabulate {g : FlowGraph} {f : NodeId → α} {n : NodeId} :
    n ∈ (g.tabulate f).keys ↔ n ∈ g.nodes := by
  simp [Table.mem_keys_iff, get?_tabulate]

/-- A default that is right where the table has nothing. -/
theorem FlowGraph.getD_get?_tabulate {g : FlowGraph} {f : NodeId → α} {n : NodeId} {d : α}
    (h : n ∉ g.nodes → f n = d) : ((g.tabulate f).get? n).getD d = f n := by
  rw [get?_tabulate]
  split
  · rfl
  · next hn => exact (h hn).symm

/-- What is no node covers nothing. -/
theorem FlowGraph.instrsOf_of_notMem {g : FlowGraph} {n : NodeId} (h : n ∉ g.nodes) :
    g.instrsOf n = [] := by
  have hnone : g.covered.get? n = none := by
    cases hc : g.covered.get? n with
    | none => rfl
    | some c => exact absurd (data_mem (Table.mem_keys_iff.mpr ⟨c, hc⟩)) h
  rw [instrsOf, coveredBy, hnone]
  rfl

/-! ## Tables that have all nodes -/

namespace Observed

/-- Every node of a list has a fact. -/
def Total (s : Observed α) (nodes : List NodeId) : Prop := ∀ n ∈ nodes, ∃ v, s.peek? n = some v

theorem Total.of_peek?_eq {s s' : Observed α} {nodes : List NodeId} (hs : s.Total nodes)
    (h : ∀ m, s'.peek? m = s.peek? m) : s'.Total nodes := by
  intro m hm
  rw [h]
  exact hs m hm

theorem Total.of_replace {s s' : Observed α} {nodes : List NodeId} (hs : s.Total nodes)
    {n : NodeId} {v : α} (h : ∀ m, s'.peek? m = if m = n then some v else s.peek? m) :
    s'.Total nodes := by
  intro m hm
  rw [h]
  split
  · exact ⟨v, rfl⟩
  · exact hs m hm

end Observed

/-! ## Readings -/

namespace Problem

/-- The neighbours whose flowed facts a node merges. -/
def Sends (p : Problem α) (s n : NodeId) : Prop :=
  match p.direction with
  | .forward => p.graph.hasEdge s n = true
  | .backward => p.graph.hasEdge n s = true

/-- The facts that describe the nodes are there for all nodes, and for nothing else. -/
def Described (p : Problem α) : Prop :=
  ∀ side ∈ p.sides, ∀ n, n ∈ side.2.keys ↔ n ∈ p.graph.nodes

/-- Facts read in an ordered type. -/
structure Reading (p : Problem α) (β : Type) [SemilatticeSup β] [OrderBot β] where
  described : p.Described
  read : α → β
  /-- The effect of a node on what is read. -/
  effect : NodeId → β → β
  read_bottom : read p.lattice.bottom = ⊥
  eq_iff : ∀ a b, p.lattice.eq a b = true ↔ read a = read b
  read_join : ∀ a b, read (p.lattice.join a b) = read a ⊔ read b
  read_transfer : ∀ n a, read (p.transfer n a) = effect n (read a)
  effect_mono : ∀ n, Monotone (effect n)
  read_absorb : ∀ a b, read a ≤ read b → read (p.absorb a b) = read b

theorem exists_sources {p : Problem α} (hg : p.graph.WellFormed) {n : NodeId}
    (hn : n ∈ p.graph.nodes) : ∃ ss, p.sources? n = some ss ∧ ∀ s, s ∈ ss ↔ p.Sends s n := by
  unfold sources? Sends
  cases p.direction with
  | forward => exact hg.exists_predecessors n hn
  | backward => exact hg.mem_successors hn

theorem Sends.mem {p : Problem α} (hg : p.graph.WellFormed) {s n : NodeId} (h : p.Sends s n) :
    s ∈ p.graph.nodes := by
  unfold Sends at h
  split at h
  · exact (hg.mem_of_hasEdge h).1
  · exact (hg.mem_of_hasEdge h).2

theorem mem_order_iff {p : Problem α} {n : NodeId} : n ∈ p.order ↔ n ∈ p.graph.nodes := by
  unfold order
  cases p.direction with
  | forward => rfl
  | backward => exact List.mem_reverse

theorem length_order (p : Problem α) : p.order.length = p.graph.nodes.length := by
  unfold order
  cases p.direction with
  | forward => rfl
  | backward => exact List.length_reverse

end Problem

/-- Every node of a list has all its facts. -/
structure Stores.Total (s : Stores α) (nodes : List NodeId) : Prop where
  sides : ∀ side ∈ s.sides, side.2.Total nodes
  merged : s.merged.Total nodes
  flowed : s.flowed.Total nodes

/-- The facts that describe a node. -/
theorem Stores.Total.exists_side {nodes : List NodeId} {s : Stores α} (ht : s.Total nodes)
    {n : NodeId} (hn : n ∈ nodes) : ∀ side ∈ s.sides, ∃ v, side.2.peek? n = some v :=
  fun side hside => ht.sides side hside n hn

/-- Marks on the facts that describe the nodes take none away. -/
theorem Stores.Total.total_mark {nodes : List NodeId} {s : Stores α} (ht : s.Total nodes)
    {f : Observed α → Observed α} (hf : ∀ facts n, (f facts).peek? n = facts.peek? n) :
    ∀ side ∈ s.sides.map (fun side => (side.1, f side.2)), side.2.Total nodes := by
  intro side hside
  obtain ⟨given, hgiven, rfl⟩ := List.mem_map.mp hside
  exact (ht.sides given hgiven).of_peek?_eq (hf given.2)

/-- What a merge at a node reads. -/
theorem Stores.Total.exists_merge {p : Problem α} {s : Stores α} (ht : s.Total p.graph.nodes)
    (hg : p.graph.WellFormed) {n : NodeId} (hn : n ∈ p.graph.nodes) :
    ∃ (ss : List NodeId) (f : NodeId → α) (old : α), p.sources? n = some ss ∧
      (∀ m, m ∈ ss ↔ p.Sends m n) ∧ (∀ m ∈ ss, s.flowed.peek? m = some (f m)) ∧
      s.merged.peek? n = some old := by
  obtain ⟨ss, hss, hmem⟩ := Problem.exists_sources hg hn
  obtain ⟨old, hold⟩ := ht.merged n hn
  refine ⟨ss, fun m => (s.flowed.peek? m).getD p.lattice.bottom, old, hss, hmem, ?_, hold⟩
  intro m hm
  obtain ⟨v, hv⟩ := ht.flowed m (((hmem m).mp hm).mem hg)
  simp [hv]

namespace Problem.Reading

variable [SemilatticeSup β] [OrderBot β] {p : Problem α} {n : NodeId}

/-- The equations of a problem. -/
def system (R : p.Reading β) : System β where
  nodes := {n | n ∈ p.graph.nodes}
  boundary n := R.read (p.boundary n)
  sources n := {s | p.Sends s n}
  effect := R.effect

/-- What is read of the fact of a node; `⊥` where there is none. -/
def reads (R : p.Reading β) (s : Observed α) (n : NodeId) : β := (s.peek? n).elim ⊥ R.read

theorem reads_eq (R : p.Reading β) {s : Observed α} {v : α} (h : s.peek? n = some v) :
    R.reads s n = R.read v := by
  rw [reads, h]; rfl

theorem reads_congr (R : p.Reading β) {s s' : Observed α} (h : ∀ m, s'.peek? m = s.peek? m) :
    R.reads s' = R.reads s := by
  funext m
  rw [reads, h, reads]

theorem reads_replace (R : p.Reading β) {s s' : Observed α} {v : α}
    (h : ∀ m, s'.peek? m = if m = n then some v else s.peek? m) :
    R.reads s' = Function.update (R.reads s) n (R.read v) := by
  funext m
  rw [reads, h]
  by_cases hm : m = n
  · subst hm
    rw [if_pos rfl, Function.update_self]
    rfl
  · rw [if_neg hm, Function.update_of_ne hm]
    rfl

/-- What is read of all facts. -/
def family (R : p.Reading β) (s : Stores α) : Family β where
  merged := R.reads s.merged
  flowed := R.reads s.flowed

/-- A list of facts is joined to the least upper bound. -/
theorem isLUB_foldl_join (R : p.Reading β) (values : List α) (a : α) :
    IsLUB (insert (R.read a) (R.read '' {v | v ∈ values}))
      (R.read (values.foldl p.lattice.join a)) := by
  induction values generalizing a with
  | nil => simp
  | cons v values ih =>
    have h := ih (p.lattice.join a v)
    rw [R.read_join] at h
    rw [List.foldl_cons]
    constructor
    · rintro _ (rfl | ⟨w, hw, rfl⟩)
      · exact le_sup_left.trans (h.1 (Set.mem_insert _ _))
      · rcases List.mem_cons.mp hw with rfl | hw
        · exact le_sup_right.trans (h.1 (Set.mem_insert _ _))
        · exact h.1 (Set.mem_insert_of_mem _ ⟨w, hw, rfl⟩)
    · intro u hu
      apply h.2
      rintro _ (rfl | ⟨w, hw, rfl⟩)
      · exact sup_le (hu (Set.mem_insert _ _))
          (hu (Set.mem_insert_of_mem _ ⟨v, List.mem_cons_self, rfl⟩))
      · exact hu (Set.mem_insert_of_mem _ ⟨w, List.mem_cons_of_mem _ hw, rfl⟩)

/-- What is read of the facts of a list of sources. -/
theorem image_sources (R : p.Reading β) {ss : List NodeId} (hmem : ∀ s, s ∈ ss ↔ p.Sends s n)
    {f : NodeId → α} {x : NodeId → β} (h : ∀ s ∈ ss, x s = R.read (f s)) :
    x '' R.system.sources n = R.read '' {v | v ∈ ss.map f} := by
  ext b
  constructor
  · rintro ⟨s, hs, rfl⟩
    have hs' : s ∈ ss := (hmem s).mpr hs
    exact ⟨f s, List.mem_map_of_mem hs', (h s hs').symm⟩
  · rintro ⟨v, hv, rfl⟩
    obtain ⟨s, hs, rfl⟩ := List.mem_map.mp hv
    exact ⟨s, (hmem s).mp hs, h s hs⟩

/-- A replaced fact leaves what is read as it was if the lattice finds it equal. -/
theorem update_reads_eq_iff (R : p.Reading β) {s : Observed α} {old new : α}
    (hold : s.peek? n = some old) :
    Function.update (R.reads s) n (R.read new) = R.reads s ↔ p.lattice.eq old new = true := by
  rw [R.eq_iff, ← R.reads_eq hold]
  constructor
  · intro h
    simpa using (congrFun h n).symm
  · intro h
    rw [← h, Function.update_eq_self]

/-- A merge is a half step of the system; it says that nothing changed if what is read stays. -/
theorem merge_halfStep (R : p.Reading β) (hg : p.graph.WellFormed) {s : Stores α}
    (ht : s.Total p.graph.nodes) (hn : n ∈ p.graph.nodes) :
    ∃ changed s', (p.visit .merge n).run s = .ok changed s' ∧
      s'.Total p.graph.nodes ∧ R.system.HalfStep n (R.family s) .merge (R.family s') ∧
      (changed = false ↔ R.family s' = R.family s) := by
  obtain ⟨ss, f, old, hss, hmem, hf, hold⟩ := ht.exists_merge hg hn
  let new := (ss.map f).foldl p.lattice.join old
  let isNew := !p.lattice.eq old new
  let s' : Stores α := { s with
    flowed := ss.foldl Observed.look s.flowed
    merged := s.merged.put n new isNew }
  have hpeek := Observed.peek?_put hold new isNew
  have hlook := Observed.peek?_foldl_look s.flowed ss
  have hstep : R.family s' = { R.family s with
      merged := Function.update (R.family s).merged n (R.read new) } :=
    Family.ext (R.reads_replace hpeek) (R.reads_congr hlook)
  refine ⟨isNew, s', run_merge hss hf hold,
    ⟨ht.sides, ht.merged.of_replace hpeek, ht.flowed.of_peek?_eq hlook⟩, ?_, ?_⟩
  · rw [hstep]
    refine .merge ?_
    have himage : (R.family s).flowed '' R.system.sources n =
        R.read '' {v | v ∈ ss.map f} := R.image_sources hmem fun m hm => R.reads_eq (hf m hm)
    have hread : (R.family s).merged n = R.read old := R.reads_eq hold
    rw [himage, hread]
    exact R.isLUB_foldl_join _ _
  · rw [Bool.not_eq_false', ← R.update_reads_eq_iff hold, hstep, Family.ext_iff]
    exact ⟨fun h => ⟨h, rfl⟩, fun h => h.1⟩

/-- A transfer is a half step of the system; it says that nothing changed if what is read stays. -/
theorem transfer_halfStep (R : p.Reading β) {s : Stores α} (ht : s.Total p.graph.nodes)
    (hn : n ∈ p.graph.nodes) :
    ∃ changed s', (p.visit .transfer n).run s = .ok changed s' ∧
      s'.Total p.graph.nodes ∧ R.system.HalfStep n (R.family s) .transfer (R.family s') ∧
      (changed = false ↔ R.family s' = R.family s) := by
  obtain ⟨value, hvalue⟩ := ht.merged n hn
  obtain ⟨old, hold⟩ := ht.flowed n hn
  let new := p.absorb old (p.transfer n value)
  let isNew := !p.lattice.eq old new
  let s' : Stores α := {
    sides := s.sides.map fun side => (side.1, side.2.look n)
    merged := s.merged.look n
    flowed := s.flowed.put n new isNew }
  have hpeek := Observed.peek?_put hold new isNew
  have hlook := Observed.peek?_look s.merged n
  have hstep : R.family s' = { R.family s with
      flowed := Function.update (R.family s).flowed n (R.read new) } :=
    Family.ext (R.reads_congr hlook) (R.reads_replace hpeek)
  refine ⟨isNew, s', run_flow (ht.exists_side hn) hvalue hold,
    ⟨ht.total_mark fun facts => facts.peek?_look n, ht.merged.of_peek?_eq hlook,
      ht.flowed.of_replace hpeek⟩, ?_, ?_⟩
  · rw [hstep]
    refine .transfer ?_
    have hmerged : (R.family s).merged n = R.read value := R.reads_eq hvalue
    have hflowed : (R.family s).flowed n = R.read old := R.reads_eq hold
    rw [hmerged, hflowed]
    intro hle
    have htransfer : R.system.effect n (R.read value) = R.read (p.transfer n value) :=
      (R.read_transfer n value).symm
    rw [htransfer] at hle ⊢
    exact R.read_absorb _ _ hle
  · rw [Bool.not_eq_false', ← R.update_reads_eq_iff hold, hstep, Family.ext_iff]
    exact ⟨fun h => ⟨rfl, h⟩, fun h => h.2⟩

theorem visit_halfStep (R : p.Reading β) (hg : p.graph.WellFormed) {s : Stores α}
    (ht : s.Total p.graph.nodes) (hn : n ∈ p.graph.nodes) (half : Half) :
    ∃ changed s', (p.visit half n).run s = .ok changed s' ∧
      s'.Total p.graph.nodes ∧ R.system.HalfStep n (R.family s) half (R.family s') ∧
      (changed = false ↔ R.family s' = R.family s) := by
  cases half with
  | merge => exact R.merge_halfStep hg ht hn
  | transfer => exact R.transfer_halfStep ht hn

end Problem.Reading

end FlowTrace
