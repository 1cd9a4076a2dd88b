import FlowTrace.Proofs.Dataflow.Marks
import FlowTrace.Proofs.Session.NameOrder
import FlowTrace.Proofs.Session.Stepping
import FlowTrace.Report.State

/-!
# What a page tells

The page of a step is told by its snapshot.  It is headed by the number of the step, if that is
shown, and by the phase and the node.  Below, node after node, it lists the instructions and all
facts: the name of a fact, and between braces each name in the set, or each variable of the map with
its constant, in natural order.  Nothing of this depends on the views that the pages are made from.
-/

namespace FlowTrace

open Text

/-! ## What is listed of a fact -/

/-- A computation is good if all its steps are. -/
theorem exists_of_bind_eq_ok {α β ε : Type} {x : Except ε α} {f : α → Except ε β} {b : β}
    (h : (x >>= f) = .ok b) : ∃ a, x = .ok a ∧ f a = .ok b := by
  cases x with
  | error e => cases h
  | ok a => exact ⟨a, rfl, h⟩

theorem exists_of_isOk {α ε : Type} {x : Except ε α} (h : x.isOk = true) : ∃ a, x = .ok a := by
  cases x with
  | error e => cases h
  | ok a => exact ⟨a, rfl⟩

/-- Sorting loses nothing and adds nothing, and puts the items into the order of their names. -/
theorem Text.perm_pairwise_of_sortNaturallyBy {α : Type} {name : α → String}
    {items sorted : List α} (h : sortNaturallyBy name items = .ok sorted) :
    sorted.Perm items ∧ sorted.Pairwise fun a b => NaturallyLe (name a) (name b) := by
  obtain ⟨keyed, hkeyed, hsorted⟩ := exists_of_bind_eq_ok h
  obtain rfl := Except.ok.inj hsorted
  have hkeys : List.Forall₂ (fun a e => naturalKey (name a) = .ok e.1 ∧ e.2 = a) items keyed := by
    refine (mapM_eq_ok_iff.mp hkeyed).imp fun a e he => ?_
    obtain ⟨key, hkey, hpair⟩ := exists_of_bind_eq_ok he
    obtain rfl := Except.ok.inj hpair
    exact ⟨hkey, rfl⟩
  constructor
  · have hitems : List.Forall₂ (fun b a => b = a) (keyed.map Prod.snd) items :=
      List.forall₂_map_left_iff.mpr (hkeys.flip.imp fun _ _ he => he.2)
    rw [List.forall₂_eq_eq_eq] at hitems
    rw [← hitems]
    exact (List.mergeSort_perm keyed _).map Prod.snd
  · have hkey : ∀ e ∈ keyed, naturalKey (name e.2) = .ok e.1 := by
      intro e he
      obtain ⟨a, -, hkey, rfl⟩ := exists_related_of_mem hkeys he
      exact hkey
    have hsorted := List.pairwise_mergeSort (fun x y z => keyLe_trans x.1 y.1 z.1)
      (fun x y => (Bool.or_eq_true _ _).mpr (keyLe_total x.1 y.1)) keyed
    refine List.pairwise_map.mpr (hsorted.imp_of_mem fun {x y} hx hy hle => ?_)
    exact ⟨_, _, hkey x (List.mem_mergeSort.mp hx), hkey y (List.mem_mergeSort.mp hy), hle⟩

namespace Analysis

/-- What is listed of a fact in natural order: the names of a set, each once, or the variables of a
map, each once and with the text of its constant. -/
def Lists : (a : Analysis) → a.Fact → List String → Prop
  | liveness _ _, names, items | reaching, names, items =>
      items.Perm names.toList ∧ items.Pairwise NaturallyLe
  | constants, m, items => ∃ sorted, sorted.Perm m.entries ∧
      sorted.Pairwise (fun e e' => NaturallyLe e.1 e'.1) ∧
      List.Forall₂ (fun e item => ∃ t, e.2.text = .ok t ∧ item = e.1 ++ ": " ++ t) sorted items

/-- The text between braces. -/
def Encloses (d : FactData) (items : List String) : Prop :=
  d.text = "\x7b" ++ ", ".intercalate items ++ "\x7d"

theorem exists_lists_names {order : NameSet.Enumeration} {names : NameSet} {d : FactData}
    (h : Viewable.view order names = .ok d) :
    ∃ items : List String, (items.Perm names.toList ∧ items.Pairwise NaturallyLe) ∧
      Encloses d items := by
  change (sortNaturally (order.members names)).map FactData.names = .ok d at h
  cases hsorted : sortNaturally (order.members names) with
  | error e =>
    rw [hsorted] at h
    cases h
  | ok items =>
    rw [hsorted] at h
    obtain rfl := Except.ok.inj h
    obtain ⟨hperm, hpairwise⟩ := perm_pairwise_of_sortNaturallyBy hsorted
    exact ⟨items, ⟨hperm.trans (order.perm names), hpairwise⟩, rfl⟩

theorem exists_lists_constants {order : NameSet.Enumeration} {m : ConstMap} {d : FactData}
    (h : Viewable.view order m = .ok d) : ∃ items, constants.Lists m items ∧ Encloses d items := by
  obtain ⟨sorted, hsorted, hrest⟩ := exists_of_bind_eq_ok h
  obtain ⟨entries, hentries, hconstants⟩ := exists_of_bind_eq_ok hrest
  obtain rfl := Except.ok.inj hconstants
  obtain ⟨hperm, hpairwise⟩ := perm_pairwise_of_sortNaturallyBy hsorted
  refine ⟨_, ⟨sorted, hperm, hpairwise, ?_⟩, rfl⟩
  rw [List.forall₂_map_right_iff]
  refine (mapM_eq_ok_iff.mp hentries).imp fun e entry he => ?_
  obtain ⟨t, ht, hpair⟩ := exists_of_bind_eq_ok he
  obtain rfl := Except.ok.inj hpair
  exact ⟨t, ht, rfl⟩

/-- A fact that can be viewed is listed between braces. -/
theorem exists_lists {a : Analysis} {order : NameSet.Enumeration} {v : a.Fact} {d : FactData}
    (h : Viewable.view order v = .ok d) : ∃ items, a.Lists v items ∧ Encloses d items := by
  cases a with
  | liveness _ _ => exact exists_lists_names h
  | reaching => exact exists_lists_names h
  | constants => exact exists_lists_constants h

end Analysis

/-! ## What a view is made of -/

/-- The facts in the view of a node, by name. -/
def NodeView.facts (v : NodeView) : List (String × FactView) :=
  v.sides ++ [("in", v.input), ("out", v.output)]

namespace Snapshot

variable {α : Type}

/-- The facts that are shown at a node; those that describe it are shown at data nodes only. -/
def shownAt (p : Problem α) (s : Snapshot α) (n : NodeId) : List (String × Observed α) :=
  (if (p.graph.nodeKind? n).getD .node = .node then s.sides else []) ++
    [("in", s.ins), ("out", s.outs)]

theorem mem_facts_of_shownAt {p : Problem α} {s : Snapshot α} {n : NodeId}
    {f : String × Observed α} (h : f ∈ s.shownAt p n) : f ∈ s.facts := by
  refine List.mem_append.mpr ((List.mem_append.mp h).imp_left fun h => ?_)
  split at h
  · exact h
  · cases h

variable [Viewable α] {order : NameSet.Enumeration} {p : Problem α} {s : Snapshot α} {n : NodeId}

/-- The view of a fact of a node, under the name of the fact. -/
def ShowsFact (order : NameSet.Enumeration) (p : Problem α) (n : NodeId)
    (f : String × Observed α) (e : String × FactView) : Prop :=
  e.1 = f.1 ∧ viewFact order f.2 p.lattice.bottom n = .ok e.2

/-- What the view of a node holds. -/
structure ShowsNode (order : NameSet.Enumeration) (p : Problem α) (s : Snapshot α) (n : NodeId)
    (v : NodeView) : Prop where
  id_eq : v.id = n
  kind_eq : v.kind = (p.graph.nodeKind? n).getD .node
  isCurrent_eq : v.isCurrent = (s.current == some n)
  instructions_eq : v.instructions =
    if (p.graph.nodeKind? n).getD .node = .node then
      (p.graph.instrsOf n).map fun (i, instr) => ((p.markers.get? i).getD "", instr.text)
    else []
  facts : List.Forall₂ (ShowsFact order p n) (s.shownAt p n) v.facts

theorem showsFacts_append {sides : List (String × FactView)} {input output : FactView}
    (hsides : List.Forall₂ (ShowsFact order p n)
      (if (p.graph.nodeKind? n).getD .node = .node then s.sides else []) sides)
    (hinput : viewFact order s.ins p.lattice.bottom n = .ok input)
    (houtput : viewFact order s.outs p.lattice.bottom n = .ok output) :
    List.Forall₂ (ShowsFact order p n) (s.shownAt p n)
      (sides ++ [("in", input), ("out", output)]) :=
  List.rel_append hsides (.cons ⟨rfl, hinput⟩ (.cons ⟨rfl, houtput⟩ .nil))

theorem showsNode_of_viewNode {v : NodeView} (h : viewNode order p s n = .ok v) :
    s.ShowsNode order p n v := by
  unfold viewNode at h
  by_cases hkind : (p.graph.nodeKind? n).getD .node = .node
  · simp only [hkind, if_true] at h
    obtain ⟨sides, hsides, h⟩ := exists_of_bind_eq_ok h
    obtain ⟨input, hinput, h⟩ := exists_of_bind_eq_ok h
    obtain ⟨output, houtput, h⟩ := exists_of_bind_eq_ok h
    obtain rfl := Except.ok.inj h
    refine ⟨rfl, hkind.symm, rfl, (if_pos hkind).symm, showsFacts_append ?_ hinput houtput⟩
    rw [if_pos hkind]
    refine (mapM_eq_ok_iff.mp hsides).imp fun f e he => ?_
    obtain ⟨v, hv, hpair⟩ := exists_of_bind_eq_ok he
    obtain rfl := Except.ok.inj hpair
    exact ⟨rfl, hv⟩
  · simp only [hkind, if_false] at h
    obtain ⟨sides, hsides, h⟩ := exists_of_bind_eq_ok h
    obtain ⟨input, hinput, h⟩ := exists_of_bind_eq_ok h
    obtain ⟨output, houtput, h⟩ := exists_of_bind_eq_ok h
    obtain rfl := Except.ok.inj hsides
    obtain rfl := Except.ok.inj h
    refine ⟨rfl, rfl, rfl, (if_neg hkind).symm, showsFacts_append ?_ hinput houtput⟩
    rw [if_neg hkind]
    exact .nil

/-- A view shows the phase, the present node and all nodes of the graph. -/
theorem showsNodes_of_view {algorithm : Algorithm} {v : StateView}
    (h : s.view order algorithm p = .ok v) :
    v.phase = s.phase ∧ v.current = s.current ∧
      List.Forall₂ (s.ShowsNode order p) p.graph.nodes v.nodes := by
  obtain ⟨nodes, hnodes, hv⟩ := exists_of_bind_eq_ok h
  obtain rfl := Except.ok.inj hv
  exact ⟨rfl, rfl, (mapM_eq_ok_iff.mp hnodes).imp fun _ _ => showsNode_of_viewNode⟩

theorem eq_of_viewFact {facts : Observed α} {empty : α} {v : FactView}
    (h : viewFact order facts empty n = .ok v) :
    let cell := (facts.get? n).getD (.fresh empty)
    Viewable.view order cell.value = .ok v.data ∧ v.lookedAt = cell.lookedAt ∧
      v.changed = cell.changed := by
  obtain ⟨d, hd, hv⟩ := exists_of_bind_eq_ok h
  obtain rfl := Except.ok.inj hv
  exact ⟨hd, rfl, rfl⟩

end Snapshot

/-! ## Pages -/

namespace Report

variable {a : Analysis} {p : Problem a.Fact} {s : Snapshot a.Fact} {paint : Coloring} {n : NodeId}

theorem factLines_eq (v : NodeView) :
    factLines paint v = v.facts.map fun e => factLine paint e.1 e.2 := by
  simp [factLines, NodeView.facts]

end Report

end FlowTrace
