import FlowTrace.Proofs.Dataflow.Analysis
import FlowTrace.Proofs.Dataflow.Renaming

/-!
# Traces do not depend on the ids

A renaming of the ids of a graph is one of its problems: each analysis reads instructions, and tags
assignments by their place in the program.  So the traces of an analysis on two graphs of the same
instructions correspond at every step, with nodes that stand at the same place.
-/

namespace FlowTrace

variable {σ : Equiv.Perm NodeId} {g g' : FlowGraph} {n n' : NodeId}

/-! ## Problems of renamed graphs -/

namespace FlowGraph.Renamed

variable {β : Type} {f f' : NodeId → β}

theorem entries_tabulate (h : g.Renamed σ g') (hf : ∀ n, f' (σ n) = f n) :
    (g'.tabulate f').entries = (g.tabulate f).entries.map (Prod.map σ id) := by
  rw [tabulate, tabulate, ← Table.entries_ofList_rename σ.injective, h.nodes_eq, List.map_map,
    List.map_map]
  simp only [Function.comp_def, Prod.map, hf, id]

theorem get?_tabulate (h : g.Renamed σ g') (hf : ∀ n, f' (σ n) = f n) (n : NodeId) :
    (g'.tabulate f').get? (σ n) = (g.tabulate f).get? n := by
  rw [Table.get?_rename σ.injective id (h.entries_tabulate hf), Option.map_id, id]

theorem values_tabulate (h : g.Renamed σ g') (hf : ∀ n, f' (σ n) = f n) :
    (g'.tabulate f').values = (g.tabulate f).values := by
  rw [Table.values, h.entries_tabulate hf, List.map_map]
  rfl

end FlowGraph.Renamed

namespace Liveness

variable (h : g.Renamed σ g') (liveOut : NameSet) (rule : Option Bool)

include h

theorem useDef_renamed (n : NodeId) : useDef g' rule (σ n) = useDef g rule n := by
  have hinstrs : (g'.instrsOf (σ n)).map (·.2) = (g.instrsOf n).map (·.2) := h.map_snd_instrsOf n
  rw [useDef, useDefOfNode, blockRuleFor, h.kind_eq, hinstrs]
  rfl

theorem reading_renamed : (gainLoss g liveOut rule).reading.Renamed σ
    (gainLoss g' liveOut rule).reading where
  graph := h
  direction_eq := rfl
  read_eq := rfl
  effect_eq n := by
    funext s
    change (useDef g' rule (σ n)).use.members ∪ (s \ (useDef g' rule (σ n)).defs.members) = _
    rw [useDef_renamed h]
    rfl
  boundary_eq n := by
    change (if σ n = g'.exit then liveOut else ∅).members =
      (if n = g.exit then liveOut else ∅).members
    simp only [h.exit_eq, σ.injective.eq_iff]
  sides := by
    have hget := h.get?_tabulate (useDef_renamed h rule)
    refine .cons ⟨rfl, fun n => ?_⟩ (.cons ⟨rfl, fun n => ?_⟩ .nil)
    · rw [Table.get?_mapEntries, Table.get?_mapEntries]
      exact congrArg (Option.map UseDef.use) (hget n)
    · rw [Table.get?_mapEntries, Table.get?_mapEntries]
      exact congrArg (Option.map UseDef.defs) (hget n)
  height_eq := by
    have huses : ∀ t : Table NodeId UseDef,
        (t.mapEntries fun _ ud => ud.use).values = t.values.map UseDef.use := fun t => by
      simp only [Table.values, Table.mapEntries, List.map_map, Function.comp_def]
    simp only [problem, huses]
    exact congrArg (fun l : List UseDef => ((l.map UseDef.use).foldl (· ∪ ·) liveOut).size)
      (h.values_tabulate (useDef_renamed h rule))

end Liveness

namespace Reaching

theorem assignments_renamed (h : g.Renamed σ g') : assignments g' = (assignments g).map σ := by
  rw [assignments, h.dataNodes_eq, List.flatMap_map, assignments, List.map_flatMap]
  refine List.flatMap_congr fun n _ => ?_
  rw [h.instrsOf_eq, List.filter_map, List.map_map, List.map_map]
  rfl

/-- A tag says how many come before it, whatever the ids are. -/
theorem entries_foldl_tagNext_renamed (ids : List NodeId) {t t' : Table NodeId String}
    (ht : t'.entries = t.entries.map (Prod.map σ id)) :
    ((ids.map σ).foldl tagNext t').entries =
      (ids.foldl tagNext t).entries.map (Prod.map σ id) := by
  induction ids generalizing t t' with
  | nil => exact ht
  | cons i ids ih =>
    refine ih ?_
    have hsize : t'.size = t.size := by
      rw [Table.size, ht, List.length_map]
      rfl
    change Table.putEntry (σ i) ("d" ++ toString (t'.size + 1)) t'.entries = _
    rw [hsize, ht]
    exact Table.putEntry_rename σ.injective id i _ _

theorem entries_tags_renamed (h : g.Renamed σ g') :
    (tags g').entries = (tags g).entries.map (Prod.map σ id) := by
  rw [tags, assignments_renamed h]
  exact entries_foldl_tagNext_renamed (assignments g) rfl

theorem tagged_renamed {ts ts' : Table NodeId String} (hts : ∀ i, ts'.get? (σ i) = ts.get? i)
    (code : List (NodeId × Instr)) : tagged ts' (code.map (Prod.map σ id)) = tagged ts code := by
  rw [tagged, List.filterMap_map, tagged]
  refine List.filterMap_congr fun e _ => ?_
  simp only [Function.comp_apply, Prod.map, id, hts]

variable (h : g.Renamed σ g')

include h

theorem get?_tags_renamed (i : NodeId) : (tags g').get? (σ i) = (tags g).get? i := by
  rw [Table.get?_rename σ.injective id (entries_tags_renamed h), Option.map_id, id]

theorem lastWrites_renamed (n : NodeId) :
    lastWrites g' (tags g') (σ n) = lastWrites g (tags g) n := by
  rw [lastWrites, h.instrsOf_eq, tagged_renamed (get?_tags_renamed h)]
  rfl

theorem gen_renamed (n : NodeId) : gen g' (tags g') (σ n) = gen g (tags g) n := by
  rw [gen, lastWrites_renamed h]
  rfl

theorem kill_renamed (n : NodeId) : kill g' (tags g') (σ n) = kill g (tags g) n := by
  have hcode : g'.dataNodes.flatMap g'.instrsOf =
      (g.dataNodes.flatMap g.instrsOf).map (Prod.map σ id) := by
    rw [h.dataNodes_eq, List.flatMap_map, List.map_flatMap]
    exact List.flatMap_congr fun n _ => h.instrsOf_eq n
  rw [kill, lastWrites_renamed h, gen_renamed h, hcode, tagged_renamed (get?_tags_renamed h)]
  rfl

theorem reading_renamed : (gainLoss g).reading.Renamed σ (gainLoss g').reading where
  graph := h
  direction_eq := rfl
  read_eq := rfl
  effect_eq n := by
    funext s
    change (gen g' (tags g') (σ n)).members ∪ (s \ (kill g' (tags g') (σ n)).members) = _
    rw [gen_renamed h, kill_renamed h]
    rfl
  boundary_eq _ := rfl
  sides := .cons ⟨rfl, h.get?_tabulate (gen_renamed h)⟩
    (.cons ⟨rfl, h.get?_tabulate (kill_renamed h)⟩ .nil)
  height_eq := by
    change (tags g').entries.length = (tags g).entries.length
    rw [entries_tags_renamed h, List.length_map]

end Reaching

namespace Constants

variable (h : g.Renamed σ g')

include h

theorem definitionsOf_renamed (n : NodeId) : definitionsOf g' (σ n) = definitionsOf g n :=
  congrArg (List.filter Instr.isAssignment) (h.map_snd_instrsOf n)

theorem reading_renamed : (reading g).Renamed σ (reading g') where
  graph := h
  direction_eq := rfl
  read_eq := rfl
  effect_eq n := by
    funext k
    change (definitionsOf g' (σ n)).foldl learn k = _
    rw [definitionsOf_renamed h]
    rfl
  boundary_eq _ := rfl
  sides := .nil
  height_eq := by
    simp only [problem, definitions, h.values_tabulate (definitionsOf_renamed h)]

end Constants

theorem Analysis.reading_renamed (a : Analysis) (h : g.Renamed σ g') :
    (a.reading g).Renamed σ (a.reading g') := by
  cases a with
  | liveness liveOut rule => exact Liveness.reading_renamed h liveOut rule
  | reaching => exact Reaching.reading_renamed h
  | constants => exact Constants.reading_renamed h

/-! ## Nodes at the same place -/

/-- The two nodes stand at the same place of their graphs. -/
def FlowGraph.SamePlace (g g' : FlowGraph) (n n' : NodeId) : Prop :=
  ∃ k : Nat, g.nodes[k]? = some n ∧ g'.nodes[k]? = some n'

/-- The graphs have as many nodes, and their edges lead from the same places to the same places, in
the same order and with the same ones going back. -/
structure FlowGraph.Corresponds (g g' : FlowGraph) : Prop where
  nodup : g.nodes.Nodup
  nodup' : g'.nodes.Nodup
  length_eq : g'.nodes.length = g.nodes.length
  edges : List.Forall₂ (fun e e' => g.SamePlace g' e.source e'.source ∧
    g.SamePlace g' e.target e'.target ∧ e'.isBack = e.isBack) g.edges g'.edges

namespace FlowGraph.Renamed

theorem samePlace_iff (h : g.Renamed σ g') : g.SamePlace g' n n' ↔ n ∈ g.nodes ∧ n' = σ n := by
  simp only [SamePlace, h.nodes_eq, List.getElem?_map, Option.map_eq_some_iff,
    List.mem_iff_getElem?]
  constructor
  · rintro ⟨k, hn, m, hm, rfl⟩
    rw [hn, Option.some.injEq] at hm
    exact ⟨⟨k, hn⟩, hm ▸ rfl⟩
  · rintro ⟨⟨k, hn⟩, rfl⟩
    exact ⟨k, hn, n, hn, rfl⟩

theorem corresponds (h : g.Renamed σ g') (hg : g.WellFormed) : g.Corresponds g' where
  nodup := hg.nodes_nodup
  nodup' := h.nodes_eq ▸ hg.nodes_nodup.map σ.injective
  length_eq := by rw [h.nodes_eq, List.length_map]
  edges := by
    rw [h.edges_eq hg.nodes_nodup, List.forall₂_map_right_iff, List.forall₂_same]
    intro e he
    obtain ⟨hsource, htarget⟩ := hg.mem_of_hasEdge (hg.mem_edges_iff.mp he).1
    exact ⟨h.samePlace_iff.mpr ⟨hsource, rfl⟩, h.samePlace_iff.mpr ⟨htarget, rfl⟩, rfl⟩

end FlowGraph.Renamed

/-! ## Snapshots that correspond -/

section

variable {α β : Type} {place : NodeId → NodeId → Prop} {same : α → α → Prop} {read : α → β}

/-- The same fact with the same marks. -/
structure Cell.Same (same : α → α → Prop) (c c' : Cell α) : Prop where
  value : same c.value c'.value
  lookedAt_eq : c'.lookedAt = c.lookedAt
  changed_eq : c'.changed = c.changed

/-- Two snapshots of the same phase, whose current nodes are at the same place and which have the
same facts under the same names, with the same marks, for all nodes at the same place. -/
structure Snapshot.Corresponds (place : NodeId → NodeId → Prop) (same : α → α → Prop)
    (s s' : Snapshot α) : Prop where
  phase_eq : s'.phase = s.phase
  current : Option.Rel place s.current s'.current
  facts : List.Forall₂ (fun f f' => f'.1 = f.1 ∧ ∀ n n', place n n' →
    Option.Rel (Cell.Same same) (f.2.get? n) (f'.2.get? n')) s.facts s'.facts

theorem Observed.Renamed.rel_get? {s s' : Observed α} (h : s.Renamed σ read s')
    (hsame : ∀ {x y}, read x = read y → same x y) (n : NodeId) :
    Option.Rel (Cell.Same same) (s.get? n) (s'.get? (σ n)) := by
  have hn := h n
  rw [shown, shown] at hn
  cases hc : s.get? n with
  | none =>
    rw [hc, Option.map_none, Option.map_eq_none_iff] at hn
    rw [hn]
    exact .none
  | some c =>
    rw [hc, Option.map_some, Option.map_eq_some_iff] at hn
    obtain ⟨c', hc', hread⟩ := hn
    obtain ⟨hvalue, hlooked, hchanged⟩ := Cell.mk.inj hread
    rw [hc']
    exact .some ⟨hsame hvalue.symm, hlooked, hchanged⟩

theorem Snapshot.Renamed.corresponds {s s' : Snapshot α} (h : s.Renamed σ read s')
    (hcurrent : ∀ n ∈ s.current, place n (σ n)) (hplace : ∀ {n n'}, place n n' → n' = σ n)
    (hsame : ∀ {x y}, read x = read y → same x y) : s.Corresponds place same s' where
  phase_eq := h.phase_eq
  current := by
    rw [h.current_eq]
    cases hn : s.current with
    | none => exact .none
    | some n => exact .some (hcurrent n hn)
  facts := by
    have hfacts : ∀ {t t' : Observed α}, t.Renamed σ read t' → ∀ n n',
        place n n' → Option.Rel (Cell.Same same) (t.get? n) (t'.get? n') := by
      intro t t' ht n n' hn
      rw [hplace hn]
      exact ht.rel_get? hsame n
    refine List.rel_append (h.sides.imp fun _ _ hside => ⟨hside.1, hfacts hside.2⟩) ?_
    exact .cons ⟨rfl, hfacts h.ins⟩ (.cons ⟨rfl, hfacts h.outs⟩ .nil)

end

/-! ## Traces that correspond -/

namespace Run

variable {α β : Type} [SemilatticeSup β] [OrderBot β] {p : Problem α} {R : p.Reading β}
  {H : R.Height} {r q : Run α} {s : Snapshot α}

/-- A pause is at a node of the graph. -/
theorem OnCourse.current_mem (h : OnCourse H r) (hg : p.graph.WellFormed)
    (hs : r.next? = some (s, q)) : ∀ n ∈ s.current, n ∈ p.graph.nodes := by
  obtain ⟨phase, current, q, hq, hpause⟩ := h.advance hg hs
  obtain ⟨rfl, rfl⟩ := Prod.mk.inj hpause
  intro n hn
  cases hq with
  | start _ | finish _ => cases hn
  | merge hstage _ | transfer hstage _ | lap hstage _ _ | settle hstage _ _ =>
    cases hn
    exact h.visit_mem hstage

theorem OnCourse.collect_current_mem (h : OnCourse H r) (hg : p.graph.WellFormed) (fuel : Nat) :
    ∀ s ∈ (Run.collect fuel r).1, ∀ n ∈ s.current, n ∈ p.graph.nodes := by
  induction fuel generalizing r with
  | zero => exact fun s hs => by cases hs
  | succ fuel ih =>
    cases hnext : r.next? with
    | none => simp [Run.collect, hnext]
    | some next =>
      intro s hs
      simp only [Run.collect, hnext, List.mem_cons] at hs
      rcases hs with rfl | hs
      · exact h.current_mem hg hnext
      · exact ih (h.next hg hnext) s hs

end Run

/-- The complete traces of an analysis correspond, snapshot by snapshot, and have as many sweeps. -/
structure Analysis.Corresponds (a : Analysis) (g g' : FlowGraph) : Prop where
  complete : (Run.start (a.problem g)).Yields (a.problem g).trace
  complete' : (Run.start (a.problem g')).Yields (a.problem g').trace
  length_eq : (a.problem g').trace.length = (a.problem g).trace.length
  trace : List.Forall₂ (Snapshot.Corresponds (g.SamePlace g') a.Same) (a.problem g).trace
    (a.problem g').trace
  sweeps_eq : (Run.start (a.problem g')).toEnd.2.sweeps = (Run.start (a.problem g)).toEnd.2.sweeps

theorem FlowGraph.Renamed.corresponds_traces (h : g.Renamed σ g') (hg : g.WellFormed)
    (hg' : g'.WellFormed) (a : Analysis) : a.Corresponds g g' := by
  have hwf := a.wellFormed_graph hg
  have hwf' := a.wellFormed_graph hg'
  obtain ⟨htrace, hsweeps⟩ := (a.reading_renamed h).toEnd (a.height g) (a.height g') hwf hwf'
  -- Only nodes of the graph have a place, so a snapshot has to be taken at one of them.
  have hcurrent : ∀ s ∈ (a.problem g).trace, ∀ n ∈ s.current, g.SamePlace g' n (σ n) := by
    intro s hs n hn
    have hmem := (Run.onCourse_start (a.height g)).collect_current_mem hwf _ s hs n hn
    rw [a.graph_problem] at hmem
    exact h.samePlace_iff.mpr ⟨hmem, rfl⟩
  exact {
    complete := (a.reading g).yields_trace (a.height g) hwf
    complete' := (a.reading g').yields_trace (a.height g') hwf'
    length_eq := htrace.length_eq.symm
    trace := ((List.forall₂_and_left _ _).mpr ⟨hcurrent, htrace⟩).imp fun s s' hs =>
      hs.2.corresponds hs.1 (fun hn => (h.samePlace_iff.mp hn).2) a.read_eq_iff.mp
    sweeps_eq := hsweeps }

/-- The ids of verified programs of the same instructions do not matter. -/
theorem Program.Verified.corresponds {p q : Program} (hp : p.Verified) (hq : q.Verified)
    (hcode : q.code.map Prod.snd = p.code.map Prod.snd) (kind : GraphKind) :
    (p.graph kind).Corresponds (q.graph kind) ∧
      ∀ a : Analysis, a.Corresponds (p.graph kind) (q.graph kind) := by
  obtain ⟨σ, hσ⟩ := hp.exists_renamed_graph hq hcode kind
  have hg := hp.wellFormed.graph kind
  exact ⟨hσ.corresponds hg, hσ.corresponds_traces hg (hq.wellFormed.graph kind)⟩

end FlowTrace
