import FlowTrace.Proofs.Dataflow.Fixpoint
import FlowTrace.Proofs.Graph.Renaming

/-!
# Runs under other ids

Two problems whose graphs are renamings of each other, with facts that are read alike.  Their runs
take the same course: a half visit to a node and one to the renamed node read the same facts, leave
the same marks and say the same about a change.  The order in which sources are joined may differ,
but their join is read as a least upper bound, which does not depend on it.
-/

namespace FlowTrace

variable {α β : Type} {σ : Equiv.Perm NodeId}

/-! ## Facts with their marks -/

/-- What is read of a fact, with its marks. -/
def Cell.read (read : α → β) (c : Cell α) : Cell β := ⟨read c.value, c.lookedAt, c.changed⟩

namespace Observed

variable {read : α → β} {s s' : Observed α} {n : NodeId}

/-- What is read of the fact of a node, with its marks. -/
def shown (read : α → β) (s : Observed α) (n : NodeId) : Option (Cell β) :=
  (s.get? n).map (Cell.read read)

theorem shown_ofTable (t : Table NodeId α) (n : NodeId) :
    (ofTable t).shown read n = ((t.get? n).map read).map .fresh := by
  rw [shown, ofTable, Table.get?_mapEntries, Option.map_map, Option.map_map]
  rfl

theorem shown_reset (s : Observed α) (n : NodeId) :
    s.reset.shown read n = (s.shown read n).map fun c => .fresh c.value := by
  rw [shown, reset, Table.get?_mapEntries, Option.map_map, shown, Option.map_map]
  rfl

theorem shown_look (s : Observed α) (m n : NodeId) : (s.look m).shown read n =
    if n = m then (s.shown read n).map fun c => { c with lookedAt := true }
    else s.shown read n := by
  rw [shown, look, Table.get?_modify]
  split
  · rw [Option.map_map, shown, Option.map_map]
    rfl
  · rfl

theorem shown_foldl_look (s : Observed α) (ns : List NodeId) (n : NodeId) :
    (ns.foldl look s).shown read n =
      if n ∈ ns then (s.shown read n).map fun c => { c with lookedAt := true }
      else s.shown read n := by
  induction ns generalizing s with
  | nil => rfl
  | cons m ns ih =>
    rw [List.foldl_cons, ih, shown_look]
    by_cases hm : n = m
    · subst hm
      by_cases hn : n ∈ ns
      · simp [hn, Function.comp_def]
      · simp [hn]
    · simp [hm]

theorem shown_put (s : Observed α) (m : NodeId) (v : α) (isNew : Bool) (n : NodeId) :
    (s.put m v isNew).shown read n =
      if n = m then (s.shown read n).map fun c => ⟨read v, c.lookedAt, c.changed || isNew⟩
      else s.shown read n := by
  rw [shown, put, Table.get?_modify]
  split
  · rw [Option.map_map, shown, Option.map_map]
    rfl
  · rfl

/-- The renamed nodes have the same facts with the same marks. -/
def Renamed (σ : Equiv.Perm NodeId) (read : α → β) (s s' : Observed α) : Prop :=
  ∀ n, s'.shown read (σ n) = s.shown read n

namespace Renamed

theorem ofTable {t t' : Table NodeId α} (h : ∀ n, (t'.get? (σ n)).map read = (t.get? n).map read) :
    Renamed σ read (.ofTable t) (.ofTable t') := by
  intro n
  rw [shown_ofTable, shown_ofTable, h]

theorem reset (h : Renamed σ read s s') : Renamed σ read s.reset s'.reset := by
  intro n
  rw [shown_reset, shown_reset, h]

theorem foldl_look (h : Renamed σ read s s') {ns ns' : List NodeId}
    (hns : ∀ n, σ n ∈ ns' ↔ n ∈ ns) :
    Renamed σ read (ns.foldl look s) (ns'.foldl look s') := by
  intro n
  rw [shown_foldl_look, shown_foldl_look, h]
  simp only [hns]

theorem look (h : Renamed σ read s s') (m : NodeId) :
    Renamed σ read (s.look m) (s'.look (σ m)) := by
  intro n
  rw [shown_look, shown_look, h]
  simp only [σ.injective.eq_iff]

theorem put (h : Renamed σ read s s') (m : NodeId) {v v' : α} (hv : read v' = read v)
    (isNew : Bool) : Renamed σ read (s.put m v isNew) (s'.put (σ m) v' isNew) := by
  intro n
  rw [shown_put, shown_put, h, hv]
  simp only [σ.injective.eq_iff]

theorem read_eq (h : Renamed σ read s s') {v v' : α} (hv : s.peek? n = some v)
    (hv' : s'.peek? (σ n) = some v') : read v' = read v := by
  obtain ⟨c, hc, rfl⟩ := Option.map_eq_some_iff.mp hv
  obtain ⟨c', hc', rfl⟩ := Option.map_eq_some_iff.mp hv'
  have hn := h n
  rw [shown, shown, hc, hc'] at hn
  exact congrArg Cell.value (Option.some.inj hn)

end Renamed

end Observed

/-- The sides of two stores, which have the same names. -/
def SidesRenamed (σ : Equiv.Perm NodeId) (read : α → β) :
    List (String × Observed α) → List (String × Observed α) → Prop :=
  List.Forall₂ fun side side' => side'.1 = side.1 ∧ Observed.Renamed σ read side.2 side'.2

theorem SidesRenamed.map {read : α → β} {sides sides' : List (String × Observed α)}
    (h : SidesRenamed σ read sides sides') {f f' : Observed α → Observed α}
    (hf : ∀ s s', Observed.Renamed σ read s s' → Observed.Renamed σ read (f s) (f' s')) :
    SidesRenamed σ read (sides.map fun side => (side.1, f side.2))
      (sides'.map fun side => (side.1, f' side.2)) := by
  rw [SidesRenamed, List.forall₂_map_left_iff, List.forall₂_map_right_iff]
  exact h.imp fun _ _ hside => ⟨hside.1, hf _ _ hside.2⟩

structure Stores.Renamed (σ : Equiv.Perm NodeId) (read : α → β) (s s' : Stores α) : Prop where
  sides : SidesRenamed σ read s.sides s'.sides
  merged : s.merged.Renamed σ read s'.merged
  flowed : s.flowed.Renamed σ read s'.flowed

theorem Stores.Renamed.reset {read : α → β} {s s' : Stores α} (h : s.Renamed σ read s') :
    s.reset.Renamed σ read s'.reset where
  sides := h.sides.map fun _ _ hs => hs.reset
  merged := h.merged.reset
  flowed := h.flowed.reset

/-- Two snapshots of renamed nodes, with the same facts and marks. -/
structure Snapshot.Renamed (σ : Equiv.Perm NodeId) (read : α → β) (s s' : Snapshot α) : Prop where
  phase_eq : s'.phase = s.phase
  current_eq : s'.current = s.current.map σ
  sides : SidesRenamed σ read s.sides s'.sides
  ins : s.ins.Renamed σ read s'.ins
  outs : s.outs.Renamed σ read s'.outs

def Stage.rename (σ : Equiv.Perm NodeId) : Stage → Stage
  | start => start
  | visit n half rest => visit (σ n) half (rest.map σ)
  | finish => finish
  | done => done

theorem Run.sweepStage_map (l : List NodeId) :
    sweepStage (l.map σ) = (sweepStage l).rename σ := by
  cases l <;> rfl

variable [SemilatticeSup β] [OrderBot β] {p p' : Problem α} {R : p.Reading β} {R' : p'.Reading β}
  {H : R.Height} {H' : R'.Height} {r r' q q' : Run α} {n : NodeId}

/-! ## Problems -/

/-- One problem is the other with its ids renamed, as far as facts are read. -/
structure Problem.Reading.Renamed (σ : Equiv.Perm NodeId) (R : p.Reading β) (R' : p'.Reading β) :
    Prop where
  graph : p.graph.Renamed σ p'.graph
  direction_eq : p'.direction = p.direction
  read_eq : R'.read = R.read
  effect_eq : ∀ n, R'.effect (σ n) = R.effect n
  boundary_eq : ∀ n, R.read (p'.boundary (σ n)) = R.read (p.boundary n)
  sides : List.Forall₂ (fun side side' => side'.1 = side.1 ∧
    ∀ n, side'.2.get? (σ n) = side.2.get? n) p.sides p'.sides
  height_eq : p'.height = p.height

namespace Problem.Reading.Renamed

theorem sends_iff (h : R.Renamed σ R') (a b : NodeId) :
    p'.Sends (σ a) (σ b) ↔ p.Sends a b := by
  rw [Sends, Sends, h.direction_eq]
  cases p.direction with
  | forward => exact Bool.eq_iff_iff.mp (h.graph.hasEdge_eq a b)
  | backward => exact Bool.eq_iff_iff.mp (h.graph.hasEdge_eq b a)

theorem order_eq (h : R.Renamed σ R') : p'.order = p.order.map σ := by
  rw [order, order, h.direction_eq, h.graph.nodes_eq]
  cases p.direction with
  | forward => rfl
  | backward => exact List.map_reverse.symm

theorem stores_initial (h : R.Renamed σ R') :
    (Stores.initial p).Renamed σ R.read (.initial p') := by
  have htabulate : ∀ f f' : NodeId → α, (∀ n, R.read (f' (σ n)) = R.read (f n)) →
      Observed.Renamed σ R.read (.ofTable (p.graph.tabulate f))
        (.ofTable (p'.graph.tabulate f')) := by
    intro f f' hf
    refine .ofTable fun n => ?_
    rw [FlowGraph.get?_tabulate, FlowGraph.get?_tabulate]
    simp only [h.graph.mem_nodes_iff]
    split
    · exact congrArg some (hf n)
    · rfl
  refine ⟨?_, htabulate _ _ h.boundary_eq, htabulate _ _ fun n => ?_⟩
  · rw [SidesRenamed, Stores.initial, Stores.initial, List.forall₂_map_left_iff,
      List.forall₂_map_right_iff]
    exact h.sides.imp fun _ _ hside => ⟨hside.1, .ofTable fun n => by rw [hside.2]⟩
  · rw [R.read_bottom, ← h.read_eq, R'.read_bottom]

end Problem.Reading.Renamed

/-- The effect is not below the old fact, so it takes its place. -/
theorem Problem.Reading.Grounded.read_absorb {s : Stores α} (h : R.Grounded s)
    (hn : n ∈ p.graph.nodes) {value old : α} (hvalue : s.merged.peek? n = some value)
    (hold : s.flowed.peek? n = some old) :
    R.read (p.absorb old (p.transfer n value)) = R.effect n (R.read value) := by
  have hle : (R.family s).flowed n ≤ R.effect n ((R.family s).merged n) := h.sound.flowed_le n hn
  have hflowed : (R.family s).flowed n = R.read old := R.reads_eq hold
  have hmerged : (R.family s).merged n = R.read value := R.reads_eq hvalue
  rw [hflowed, hmerged, ← R.read_transfer] at hle
  rw [R.read_absorb _ _ hle, R.read_transfer]

/-! ## Half visits -/

namespace Run

theorem isNew_eq (h : R.Renamed σ R') {old new old' new' : α} (hold : R.read old' = R.read old)
    (hnew : R.read new' = R.read new) :
    (!p'.lattice.eq old' new') = !p.lattice.eq old new := by
  congr 1
  rw [Bool.eq_iff_iff, R.eq_iff, R'.eq_iff, h.read_eq, hold, hnew]

theorem exists_merge_renamed (h : R.Renamed σ R') (hg : p.graph.WellFormed)
    (hg' : p'.graph.WellFormed) (hr : OnCourse H r) (hr' : OnCourse H' r')
    (hs : r.stores.Renamed σ R.read r'.stores) (hn : n ∈ p.graph.nodes) :
    ∃ changed st st', r.compute .merge n = .ok changed { r with stores := st } ∧
      r'.compute .merge (σ n) = .ok changed { r' with stores := st' } ∧
      st.Renamed σ R.read st' := by
  obtain ⟨rfl, rfl⟩ := And.intro hr.problem_eq hr'.problem_eq
  obtain ⟨ss, f, old, hss, hmem, hf, hold⟩ := hr.grounded.total.exists_merge hg hn
  obtain ⟨ss', f', old', hss', hmem', hf', hold'⟩ :=
    hr'.grounded.total.exists_merge hg' (h.graph.mem_nodes_iff.mpr hn)
  have hsources : ∀ m, σ m ∈ ss' ↔ m ∈ ss := fun m => by rw [hmem, hmem', h.sends_iff]
  have hreadold := hs.merged.read_eq hold hold'
  have hreadnew : R.read ((ss'.map f').foldl r'.problem.lattice.join old') =
      R.read ((ss.map f).foldl r.problem.lattice.join old) := by
    -- Both are the least upper bound of the old fact and of those of the sources.
    have himage : R.read '' {v | v ∈ ss'.map f'} = R.read '' {v | v ∈ ss.map f} := by
      have hread : ∀ m ∈ ss, R.read (f' (σ m)) = R.read (f m) := fun m hm =>
        hs.flowed.read_eq (hf m hm) (hf' (σ m) ((hsources m).mpr hm))
      ext b
      constructor
      · rintro ⟨_, hv, rfl⟩
        obtain ⟨m', hm', rfl⟩ := List.mem_map.mp hv
        obtain ⟨m, rfl⟩ := σ.surjective m'
        have hm := (hsources m).mp hm'
        exact ⟨f m, List.mem_map_of_mem hm, (hread m hm).symm⟩
      · rintro ⟨_, hv, rfl⟩
        obtain ⟨m, hm, rfl⟩ := List.mem_map.mp hv
        exact ⟨f' (σ m), List.mem_map_of_mem ((hsources m).mpr hm), hread m hm⟩
    have hlub' := R'.isLUB_foldl_join (ss'.map f') old'
    rw [h.read_eq, hreadold, himage] at hlub'
    exact hlub'.unique (R.isLUB_foldl_join (ss.map f) old)
  have hmerge' := compute_of_ok (Problem.run_merge hss' hf' hold')
  simp only [isNew_eq h hreadold hreadnew] at hmerge'
  exact ⟨_, _, _, compute_of_ok (Problem.run_merge hss hf hold), hmerge', hs.sides,
    hs.merged.put n hreadnew _, hs.flowed.foldl_look hsources⟩

theorem exists_transfer_renamed (h : R.Renamed σ R') (hr : OnCourse H r) (hr' : OnCourse H' r')
    (hs : r.stores.Renamed σ R.read r'.stores) (hn : n ∈ p.graph.nodes) :
    ∃ changed st st', r.compute .transfer n = .ok changed { r with stores := st } ∧
      r'.compute .transfer (σ n) = .ok changed { r' with stores := st' } ∧
      st.Renamed σ R.read st' := by
  obtain ⟨rfl, rfl⟩ := And.intro hr.problem_eq hr'.problem_eq
  have hn' := h.graph.mem_nodes_iff.mpr hn
  obtain ⟨value, hvalue⟩ := hr.grounded.total.merged n hn
  obtain ⟨old, hold⟩ := hr.grounded.total.flowed n hn
  obtain ⟨value', hvalue'⟩ := hr'.grounded.total.merged (σ n) hn'
  obtain ⟨old', hold'⟩ := hr'.grounded.total.flowed (σ n) hn'
  have hreadold := hs.flowed.read_eq hold hold'
  have hreadnew : R.read (r'.problem.absorb old' (r'.problem.transfer (σ n) value')) =
      R.read (r.problem.absorb old (r.problem.transfer n value)) := by
    rw [← h.read_eq, hr'.grounded.read_absorb hn' hvalue' hold', h.effect_eq, h.read_eq,
      hr.grounded.read_absorb hn hvalue hold, hs.merged.read_eq hvalue hvalue']
  have hsides := hr.grounded.total.exists_side hn
  have hsides' := hr'.grounded.total.exists_side hn'
  have htransfer' := compute_of_ok (Problem.run_flow hsides' hvalue' hold')
  simp only [isNew_eq h hreadold hreadnew] at htransfer'
  exact ⟨_, _, _, compute_of_ok (Problem.run_flow hsides hvalue hold), htransfer',
    hs.sides.map fun _ _ hs => hs.look n, hs.merged.look n, hs.flowed.put n hreadnew _⟩

/-! ## Runs -/

/-- Two runs at the same point of their course. -/
structure Renamed (σ : Equiv.Perm NodeId) (read : α → β) (r r' : Run α) : Prop where
  stores : r.stores.Renamed σ read r'.stores
  stage_eq : r'.stage = r.stage.rename σ
  dirty_eq : r'.dirty = r.dirty
  sweeps_eq : r'.sweeps = r.sweeps

/-- The two runs pause in the same way. -/
theorem Renamed.pause (h : R.Renamed σ R') (hp : r.problem = p) (hp' : r'.problem = p')
    (hr : r.Renamed σ R.read r') (phase : Phase) (current : Option NodeId) :
    (r.pause phase current).1.Renamed σ R.read (r'.pause phase (current.map σ)).1 ∧
      (r.pause phase current).2.Renamed σ R.read (r'.pause phase (current.map σ)).2 := by
  refine ⟨⟨rfl, rfl, hr.stores.sides, ?_, ?_⟩, hr.stores.reset, hr.stage_eq, hr.dirty_eq,
    hr.sweeps_eq⟩
  · rw [Run.pause, Run.pause, hp, hp', h.direction_eq]
    cases p.direction with
    | forward => exact hr.stores.merged
    | backward => exact hr.stores.flowed
  · rw [Run.pause, Run.pause, hp, hp', h.direction_eq]
    cases p.direction with
    | forward => exact hr.stores.flowed
    | backward => exact hr.stores.merged

/-- A half visit of a sweep. -/
theorem Renamed.visitHalf (h : R.Renamed σ R') (hg : p.graph.WellFormed)
    (hg' : p'.graph.WellFormed) (hc : OnCourse H r) (hc' : OnCourse H' r')
    (hr : r.Renamed σ R.read r') (hn : n ∈ p.graph.nodes) (half : Half) :
    ∃ changed st st',
      r.visitHalf half n = { r with stores := st, dirty := r.dirty || changed } ∧
      r'.visitHalf half (σ n) = { r' with stores := st', dirty := r'.dirty || changed } ∧
      st.Renamed σ R.read st' := by
  have hcompute : ∃ changed st st', r.compute half n = .ok changed { r with stores := st } ∧
      r'.compute half (σ n) = .ok changed { r' with stores := st' } ∧
      st.Renamed σ R.read st' := by
    cases half with
    | merge => exact exists_merge_renamed h hg hg' hc hc' hr.stores hn
    | transfer => exact exists_transfer_renamed h hc hc' hr.stores hn
  obtain ⟨changed, st, st', hst, hst', hrenamed⟩ := hcompute
  exact ⟨changed, st, st', by rw [Run.visitHalf, hst], by rw [Run.visitHalf, hst'], hrenamed⟩

/-- Every pause of the one run is one of the other. -/
theorem Renamed.next? (h : R.Renamed σ R') (hg : p.graph.WellFormed) (hg' : p'.graph.WellFormed)
    (hc : OnCourse H r) (hc' : OnCourse H' r') (hr : r.Renamed σ R.read r') {s : Snapshot α}
    (hs : r.next? = some (s, q)) :
    ∃ s' q', r'.next? = some (s', q') ∧ s.Renamed σ R.read s' ∧ q.Renamed σ R.read q' := by
  -- Both runs come to `next` and `next'` before they pause.
  have hpauses : ∀ {next next' : Run α} {phase : Phase} {current : Option NodeId},
      next.pause phase current = (s, q) → next.Renamed σ R.read next' →
      next.problem = r.problem → next'.problem = r'.problem →
      ∃ s' q', some (next'.pause phase (current.map σ)) = some (s', q') ∧
        s.Renamed σ R.read s' ∧ q.Renamed σ R.read q' := by
    intro next next' phase current hpause hrenamed hnext hnext'
    obtain ⟨hsnapshot, hrun⟩ := Renamed.pause h (hnext.trans hc.problem_eq)
      (hnext'.trans hc'.problem_eq) hrenamed phase current
    rw [hpause] at hsnapshot hrun
    exact ⟨_, _, rfl, hsnapshot, hrun⟩
  have hdirection : r'.problem.direction = r.problem.direction := by
    rw [hc.problem_eq, hc'.problem_eq, h.direction_eq]
  have horder : r'.problem.order = r.problem.order.map σ := by
    rw [hc.problem_eq, hc'.problem_eq, h.order_eq]
  have hstage := hr.stage_eq
  unfold Run.next? at hs ⊢
  split at hs
  · next hstart =>
    rw [hstart] at hstage
    simp only [hstage, Stage.rename]
    refine hpauses (Option.some.inj hs) ⟨hr.stores, ?_, hr.dirty_eq, hr.sweeps_eq⟩ rfl rfl
    rw [horder, sweepStage_map]
  · next n rest hvisit =>
    rw [hvisit] at hstage
    obtain ⟨changed, st, st', hst, hst', hrenamed⟩ :=
      Renamed.visitHalf h hg hg' hc hc' hr (hc.visit_mem hvisit) .merge
    simp only [hst] at hs
    simp only [hstage, Stage.rename, hst', hdirection]
    exact hpauses (Option.some.inj hs) ⟨hrenamed, rfl, by rw [hr.dirty_eq], hr.sweeps_eq⟩ rfl rfl
  · next n rest hvisit =>
    rw [hvisit] at hstage
    obtain ⟨changed, st, st', hst, hst', hrenamed⟩ :=
      Renamed.visitHalf h hg hg' hc hc' hr (hc.visit_mem hvisit) .transfer
    simp only [hst] at hs
    simp only [hstage, Stage.rename, hst']
    cases rest with
    | nil =>
      simp only [endSweep] at hs
      simp only [List.map_nil, endSweep, hdirection, horder, sweepStage_map, hr.dirty_eq]
      refine hpauses (Option.some.inj hs) ⟨hrenamed, ?_, rfl, congrArg (· + 1) hr.sweeps_eq⟩ rfl rfl
      cases r.dirty || changed <;> rfl
    | cons m rest =>
      simp only [List.map_cons, hdirection]
      exact hpauses (Option.some.inj hs) ⟨hrenamed, rfl, by rw [hr.dirty_eq], hr.sweeps_eq⟩ rfl rfl
  · next hfinish =>
    rw [hfinish] at hstage
    simp only [hstage, Stage.rename]
    exact hpauses (Option.some.inj hs) ⟨hr.stores, rfl, hr.dirty_eq, hr.sweeps_eq⟩ rfl rfl
  · cases hs

theorem Renamed.next?_eq_none (hr : r.Renamed σ R.read r') (hs : r.next? = none) :
    r'.next? = none := by
  have hdone : r.stage = .done := by
    by_contra hne
    obtain ⟨s, q, hnext⟩ := exists_next r hne
    rw [hs] at hnext
    cases hnext
  refine next?_of_done ?_
  rw [hr.stage_eq, hdone]
  rfl

/-- The two runs give the same snapshots up to the renaming and stay at the same point. -/
theorem Renamed.collect (h : R.Renamed σ R') (hg : p.graph.WellFormed) (hg' : p'.graph.WellFormed)
    (hc : OnCourse H r) (hc' : OnCourse H' r') (hr : r.Renamed σ R.read r') (fuel : Nat) :
    List.Forall₂ (Snapshot.Renamed σ R.read) (collect fuel r).1 (collect fuel r').1 ∧
      (collect fuel r).2.Renamed σ R.read (collect fuel r').2 := by
  induction fuel generalizing r r' with
  | zero => exact ⟨.nil, hr⟩
  | succ fuel ih =>
    cases hs : r.next? with
    | none =>
      simp only [Run.collect, hs, hr.next?_eq_none hs]
      exact ⟨.nil, hr⟩
    | some next =>
      obtain ⟨s', q', hs', hsnapshot, hq⟩ := Renamed.next? h hg hg' hc hc' hr hs
      obtain ⟨hrest, hend⟩ := ih (hc.next hg hs) (hc'.next hg' hs') hq
      simp only [Run.collect, hs, hs']
      exact ⟨.cons hsnapshot hrest, hend⟩

end Run

/-- Renamed problems have the same trace up to the renaming, after as many sweeps. -/
theorem Problem.Reading.Renamed.toEnd (h : R.Renamed σ R') (H : R.Height) (H' : R'.Height)
    (hg : p.graph.WellFormed) (hg' : p'.graph.WellFormed) :
    List.Forall₂ (Snapshot.Renamed σ R.read) p.trace p'.trace ∧
      (Run.start p').toEnd.2.sweeps = (Run.start p).toEnd.2.sweeps := by
  have hstart : (Run.start p).Renamed σ R.read (.start p') := ⟨h.stores_initial, rfl, rfl, rfl⟩
  have hbound : (Run.start p').pauseBound = (Run.start p).pauseBound := by
    simp only [Run.pauseBound, Run.start, sweepBound, h.graph.nodes_eq, List.length_map,
      h.height_eq]
  obtain ⟨htrace, hend⟩ := Run.Renamed.collect h hg hg' (Run.onCourse_start H)
    (Run.onCourse_start H') hstart (Run.start p).pauseBound
  rw [trace, trace, Run.toEnd, Run.toEnd, hbound]
  exact ⟨htrace, hend.sweeps_eq⟩

end FlowTrace
