import FlowTrace.Proofs.Dataflow.Analysis

/-!
# Runs that are driven in any order

Between the pauses of a run, either half of a visit can be asked for at any node.  However such
calls are mixed with those for the next pause, a run stays on course: facts only rise, none exceeds
the least solution, and the run still comes to its end.  A half visit says whether it changed its
fact; one to something that is no node fails and leaves the run as it is.
-/

namespace FlowTrace

variable {α β : Type}

/-! ## What no call changes -/

/-- The other half of a visit. -/
def Half.other : Half → Half
  | merge => transfer
  | transfer => merge

namespace Stores

/-- What no call changes: the facts that describe the nodes, and which nodes have facts. -/
def frame (s : Stores α) : List (String × Table NodeId α) × List NodeId × List NodeId :=
  (s.sides.map fun side => (side.1, side.2.facts), s.merged.keys, s.flowed.keys)

@[simp] theorem frame_reset (s : Stores α) : s.reset.frame = s.frame := by
  simp [frame, reset]

/-- The facts that a half of a visit computes. -/
def half (s : Stores α) : Half → Observed α
  | .merge => s.merged
  | .transfer => s.flowed

end Stores

/-- No half visit changes the frame, not even one that fails. -/
theorem Problem.preserves_frame (p : Problem α)
    (frame : List (String × Table NodeId α) × List NodeId × List NodeId) (half : Half)
    (n : NodeId) : (p.visit half n).Preserves (·.frame = frame) fun _ => True := by
  refine preserves_visit (Q := fun _ => True) ?_ ?_ ?_ ?_ ?_ half n
  · intro s n hs
    have hsides := Action.map_lookThrough (n := n) (f := fun side => (side.1, side.2.facts))
      (fun _ facts => congrArg _ (facts.facts_look n)) s.sides
    rw [← hs, Stores.frame, Stores.frame, hsides]
  · intro s n v hs _
    simpa [Stores.frame] using hs
  · intro s n v hs _
    simpa [Stores.frame] using hs
  · intro s n old values isNew hs _ _
    simpa [Stores.frame] using hs
  · intro s n old value isNew hs _ _
    simpa [Stores.frame] using hs

/-! ## Calls -/

namespace Run

/-- What a run can be asked for. -/
inductive Request where
  | next
  | computeIn (n : NodeId)
  | computeOut (n : NodeId)

inductive Reply (α : Type) where
  | shown (s : Snapshot α)
  | exhausted
  | computed (changed : Bool)
  | unknown

/-- The snapshot of a reply that has one. -/
def Reply.snapshot? : Reply α → Option (Snapshot α)
  | shown s => some s
  | exhausted | computed _ | unknown => none

/-- The reply to a direct call, and the run that the call has left, also where it failed. -/
def reply : EStateM.Result NodeId (Run α) Bool → Reply α × Run α
  | .ok changed r => (.computed changed, r)
  | .error _ r => (.unknown, r)

def ask (r : Run α) : Request → Reply α × Run α
  | .next =>
    match r.next? with
    | some (s, r') => (.shown s, r')
    | none => (.exhausted, r)
  | .computeIn n => reply (r.computeIn n)
  | .computeOut n => reply (r.computeOut n)

/-- The replies to some requests, one after the other, and the run after them. -/
def drive (r : Run α) : List Request → List (Reply α) × Run α
  | [] => ([], r)
  | c :: cs => (((r.ask c).2.drive cs).1.cons (r.ask c).1, ((r.ask c).2.drive cs).2)

def ins (r : Run α) : Observed α := r.stores.ins r.problem.direction

def outs (r : Run α) : Observed α := r.stores.outs r.problem.direction

/-- A direct call leaves a run that differs in its facts only, and these have what the half visit
preserves. -/
theorem exists_stores_reply {r : Run α} {P : Stores α → Prop} {half : Half} {n : NodeId}
    (h : (r.problem.visit half n).Preserves P fun _ => True) (hr : P r.stores) :
    ∃ st, (reply (r.compute half n)).2 = { r with stores := st } ∧ P st := by
  have hrun := h r.stores hr
  cases hv : (r.problem.visit half n).run r.stores with
  | ok changed st =>
    rw [hv] at hrun
    exact ⟨st, by rw [compute_of_ok hv]; rfl, hrun.2⟩
  | error m st =>
    rw [hv] at hrun
    exact ⟨st, by rw [compute_of_error hv]; rfl, hrun⟩

end Run

variable [SemilatticeSup β] [OrderBot β] {p : Problem α} {R : p.Reading β} {H : R.Height}
  {r r' : Run α} {n : NodeId} {half : Half} {changed : Bool} {st : Stores α}

/-- A half step that changes nothing leaves the potential; any other raises it. -/
theorem Problem.Reading.Height.potential_mono (H : R.Height) {x y : Family β}
    (hx : R.system.Sound x) (hy : R.system.Below y H.top) (hn : n ∈ p.graph.nodes)
    (hstep : R.system.HalfStep n x half y) : H.potential x ≤ H.potential y := by
  by_cases hne : y = x
  · rw [hne]
  · exact (H.potential_lt hx hy hn hstep hne).le

namespace Problem.Reading

/-- What a call makes of the facts: they rise within their frame. -/
structure Climbs (R : p.Reading β) (s s' : Stores α) : Prop where
  frame_eq : s'.frame = s.frame
  merged_le : (R.family s).merged ≤ (R.family s').merged
  flowed_le : (R.family s).flowed ≤ (R.family s').flowed

theorem Climbs.refl (R : p.Reading β) (s : Stores α) : R.Climbs s s := ⟨rfl, le_rfl, le_rfl⟩

theorem Climbs.reset {s s' : Stores α} (h : R.Climbs s s') : R.Climbs s s'.reset where
  frame_eq := s'.frame_reset.trans h.frame_eq
  merged_le := by rw [family_reset]; exact h.merged_le
  flowed_le := by rw [family_reset]; exact h.flowed_le

theorem Visit.climbs (hv : R.Visit r half n changed st) (h : R.Grounded r.stores)
    (hn : n ∈ p.graph.nodes) : R.Climbs r.stores st := by
  obtain ⟨hmerged, hflowed⟩ := h.sound.le_of_halfStep hn hv.halfStep
  obtain ⟨st', hst, hframe⟩ :=
    Run.exists_stores_reply (r.problem.preserves_frame r.stores.frame half n) rfl
  rw [hv.computed] at hst
  obtain rfl : st = st' := congrArg Run.stores hst
  exact ⟨hframe, hmerged, hflowed⟩

end Problem.Reading

namespace Run

/-- A run that is on course and has the frame that it had at the start. -/
structure Guarded (H : R.Height) (r : Run α) : Prop extends OnCourse H r where
  frame_eq : r.stores.frame = (Stores.initial p).frame

theorem guarded_start (H : R.Height) : Guarded H (Run.start p) where
  toOnCourse := onCourse_start H
  frame_eq := rfl

theorem OnCourse.climbs_next (h : OnCourse H r) (hg : p.graph.WellFormed) {s : Snapshot α}
    (hs : r.next? = some (s, r')) : R.Climbs r.stores r'.stores := by
  obtain ⟨phase, current, q, hq, hpause⟩ := h.advance hg hs
  have hclimbs : R.Climbs r.stores q.stores := by
    cases hq with
    | start => exact .refl R r.stores
    | merge hstage hv => exact hv.climbs h.grounded (h.visit_mem hstage)
    | transfer hstage hv => exact hv.climbs h.grounded (h.visit_mem hstage)
    | lap hstage hv hd => exact hv.climbs h.grounded (h.visit_mem hstage)
    | settle hstage hv hd => exact hv.climbs h.grounded (h.visit_mem hstage)
    | finish => exact .refl R r.stores
  obtain rfl := congrArg Prod.snd hpause
  exact hclimbs.reset

/-- A half visit out of order raises the facts, so it leaves room for as many sweeps as before. -/
theorem OnCourse.visited (h : OnCourse H r) (hn : n ∈ p.graph.nodes)
    (hv : R.Visit r half n changed st) : OnCourse H { r with stores := st } where
  problem_eq := h.problem_eq
  grounded := hv.grounded
  ahead_mem := h.ahead_mem
  effort := h.effort.trans (Nat.add_le_add_right (H.potential_mono h.grounded.sound
    (hv.grounded.below _ H.closed_top) hn hv.halfStep) _)

namespace Guarded

/-- The nodes that have facts are those of the graph. -/
theorem mem_keys_iff (h : Guarded H r) (half : Half) :
    n ∈ (r.stores.half half).keys ↔ n ∈ p.graph.nodes := by
  have hkeys : (r.stores.half half).keys = ((Stores.initial p).half half).keys := by
    obtain ⟨-, hkeys⟩ := Prod.mk.inj h.frame_eq
    obtain ⟨hmerged, hflowed⟩ := Prod.mk.inj hkeys
    cases half with
    | merge => exact hmerged
    | transfer => exact hflowed
  have htabulate : ∀ f : NodeId → α,
      n ∈ (Observed.ofTable (p.graph.tabulate f)).keys ↔ n ∈ p.graph.nodes := by
    intro f
    rw [Observed.ofTable, Table.keys_mapEntries, FlowGraph.mem_keys_tabulate]
  rw [hkeys]
  cases half with
  | merge => exact htabulate _
  | transfer => exact htabulate _

/-- Marks aside, the facts that describe the nodes are those of the problem. -/
theorem map_facts_sides (h : Guarded H r) :
    (r.stores.sides.map fun side => (side.1, side.2.facts)) = p.sides := by
  have hframe := (Prod.mk.inj h.frame_eq).1
  simpa [Stores.initial, Function.comp_def] using hframe

/-- A half visit to what is no node fails, and leaves the run as it was with all its marks. -/
theorem compute_of_notMem (h : Guarded H r) (hn : n ∉ p.graph.nodes) :
    r.compute half n = .error n r := by
  refine compute_of_error (Problem.run_visit_of_unknown ?_ ?_ half)
  · intro side hside
    have hmem : (side.1, side.2.facts) ∈ p.sides := by
      rw [← h.map_facts_sides]
      exact List.mem_map_of_mem hside
    refine Observed.peek?_eq_none fun hkey => hn ((R.described _ hmem n).mp ?_)
    rwa [Observed.facts, Table.keys_mapEntries]
  · exact Observed.peek?_eq_none (mt (h.mem_keys_iff .merge).mp hn)

/-- Every call keeps a run guarded, and lowers no fact. -/
theorem ask (h : Guarded H r) (hg : p.graph.WellFormed) (c : Request) :
    Guarded H (r.ask c).2 ∧ R.Climbs r.stores (r.ask c).2.stores := by
  have hdirect : ∀ half n, Guarded H (reply (r.compute half n)).2 ∧
      R.Climbs r.stores (reply (r.compute half n)).2.stores := by
    intro half n
    by_cases hn : n ∈ p.graph.nodes
    · obtain ⟨changed, st, hv⟩ := h.exists_visit hg hn half
      have hclimbs := hv.climbs h.grounded hn
      rw [hv.computed]
      exact ⟨⟨h.visited hn hv, hclimbs.frame_eq.trans h.frame_eq⟩, hclimbs⟩
    · rw [h.compute_of_notMem hn]
      exact ⟨h, .refl R r.stores⟩
  cases c with
  | next =>
    rw [Run.ask]
    cases hs : r.next? with
    | none => exact ⟨h, .refl R r.stores⟩
    | some e =>
      have hclimbs := h.climbs_next hg hs
      exact ⟨⟨h.toOnCourse.next hg hs, hclimbs.frame_eq.trans h.frame_eq⟩, hclimbs⟩
  | computeIn n => exact hdirect r.inHalf n
  | computeOut n => exact hdirect r.outHalf n

theorem drive (h : Guarded H r) (hg : p.graph.WellFormed) (cs : List Request) :
    Guarded H (r.drive cs).2 := by
  induction cs generalizing r with
  | nil => exact h
  | cons c cs ih => exact ih (h.ask hg c).1

end Guarded

/-! ## The end of a driven run -/

theorem stage_reply_compute (r : Run α) (half : Half) (n : NodeId) :
    (reply (r.compute half n)).2.stage = r.stage := by
  obtain ⟨st, hst, -⟩ :=
    exists_stores_reply (r.problem.preserves_frame r.stores.frame half n) rfl
  rw [hst]

theorem snapshot?_reply (result : EStateM.Result NodeId (Run α) Bool) :
    (reply result).1.snapshot? = none := by
  cases result <;> rfl

/-- A run that is done shows nothing any more, whatever is asked. -/
theorem drive_of_done (h : r.stage = .done) (cs : List Request) :
    (r.drive cs).2.stage = .done ∧ (r.drive cs).1.filterMap Reply.snapshot? = [] := by
  induction cs generalizing r with
  | nil => exact ⟨h, rfl⟩
  | cons c cs ih =>
    have hask : (r.ask c).2.stage = .done ∧ (r.ask c).1.snapshot? = none := by
      cases c with
      | next =>
        rw [ask, next?_of_done h]
        exact ⟨h, rfl⟩
      | computeIn n => exact ⟨(stage_reply_compute r _ n).trans h, snapshot?_reply _⟩
      | computeOut n => exact ⟨(stage_reply_compute r _ n).trans h, snapshot?_reply _⟩
    rw [drive, List.filterMap_cons_none hask.2]
    exact ih hask.1

/-- A call after which a run is done has shown the last snapshot. -/
theorem OnCourse.ask_done (h : OnCourse H r) (hg : p.graph.WellFormed) (hlive : r.stage ≠ .done)
    {c : Request} (hdone : (r.ask c).2.stage = .done) :
    ∃ s, (r.ask c).1.snapshot? = some s ∧ s.isFinal = true := by
  cases c with
  | next =>
    obtain ⟨s, r', hs⟩ := exists_next r hlive
    rw [ask, hs] at hdone ⊢
    obtain ⟨phase, current, q, hq, hpause⟩ := h.advance hg hs
    obtain ⟨rfl, rfl⟩ := Prod.mk.inj hpause
    obtain ⟨rfl, -⟩ := hq.ended hdone
    exact ⟨_, rfl, rfl⟩
  | computeIn n => exact absurd ((stage_reply_compute r _ n).symm.trans hdone) hlive
  | computeOut n => exact absurd ((stage_reply_compute r _ n).symm.trans hdone) hlive

/-- The snapshots that were shown and those that are left end in a final one. -/
theorem Guarded.drive_ends (h : Guarded H r) (hg : p.graph.WellFormed) (hlive : r.stage ≠ .done)
    (cs : List Request) : ∃ l, (r.drive cs).2.Yields l ∧ ∃ before s,
      (r.drive cs).1.filterMap Reply.snapshot? ++ l = before ++ [s] ∧ s.isFinal = true := by
  induction cs generalizing r with
  | nil =>
    obtain ⟨l, hl, -, hlast⟩ := h.exists_yields hg
    exact ⟨l, hl, hlast hlive⟩
  | cons c cs ih =>
    by_cases hdone : (r.ask c).2.stage = .done
    · obtain ⟨hstage, hnone⟩ := drive_of_done hdone cs
      obtain ⟨s, hs, hfinal⟩ := h.ask_done hg hlive hdone
      refine ⟨[], .done (next?_of_done hstage), [], s, ?_, hfinal⟩
      rw [Run.drive, List.filterMap_cons_some hs, hnone]
      rfl
    · obtain ⟨l, hl, before, s, heq, hfinal⟩ := ih (h.ask hg c).1 hdone
      refine ⟨l, hl, (r.ask c).1.snapshot?.toList ++ before, s, ?_, hfinal⟩
      rw [List.append_assoc, ← heq, Run.drive]
      cases hc : (r.ask c).1.snapshot? with
      | none => rw [List.filterMap_cons_none hc]; rfl
      | some t => rw [List.filterMap_cons_some hc]; rfl

/-! ## Direct calls -/

/-- A half visit to a node puts one fact in place of another, and says whether they differ. -/
theorem exists_replaced (ht : r.stores.Total r.problem.graph.nodes)
    (hg : r.problem.graph.WellFormed) (hn : n ∈ r.problem.graph.nodes) (half : Half) :
    ∃ old new st, r.compute half n =
        .ok (!r.problem.lattice.eq old new) { r with stores := st } ∧
      (r.stores.half half).peek? n = some old ∧
      (∀ m, (st.half half).peek? m = if m = n then some new else (r.stores.half half).peek? m) ∧
      ∀ m, (st.half half.other).peek? m = (r.stores.half half.other).peek? m := by
  cases half with
  | merge =>
    obtain ⟨ss, f, old, hss, -, hf, hold⟩ := ht.exists_merge hg hn
    exact ⟨old, _, _, compute_of_ok (Problem.run_merge hss hf hold), hold,
      Observed.peek?_put hold _ _, Observed.peek?_foldl_look r.stores.flowed ss⟩
  | transfer =>
    obtain ⟨value, hvalue⟩ := ht.merged n hn
    obtain ⟨old, hold⟩ := ht.flowed n hn
    exact ⟨old, _, _, compute_of_ok (Problem.run_flow (ht.exists_side hn) hvalue hold), hold,
      Observed.peek?_put hold _ _, Observed.peek?_look r.stores.merged n⟩

/-- A direct call for a node: it puts one fact in place of another, leaves all other facts and the
place where the run goes on, and says whether the two facts differ. -/
def Replaces (same : α → α → Prop) (r : Run α) (c : Request) (n : NodeId)
    (facts others : Run α → Observed α) : Prop :=
  ∃ changed old new r', r.ask c = (.computed changed, r') ∧ (changed = true ↔ ¬ same old new) ∧
    (facts r).peek? n = some old ∧
    (∀ m, (facts r').peek? m = if m = n then some new else (facts r).peek? m) ∧
    (∀ m, (others r').peek? m = (others r).peek? m) ∧
    r'.stage = r.stage ∧ r'.dirty = r.dirty ∧ r'.sweeps = r.sweeps

theorem ins_eq_half (r : Run α) : r.ins = r.stores.half r.inHalf := by
  rw [ins, inHalf]
  cases r.problem.direction <;> rfl

theorem outs_eq_half (r : Run α) : r.outs = r.stores.half r.outHalf := by
  rw [outs, outHalf]
  cases r.problem.direction <;> rfl

theorem other_inHalf (r : Run α) : r.inHalf.other = r.outHalf := by
  rw [inHalf, outHalf]
  cases r.problem.direction <;> rfl

theorem other_outHalf (r : Run α) : r.outHalf.other = r.inHalf := by
  rw [inHalf, outHalf]
  cases r.problem.direction <;> rfl

theorem OnCourse.family_eq (h : OnCourse H r) :
    R.family r.stores = .ofSides p.direction (R.reads r.ins) (R.reads r.outs) := by
  rw [ins, outs, h.problem_eq]
  exact R.family_eq_ofSides r.stores p.direction

theorem OnCourse.total (h : OnCourse H r) :
    r.ins.Total p.graph.nodes ∧ r.outs.Total p.graph.nodes :=
  h.grounded.total.ins_outs r.problem.direction

end Run

omit [OrderBot β] in
/-- Values of a direction are compared side by side. -/
theorem System.below_ofSides_iff {S : System β} {d : Direction} {ins outs ins' outs' : NodeId → β} :
    S.Below (.ofSides d ins outs) (.ofSides d ins' outs') ↔
      ∀ n ∈ S.nodes, ins n ≤ ins' n ∧ outs n ≤ outs' n := by
  cases d with
  | forward => exact Iff.rfl
  | backward => exact forall₂_congr fun n _ => and_comm

/-! ## Analyses that are driven in any order -/

namespace Analysis

/-- No fact of the first table is lost or above the one in the second. -/
def Rises (a : Analysis) (s s' : Observed a.Fact) : Prop :=
  ∀ n v, s.peek? n = some v → ∃ v', s'.peek? n = some v' ∧ a.Le v v'

/-- What holds of a run of an analysis after some calls, with the replies to them. -/
structure SafelyDriven (a : Analysis) (g : FlowGraph) (replies : List (Run.Reply a.Fact))
    (r : Run a.Fact) : Prop where
  /-- Whatever is asked next, facts only climb. -/
  climbs : ∀ c, a.Rises r.ins (r.ask c).2.ins ∧ a.Rises r.outs (r.ask c).2.outs
  /-- All nodes have both facts, and none exceeds the least solution. -/
  le_least : ∃ ins outs, LeastFacts g.nodes a.Le (a.Equations g) ins outs ∧
    ∀ n ∈ g.nodes, ∃ i o, r.ins.peek? n = some i ∧ r.outs.peek? n = some o ∧
      a.Le i (ins n) ∧ a.Le o (outs n)
  sides_eq : (r.stores.sides.map fun side => (side.1, side.2.facts)) = (a.problem g).sides
  computeIn : ∀ n ∈ g.nodes, r.Replaces a.Same (.computeIn n) n Run.ins Run.outs
  computeOut : ∀ n ∈ g.nodes, r.Replaces a.Same (.computeOut n) n Run.outs Run.ins
  unknown : ∀ n ∉ g.nodes,
    r.ask (.computeIn n) = (.unknown, r) ∧ r.ask (.computeOut n) = (.unknown, r)
  /-- Going on by itself, the run shows its last snapshot if it has not yet done so. -/
  ends : ∃ l, r.Yields l ∧ ∃ before s,
    replies.filterMap Run.Reply.snapshot? ++ l = before ++ [s] ∧ s.isFinal = true

variable {a : Analysis} {g : FlowGraph} {r : Run a.Fact}

theorem rises_of_reads_le {s s' : Observed a.Fact} (hs : ∀ n ∈ s.keys, n ∈ g.nodes)
    (hs' : s'.Total g.nodes) (h : (a.reading g).reads s ≤ (a.reading g).reads s') :
    a.Rises s s' := by
  intro n v hv
  obtain ⟨v', hv'⟩ := hs' n (hs n (Observed.mem_keys_of_peek? hv))
  have hle := h n
  rw [(a.reading g).reads_eq hv, (a.reading g).reads_eq hv'] at hle
  exact ⟨v', hv', a.read_le_iff.mp hle⟩

theorem rises_ask (h : r.Guarded (a.height g)) (hg : g.WellFormed) (c : Run.Request) :
    a.Rises r.ins (r.ask c).2.ins ∧ a.Rises r.outs (r.ask c).2.outs := by
  obtain ⟨h', hclimbs⟩ := h.ask (a.wellFormed_graph hg) c
  have hkeys : ∀ half, ∀ n ∈ (r.stores.half half).keys, n ∈ g.nodes := by
    intro half n hn
    have hn' := (h.mem_keys_iff half).mp hn
    rwa [graph_problem] at hn'
  have htotal := h'.total
  rw [graph_problem] at htotal
  have hmerged := hclimbs.merged_le
  have hflowed := hclimbs.flowed_le
  rw [h.family_eq, h'.family_eq] at hmerged hflowed
  have hle : (a.reading g).reads r.ins ≤ (a.reading g).reads (r.ask c).2.ins ∧
      (a.reading g).reads r.outs ≤ (a.reading g).reads (r.ask c).2.outs := by
    cases hd : (a.problem g).direction with
    | forward =>
      rw [hd] at hmerged hflowed
      exact ⟨hmerged, hflowed⟩
    | backward =>
      rw [hd] at hmerged hflowed
      exact ⟨hflowed, hmerged⟩
  exact ⟨rises_of_reads_le (by rw [r.ins_eq_half]; exact hkeys _) htotal.1 hle.1,
    rises_of_reads_le (by rw [r.outs_eq_half]; exact hkeys _) htotal.2 hle.2⟩

theorem exists_least (h : r.Guarded (a.height g)) (hg : g.WellFormed) :
    ∃ ins outs, LeastFacts g.nodes a.Le (a.Equations g) ins outs ∧
      ∀ n ∈ g.nodes, ∃ i o, r.ins.peek? n = some i ∧ r.outs.peek? n = some o ∧
        a.Le i (ins n) ∧ a.Le o (outs n) := by
  obtain ⟨-, -, ins, outs, -, hleast⟩ := a.ends_least hg
  refine ⟨ins, outs, hleast, fun n hn => ?_⟩
  have hbelow := h.grounded.below _ ((a.solves_iff hg).mpr hleast.solves).closed
  rw [h.family_eq, System.below_ofSides_iff] at hbelow
  have hn' : n ∈ (a.problem g).graph.nodes := by rwa [graph_problem]
  obtain ⟨i, hi⟩ := h.total.1 n hn'
  obtain ⟨o, ho⟩ := h.total.2 n hn'
  obtain ⟨hins, houts⟩ := hbelow n hn'
  rw [(a.reading g).reads_eq hi] at hins
  rw [(a.reading g).reads_eq ho] at houts
  exact ⟨i, o, hi, ho, a.read_le_iff.mp hins, a.read_le_iff.mp houts⟩

/-- What a direct call does to the facts of its half, and to those of the other one. -/
theorem exists_reply (h : r.Guarded (a.height g)) (hg : g.WellFormed) {n : NodeId}
    (hn : n ∈ g.nodes) (half : Half) :
    ∃ changed old new st,
      Run.reply (r.compute half n) = (.computed changed, { r with stores := st }) ∧
      (changed = true ↔ ¬ a.Same old new) ∧ (r.stores.half half).peek? n = some old ∧
      (∀ m, (st.half half).peek? m = if m = n then some new else (r.stores.half half).peek? m) ∧
      ∀ m, (st.half half.other).peek? m = (r.stores.half half.other).peek? m := by
  have hgraph : r.problem.graph = g := by rw [h.problem_eq, graph_problem]
  have ht : r.stores.Total g.nodes := by
    have ht := h.grounded.total
    rwa [graph_problem] at ht
  rw [← hgraph] at hg hn ht
  obtain ⟨old, new, st, hc, hold, hnew, hother⟩ := Run.exists_replaced ht hg hn half
  refine ⟨_, old, new, st, by rw [hc]; rfl, ?_, hold, hnew, hother⟩
  rw [Bool.not_eq_true', Bool.eq_false_iff, ne_eq, h.problem_eq, (a.reading g).eq_iff,
    a.read_eq_iff]

/-- A direct call is one for the facts of a half. -/
theorem replaces_of_eq_half (h : r.Guarded (a.height g)) (hg : g.WellFormed) {n : NodeId}
    (hn : n ∈ g.nodes) {half : Half} {c : Run.Request} {facts others : Run a.Fact → Observed a.Fact}
    (hask : r.ask c = Run.reply (r.compute half n))
    (hfacts : ∀ st, facts { r with stores := st } = st.half half)
    (hothers : ∀ st, others { r with stores := st } = st.half half.other) :
    r.Replaces a.Same c n facts others := by
  obtain ⟨changed, old, new, st, hc, hiff, hold, hnew, hother⟩ := exists_reply h hg hn half
  refine ⟨changed, old, new, _, hask.trans hc, hiff, ?_, ?_, ?_, rfl, rfl, rfl⟩
  · rw [hfacts r.stores]
    exact hold
  · rw [hfacts st, hfacts r.stores]
    exact hnew
  · rw [hothers st, hothers r.stores]
    exact hother

theorem replaces_computeIn (h : r.Guarded (a.height g)) (hg : g.WellFormed) {n : NodeId}
    (hn : n ∈ g.nodes) : r.Replaces a.Same (.computeIn n) n Run.ins Run.outs := by
  refine replaces_of_eq_half h hg hn rfl (fun st => Run.ins_eq_half _) fun st => ?_
  rw [r.other_inHalf]
  exact Run.outs_eq_half _

theorem replaces_computeOut (h : r.Guarded (a.height g)) (hg : g.WellFormed) {n : NodeId}
    (hn : n ∈ g.nodes) : r.Replaces a.Same (.computeOut n) n Run.outs Run.ins := by
  refine replaces_of_eq_half h hg hn rfl (fun st => Run.outs_eq_half _) fun st => ?_
  rw [r.other_outHalf]
  exact Run.ins_eq_half _

end Analysis

/-- However the calls for the next pause and for half visits are mixed, the run of an analysis is
safe. -/
theorem Program.Verified.safe_under_any_driving {p : Program} (hp : p.Verified) (kind : GraphKind)
    (a : Analysis) (calls : List Run.Request) :
    a.SafelyDriven (p.graph kind) ((Run.start (a.problem (p.graph kind))).drive calls).1
      ((Run.start (a.problem (p.graph kind))).drive calls).2 := by
  have hg : (p.graph kind).WellFormed := hp.wellFormed.graph kind
  have hg' := a.wellFormed_graph hg
  have hstart := Run.guarded_start (a.height (p.graph kind))
  have h := hstart.drive hg' calls
  have hunknown : ∀ half, ∀ n ∉ (p.graph kind).nodes,
      ((Run.start (a.problem (p.graph kind))).drive calls).2.compute half n = .error n
        ((Run.start (a.problem (p.graph kind))).drive calls).2 := by
    intro half n hn
    apply h.compute_of_notMem
    rwa [Analysis.graph_problem]
  exact {
    climbs := Analysis.rises_ask h hg
    le_least := Analysis.exists_least h hg
    sides_eq := h.map_facts_sides
    computeIn := fun n hn => Analysis.replaces_computeIn h hg hn
    computeOut := fun n hn => Analysis.replaces_computeOut h hg hn
    unknown := fun n hn => by
      rw [Run.ask, Run.computeIn, hunknown _ n hn, Run.ask, Run.computeOut, hunknown _ n hn]
      exact ⟨rfl, rfl⟩
    ends := hstart.drive_ends hg' (by simp [Run.start]) calls }

/-- A loop, with half visits before the first pause, out of order and to what is no node. -/
theorem Program.countdown_safe_under_driving :
    countdown.Verified ∧
    Analysis.constants.SafelyDriven (countdown.graph .blocks)
      ((Run.start (Constants.problem (countdown.graph .blocks))).drive
        [.computeOut 1, .next, .computeIn 1, .computeIn 7, .next, .computeOut 0]).1
      ((Run.start (Constants.problem (countdown.graph .blocks))).drive
        [.computeOut 1, .next, .computeIn 1, .computeIn 7, .next, .computeOut 0]).2 :=
  ⟨verified_countdown, verified_countdown.safe_under_any_driving .blocks .constants _⟩

end FlowTrace
