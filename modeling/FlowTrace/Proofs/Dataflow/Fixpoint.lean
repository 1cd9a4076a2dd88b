import FlowTrace.Proofs.Dataflow.Rise

/-!
# Runs end in the least solution

A run goes on by half visits; `Advance` says once what each kind of pause does.  From it come the
two invariants of a run: it stays on course, which bounds the sweeps by the ranks of the facts, and
the equations of the nodes that a sweep has seen hold as long as the sweep has changed nothing.  So
every run ends, within the number of pauses that is computed for it, and its last snapshot shows the
least solution of the equations.
-/

namespace FlowTrace

variable {α β : Type}

/-! ## Driving a run -/

/-- Driving a run gives these snapshots one after the other, and then none. -/
inductive Run.Yields : Run α → List (Snapshot α) → Prop where
  | done {r : Run α} (h : r.next? = none) : Yields r []
  | next {r r' : Run α} {s : Snapshot α} {rest : List (Snapshot α)} (h : r.next? = some (s, r'))
      (hrest : Yields r' rest) : Yields r (s :: rest)

theorem Run.Yields.unique {r : Run α} {l l' : List (Snapshot α)} (h : r.Yields l)
    (h' : r.Yields l') : l = l' := by
  induction h generalizing l' with
  | done hn =>
    cases h' with
    | done => rfl
    | next hs => rw [hn] at hs; cases hs
  | next hs _ ih =>
    cases h' with
    | done hn => rw [hs] at hn; cases hn
    | next hs' hrest =>
      rw [hs] at hs'
      obtain ⟨rfl, rfl⟩ := Prod.mk.inj (Option.some.inj hs')
      rw [ih hrest]

/-- Driving the run of a problem comes to an end, and the last snapshot is this one. -/
def Problem.EndsIn (p : Problem α) (s : Snapshot α) : Prop :=
  ∃ before, (Run.start p).Yields (before ++ [s]) ∧ s.isFinal = true

theorem Problem.EndsIn.unique {p : Problem α} {s s' : Snapshot α} (h : p.EndsIn s)
    (h' : p.EndsIn s') : s = s' := by
  obtain ⟨before, hs, -⟩ := h
  obtain ⟨before', hs', -⟩ := h'
  exact (List.append_inj' (hs.unique hs') rfl).2 |> List.singleton_inj.mp

/-- The facts that a snapshot has for some nodes. -/
structure Snapshot.Shows (s : Snapshot α) (nodes : List NodeId) (ins outs : NodeId → α) : Prop where
  ins : ∀ n ∈ nodes, s.ins.peek? n = some (ins n)
  outs : ∀ n ∈ nodes, s.outs.peek? n = some (outs n)

/-- The run of a problem ends, and the last snapshot shows facts with a property. -/
def Problem.EndsWith (p : Problem α) (facts : (NodeId → α) → (NodeId → α) → Prop) : Prop :=
  ∃ s, p.EndsIn s ∧ ∃ ins outs, s.Shows p.graph.nodes ins outs ∧ facts ins outs

theorem Problem.EndsWith.imp {p : Problem α} {facts facts' : (NodeId → α) → (NodeId → α) → Prop}
    (h : p.EndsWith facts) (himp : ∀ ins outs, facts ins outs → facts' ins outs) :
    p.EndsWith facts' := by
  obtain ⟨s, hs, ins, outs, hshows, hfacts⟩ := h
  exact ⟨s, hs, ins, outs, hshows, himp ins outs hfacts⟩

/-- The nodes that a sweep has not done with. -/
def Stage.ahead : Stage → List NodeId
  | visit n _ rest => n :: rest
  | start | finish | done => []

/-- The last sweep, which raises nothing. -/
def Stage.lastSweep : Stage → Nat
  | start | visit _ _ _ => 0
  | finish | done => 1

@[simp] theorem Run.ahead_sweepStage (l : List NodeId) : (Run.sweepStage l).ahead = l := by
  cases l <;> rfl

theorem Run.sweepStage_ne_done (l : List NodeId) : sweepStage l ≠ .done := by
  cases l <;> simp [sweepStage]

theorem Problem.order_ne_nil (p : Problem α) : ∃ n rest, p.order = n :: rest := by
  apply List.exists_cons_of_ne_nil
  intro h
  have hlen := p.length_order
  rw [h] at hlen
  simp [FlowGraph.nodes] at hlen

variable [SemilatticeSup β] [OrderBot β] {p : Problem α} {R : p.Reading β} {H : R.Height}
  {r r' : Run α} {s : Snapshot α} {n : NodeId} {half : Half} {changed : Bool} {st : Stores α}

/-! ## What a pause does -/

namespace Problem.Reading

/-- A half visit that was made. -/
structure Visit (R : p.Reading β) (r : Run α) (half : Half) (n : NodeId) (changed : Bool)
    (st : Stores α) : Prop where
  computed : r.compute half n = .ok changed { r with stores := st }
  grounded : R.Grounded st
  halfStep : R.system.HalfStep n (R.family r.stores) half (R.family st)
  same_iff : changed = false ↔ R.family st = R.family r.stores

/-- The run after a half visit. -/
def after (r : Run α) (st : Stores α) (changed : Bool) (stage : Stage) : Run α :=
  { r with stores := st, dirty := r.dirty || changed, stage }

/-- The run after a sweep. -/
def swept (r : Run α) (st : Stores α) (stage : Stage) : Run α :=
  { r with stores := st, sweeps := r.sweeps + 1, dirty := false, stage }

/-- The pauses of a run: the phase, the node, and the run before its marks are taken away. -/
inductive Advance (R : p.Reading β) (r : Run α) : Phase → Option NodeId → Run α → Prop where
  | start (h : r.stage = .start) :
      Advance R r .initialized none { r with stage := Run.sweepStage r.problem.order }
  | merge {n : NodeId} {rest : List NodeId} {changed : Bool} {st : Stores α}
      (h : r.stage = .visit n .merge rest) (hv : R.Visit r .merge n changed st) :
      Advance R r (Half.merge.phase r.problem.direction) (some n)
        (after r st changed (.visit n .transfer rest))
  | transfer {n m : NodeId} {rest : List NodeId} {changed : Bool} {st : Stores α}
      (h : r.stage = .visit n .transfer (m :: rest)) (hv : R.Visit r .transfer n changed st) :
      Advance R r (Half.transfer.phase r.problem.direction) (some n)
        (after r st changed (.visit m .merge rest))
  /-- The last visit of a sweep that has changed something. -/
  | lap {n : NodeId} {changed : Bool} {st : Stores α} (h : r.stage = .visit n .transfer [])
      (hv : R.Visit r .transfer n changed st) (hd : (r.dirty || changed) = true) :
      Advance R r (Half.transfer.phase r.problem.direction) (some n)
        (swept r st (Run.sweepStage r.problem.order))
  /-- The last visit of a sweep that has changed nothing. -/
  | settle {n : NodeId} {changed : Bool} {st : Stores α} (h : r.stage = .visit n .transfer [])
      (hv : R.Visit r .transfer n changed st) (hd : (r.dirty || changed) = false) :
      Advance R r (Half.transfer.phase r.problem.direction) (some n) (swept r st .finish)
  | finish (h : r.stage = .finish) : Advance R r .ended none { r with stage := .done }

/-- A half visit that leaves a sweep unchanged. -/
theorem Visit.quiet (hv : R.Visit r half n changed st) (hd : (r.dirty || changed) = false) :
    r.dirty = false ∧ R.family st = R.family r.stores := by
  obtain ⟨hdirty, hchanged⟩ := Bool.or_eq_false_iff.mp hd
  exact ⟨hdirty, hv.same_iff.mp hchanged⟩

/-- Only the last pause leads to a run that is done. -/
theorem Advance.ended {phase : Phase} {current : Option NodeId} {q : Run α}
    (hq : R.Advance r phase current q) (hdone : q.stage = .done) :
    phase = .ended ∧ current = none := by
  cases hq with
  | start => exact absurd hdone (Run.sweepStage_ne_done _)
  | merge => cases hdone
  | transfer => cases hdone
  | lap => exact absurd hdone (Run.sweepStage_ne_done _)
  | settle => cases hdone
  | finish => exact ⟨rfl, rfl⟩

end Problem.Reading

namespace Run

/-- What every call on a run keeps. -/
structure OnCourse (H : R.Height) (r : Run α) : Prop where
  problem_eq : r.problem = p
  grounded : R.Grounded r.stores
  ahead_mem : ∀ m ∈ r.stage.ahead, m ∈ p.graph.nodes
  /-- All sweeps but the last have raised a fact. -/
  effort : r.sweeps + r.dirty.toNat ≤ H.potential (R.family r.stores) + r.stage.lastSweep

theorem onCourse_start (H : R.Height) : OnCourse H (Run.start p) where
  problem_eq := rfl
  grounded := R.grounded_initial
  ahead_mem m hm := by cases hm
  effort := Nat.zero_le _

namespace OnCourse

theorem exists_visit (h : OnCourse H r) (hg : p.graph.WellFormed) (hn : n ∈ p.graph.nodes)
    (half : Half) : ∃ changed st, R.Visit r half n changed st := by
  obtain ⟨changed, st, hc, hst, hstep, hsame⟩ := h.grounded.compute hg h.problem_eq hn half
  exact ⟨changed, st, hc, hst, hstep, hsame⟩

/-- A sweep visits nodes of the graph. -/
theorem visit_mem (h : OnCourse H r) {rest : List NodeId} (hstage : r.stage = .visit n half rest) :
    n ∈ p.graph.nodes :=
  h.ahead_mem n (by rw [hstage]; exact List.mem_cons_self)

/-- Every pause is one of those listed. -/
theorem advance (h : OnCourse H r) (hg : p.graph.WellFormed) (hs : r.next? = some (s, r')) :
    ∃ phase current q, R.Advance r phase current q ∧ q.pause phase current = (s, r') := by
  unfold next? at hs
  split at hs
  · next hstage => exact ⟨_, _, _, .start hstage, Option.some.inj hs⟩
  · next n rest hstage =>
    obtain ⟨changed, st, hv⟩ := h.exists_visit hg (h.visit_mem hstage) .merge
    simp only [visitHalf, hv.computed] at hs
    exact ⟨_, _, _, .merge hstage hv, Option.some.inj hs⟩
  · next n rest hstage =>
    obtain ⟨changed, st, hv⟩ := h.exists_visit hg (h.visit_mem hstage) .transfer
    simp only [visitHalf, hv.computed] at hs
    cases rest with
    | nil =>
      rcases Bool.eq_false_or_eq_true (r.dirty || changed) with hd | hd
      · simp only [endSweep, hd, if_true] at hs
        exact ⟨_, _, _, .lap hstage hv hd, Option.some.inj hs⟩
      · simp only [endSweep, hd, Bool.false_eq_true, if_false] at hs
        exact ⟨_, _, _, .settle hstage hv hd, Option.some.inj hs⟩
    | cons m rest => exact ⟨_, _, _, .transfer hstage hv, Option.some.inj hs⟩
  · next hstage => exact ⟨_, _, _, .finish hstage, Option.some.inj hs⟩
  · cases hs

/-- A half visit of a sweep pays for the change that it makes. -/
theorem effort_visit (h : OnCourse H r) {rest : List NodeId} (hstage : r.stage = .visit n half rest)
    (hv : R.Visit r half n changed st) :
    r.sweeps + (r.dirty || changed).toNat ≤ H.potential (R.family st) := by
  have heffort : r.sweeps + r.dirty.toNat ≤ H.potential (R.family r.stores) := by
    simpa [hstage, Stage.lastSweep] using h.effort
  cases hc : changed with
  | false =>
    rw [hv.same_iff.mp hc, Bool.or_false]
    exact heffort
  | true =>
    have hne : R.family st ≠ R.family r.stores := fun he => by
      rw [hv.same_iff.mpr he] at hc
      cases hc
    have hlt := H.potential_lt h.grounded.sound (hv.grounded.below _ H.closed_top)
      (h.visit_mem hstage) hv.halfStep hne
    simp only [Bool.or_true, Bool.toNat_true]
    omega

theorem ofAdvance (h : OnCourse H r) {phase : Phase} {current : Option NodeId} {q : Run α}
    (hq : R.Advance r phase current q) : OnCourse H q := by
  have hahead := h.ahead_mem
  have heffort := h.effort
  have horder : ∀ m ∈ r.problem.order, m ∈ p.graph.nodes := by
    rw [h.problem_eq]
    exact fun m hm => Problem.mem_order_iff.mp hm
  cases hq with
  | start hstage =>
    rw [hstage] at heffort
    refine ⟨h.problem_eq, h.grounded, ?_, heffort.trans (Nat.le_add_right _ _)⟩
    rw [ahead_sweepStage]
    exact horder
  | merge hstage hv =>
    rw [hstage] at hahead
    exact ⟨h.problem_eq, hv.grounded, hahead, h.effort_visit hstage hv⟩
  | transfer hstage hv =>
    rw [hstage] at hahead
    exact ⟨h.problem_eq, hv.grounded, fun m hm => hahead m (List.mem_cons_of_mem _ hm),
      h.effort_visit hstage hv⟩
  | lap hstage hv hd =>
    have hpaid := h.effort_visit hstage hv
    rw [hd] at hpaid
    refine ⟨h.problem_eq, hv.grounded, ?_, hpaid.trans (Nat.le_add_right _ _)⟩
    rw [Problem.Reading.swept, ahead_sweepStage]
    exact horder
  | settle hstage hv hd =>
    have hpaid := h.effort_visit hstage hv
    rw [hd] at hpaid
    exact ⟨h.problem_eq, hv.grounded, by simp [Problem.Reading.swept, Stage.ahead],
      Nat.add_le_add_right hpaid 1⟩
  | finish hstage =>
    rw [hstage] at heffort
    exact ⟨h.problem_eq, h.grounded, by simp [Stage.ahead], heffort⟩

theorem reset (h : OnCourse H r) : OnCourse H { r with stores := r.stores.reset } where
  problem_eq := h.problem_eq
  grounded := h.grounded.reset
  ahead_mem := h.ahead_mem
  effort := by
    rw [Problem.Reading.family_reset]
    exact h.effort

/-- A run stays on course. -/
theorem next (h : OnCourse H r) (hg : p.graph.WellFormed) (hs : r.next? = some (s, r')) :
    OnCourse H r' := by
  obtain ⟨phase, current, q, hq, hpause⟩ := h.advance hg hs
  obtain rfl := congrArg Prod.snd hpause
  exact (h.ofAdvance hq).reset

end OnCourse

/-! ## Every run ends -/

/-- A bound on the pauses that a run has left. -/
def left (r : Run α) : Nat :=
  let lap := 2 * r.problem.graph.nodes.length
  match r.stage with
  | .start => lap * r.problem.sweepBound + 2
  | .visit _ .merge rest => lap * (r.problem.sweepBound - (r.sweeps + 1)) + 2 * rest.length + 3
  | .visit _ .transfer rest => lap * (r.problem.sweepBound - (r.sweeps + 1)) + 2 * rest.length + 2
  | .finish => 1
  | .done => 0

/-- Starting a sweep uses one of those that are left. -/
theorem left_of_sweepStage {q : Run α} (hstage : q.stage = sweepStage q.problem.order)
    (h : q.sweeps + 1 ≤ q.problem.sweepBound) :
    q.left = 2 * q.problem.graph.nodes.length * (q.problem.sweepBound - q.sweeps) + 1 := by
  obtain ⟨n, rest, horder⟩ := q.problem.order_ne_nil
  have hlen : q.problem.graph.nodes.length = rest.length + 1 := by
    rw [← q.problem.length_order, horder, List.length_cons]
  obtain ⟨k, hk⟩ := Nat.exists_eq_add_of_le h
  have hsub : q.problem.sweepBound - (q.sweeps + 1) = k := by omega
  have hsub' : q.problem.sweepBound - q.sweeps = k + 1 := by omega
  simp only [left, hstage, horder, sweepStage, hsub, hsub', hlen]
  ring

theorem left_start_le (p : Problem α) : (Run.start p).left ≤ (Run.start p).pauseBound := by
  simp only [left, pauseBound, start, Nat.mul_add]
  omega

theorem OnCourse.sweeps_le (h : OnCourse H r) :
    r.sweeps + r.dirty.toNat ≤ 2 * p.graph.nodes.length * p.height + r.stage.lastSweep :=
  h.effort.trans (Nat.add_le_add_right (H.potential_le h.grounded) _)

/-- Every pause is one less. -/
theorem OnCourse.left_lt (h : OnCourse H r) (hg : p.graph.WellFormed)
    (hs : r.next? = some (s, r')) : r'.left < r.left := by
  obtain ⟨phase, current, q, hq, hpause⟩ := h.advance hg hs
  have hleft : r'.left = q.left := by
    obtain rfl := congrArg Prod.snd hpause
    rfl
  have hbound : r.problem.sweepBound = 1 + 2 * p.graph.nodes.length * p.height := by
    rw [h.problem_eq]; rfl
  rw [hleft]
  cases hq with
  | start hstage =>
    have hle : r.sweeps + 1 ≤ r.problem.sweepBound := by
      have hle := h.sweeps_le
      rw [hstage] at hle
      simp only [Stage.lastSweep] at hle
      omega
    have hq := left_of_sweepStage (q := { r with stage := sweepStage r.problem.order }) rfl hle
    have hmono := Nat.mul_le_mul_left (2 * r.problem.graph.nodes.length)
      (Nat.sub_le r.problem.sweepBound r.sweeps)
    rw [hq, left, hstage]
    simp only
    omega
  | merge hstage hv =>
    simp only [left, Problem.Reading.after, hstage]
    omega
  | transfer hstage hv =>
    simp only [left, Problem.Reading.after, hstage, List.length_cons]
    omega
  | @lap n changed st hstage hv hd =>
    -- This sweep has raised a fact and the facts are bounded, so there is room for another one.
    have hpaid := h.effort_visit hstage hv
    have hle : r.sweeps + 1 + 1 ≤ r.problem.sweepBound := by
      have hle := hpaid.trans (H.potential_le hv.grounded)
      rw [hd, Bool.toNat_true] at hle
      omega
    have hq := left_of_sweepStage (q := Problem.Reading.swept r st (sweepStage r.problem.order))
      rfl hle
    rw [hq, left, hstage]
    simp only [Problem.Reading.swept, List.length_nil]
    omega
  | settle hstage hv hd =>
    simp only [left, Problem.Reading.swept, hstage]
    omega
  | finish hstage => simp [left, hstage]

/-- A run that is not done has a next pause. -/
theorem exists_next (r : Run α) (h : r.stage ≠ .done) : ∃ s r', r.next? = some (s, r') := by
  unfold next?
  split
  · exact ⟨_, _, rfl⟩
  · exact ⟨_, _, rfl⟩
  · exact ⟨_, _, rfl⟩
  · exact ⟨_, _, rfl⟩
  · contradiction

theorem next?_of_done (h : r.stage = .done) : r.next? = none := by
  rw [next?, h]

/-- A run comes to its end by itself: the pauses that are left are at most those of the bound, and
the last one of a run that is not done is final. -/
theorem OnCourse.exists_yields (h : OnCourse H r) (hg : p.graph.WellFormed) :
    ∃ l, r.Yields l ∧ l.length ≤ r.left ∧
      (r.stage ≠ .done → ∃ before s, l = before ++ [s] ∧ s.isFinal = true) := by
  induction hleft : r.left using Nat.strong_induction_on generalizing r with
  | _ k ih =>
    by_cases hdone : r.stage = .done
    · exact ⟨[], .done (next?_of_done hdone), Nat.zero_le _, absurd hdone⟩
    · obtain ⟨s, r', hnext⟩ := exists_next r hdone
      have hlt := h.left_lt hg hnext
      obtain ⟨l, hyields, hlength, hlast⟩ := ih r'.left (hleft ▸ hlt) (h.next hg hnext) rfl
      refine ⟨s :: l, .next hnext hyields, by rw [List.length_cons]; omega, fun _ => ?_⟩
      by_cases hend : r'.stage = .done
      · obtain ⟨phase, current, q, hq, hpause⟩ := h.advance hg hnext
        obtain ⟨rfl, rfl⟩ := Prod.mk.inj hpause
        obtain ⟨rfl, -⟩ := hq.ended hend
        have hnil : l = [] := hyields.unique (.done (next?_of_done hend))
        exact ⟨[], _, by rw [hnil]; rfl, rfl⟩
      · obtain ⟨before, s', rfl, hfinal⟩ := hlast hend
        exact ⟨s :: before, s', rfl, hfinal⟩

/-! ## The equations of the nodes that were seen -/

/-- The equations hold for the nodes of a sweep that has changed nothing so far. -/
def Settled (R : p.Reading β) (r : Run α) : Prop :=
  let x := R.family r.stores
  match r.stage with
  | .start => True
  | .visit n half rest => ∃ seen, p.order = seen ++ n :: rest ∧ (r.dirty = false →
      (∀ m ∈ seen, R.system.Merges x m ∧ R.system.Flows x m) ∧
        (half = .transfer → R.system.Merges x n))
  | .finish | .done => R.system.Solves x

theorem settled_sweepStage (hp : r.problem = p) (hstage : r.stage = sweepStage r.problem.order) :
    Settled R r := by
  obtain ⟨n, rest, horder⟩ := p.order_ne_nil
  rw [hp, horder] at hstage
  simp only [Settled, hstage, sweepStage]
  exact ⟨[], horder, fun _ => ⟨by simp, by simp⟩⟩

/-- A visit that leaves a sweep unchanged adds its node to those that were seen. -/
theorem Settled.transfer (hs : Settled R r) (h : OnCourse H r) {rest : List NodeId}
    (hstage : r.stage = .visit n .transfer rest) (hv : R.Visit r .transfer n changed st) :
    ∃ seen, p.order = (seen ++ [n]) ++ rest ∧ ((r.dirty || changed) = false →
      ∀ m ∈ seen ++ [n], R.system.Merges (R.family st) m ∧ R.system.Flows (R.family st) m) := by
  have hn : n ∈ R.system.nodes := h.visit_mem hstage
  simp only [Settled, hstage] at hs
  obtain ⟨seen, horder, hseen⟩ := hs
  refine ⟨seen, by rw [horder, List.append_assoc]; rfl, fun hd => ?_⟩
  obtain ⟨hdirty, hsame⟩ := hv.quiet hd
  obtain ⟨hbefore, hmerges⟩ := hseen hdirty
  rw [hsame]
  intro m hm
  rcases List.mem_append.mp hm with hm | hm
  · exact hbefore m hm
  · obtain rfl := List.mem_singleton.mp hm
    exact ⟨hmerges trivial, h.grounded.sound.flows_of_halfStep hn hv.halfStep hsame⟩

theorem Settled.ofAdvance (hs : Settled R r) (h : OnCourse H r) {phase : Phase}
    {current : Option NodeId} {q : Run α} (hq : R.Advance r phase current q) : Settled R q := by
  cases hq with
  | start hstage => exact settled_sweepStage h.problem_eq rfl
  | @merge n rest changed st hstage hv =>
    have hn : n ∈ R.system.nodes := h.visit_mem hstage
    simp only [Settled, hstage] at hs
    obtain ⟨seen, horder, hseen⟩ := hs
    refine ⟨seen, horder, fun hd => ?_⟩
    obtain ⟨hdirty, hsame⟩ := hv.quiet hd
    rw [Problem.Reading.after, hsame]
    exact ⟨(hseen hdirty).1,
      fun _ => h.grounded.sound.merges_of_halfStep hn hv.halfStep hsame⟩
  | transfer hstage hv =>
    obtain ⟨seen, horder, hseen⟩ := hs.transfer h hstage hv
    exact ⟨_, horder, fun hd => ⟨hseen hd, by simp⟩⟩
  | lap hstage hv hd => exact settled_sweepStage h.problem_eq rfl
  | settle hstage hv hd =>
    obtain ⟨seen, horder, hseen⟩ := hs.transfer h hstage hv
    rw [List.append_nil] at horder
    exact fun m hm => hseen hd m (horder ▸ Problem.mem_order_iff.mpr hm)
  | finish hstage =>
    simp only [Settled, hstage] at hs
    exact hs

theorem Settled.reset (hs : Settled R r) : Settled R { r with stores := r.stores.reset } := by
  unfold Settled at hs ⊢
  simpa using hs

/-! ## The end -/

theorem collect_of_next?_eq_none (h : r.next? = none) (fuel : Nat) : collect fuel r = ([], r) := by
  cases fuel <;> simp [collect, h]

/-- Driving a run to its end gives one snapshot after the other; the last one shows values that
solve the equations. -/
theorem OnCourse.collect {fuel : Nat} (h : OnCourse H r) (hs : Settled R r)
    (hg : p.graph.WellFormed) (hlive : r.stage ≠ .done) (hfuel : r.left ≤ fuel) :
    ∃ before q, r.Yields (before ++ [(q.pause .ended none).1]) ∧
      (collect fuel r).1 = before ++ [(q.pause .ended none).1] ∧
      OnCourse H q ∧ R.system.Solves (R.family q.stores) := by
  -- The pauses that are left bound the fuel, so it lasts until the run is done.
  induction fuel generalizing r with
  | zero =>
    obtain ⟨s, r', hnext⟩ := exists_next r hlive
    exact absurd (h.left_lt hg hnext) (by omega)
  | succ fuel ih =>
    obtain ⟨s, r', hnext⟩ := exists_next r hlive
    have hlt := h.left_lt hg hnext
    obtain ⟨phase, current, q, hq, hpause⟩ := h.advance hg hnext
    have h' := h.next hg hnext
    have hs' := (hs.ofAdvance h hq).reset
    obtain ⟨rfl, rfl⟩ := Prod.mk.inj hpause
    simp only [Run.collect, hnext]
    by_cases hlast : q.stage = .done
    · obtain ⟨rfl, rfl⟩ := hq.ended hlast
      have hdone : { q with stores := q.stores.reset }.next? = none := by
        simp [next?, hlast]
      have hsolves := hs.ofAdvance h hq
      simp only [Settled, hlast] at hsolves
      refine ⟨[], q, .next hnext (.done hdone), ?_, h.ofAdvance hq, hsolves⟩
      rw [collect_of_next?_eq_none hdone]
      rfl
    · obtain ⟨before, q', hyields, hcollect, hq', hsolves⟩ := ih h' hs' hlast (by omega)
      exact ⟨_ :: before, q', .next hnext hyields, by rw [hcollect]; rfl, hq', hsolves⟩

end Run

/-- The values of a direction: going forward, `in` is merged and `out` has flowed. -/
def Family.ofSides (d : Direction) (ins outs : NodeId → β) : Family β :=
  match d with
  | .forward => ⟨ins, outs⟩
  | .backward => ⟨outs, ins⟩

theorem Stores.Total.ins_outs {nodes : List NodeId} (h : st.Total nodes) (d : Direction) :
    (st.ins d).Total nodes ∧ (st.outs d).Total nodes := by
  cases d with
  | forward => exact ⟨h.merged, h.flowed⟩
  | backward => exact ⟨h.flowed, h.merged⟩

theorem Problem.Reading.family_eq_ofSides (R : p.Reading β) (st : Stores α) (d : Direction) :
    R.family st = Family.ofSides d (R.reads (st.ins d)) (R.reads (st.outs d)) := by
  cases d <;> rfl

/-- The snapshots of a run are those within its bound, and the facts solve the equations after
them. -/
theorem Problem.Reading.exists_end (R : p.Reading β) (H : R.Height) (hg : p.graph.WellFormed) :
    ∃ before, ∃ q : Run α, (Run.start p).Yields (before ++ [(q.pause .ended none).1]) ∧
      p.trace = before ++ [(q.pause .ended none).1] ∧
      q.OnCourse H ∧ R.system.Solves (R.family q.stores) :=
  (Run.onCourse_start H).collect trivial hg (by simp [Run.start]) (Run.left_start_le p)

/-- The trace of a problem is all that its run gives. -/
theorem Problem.Reading.yields_trace (R : p.Reading β) (H : R.Height) (hg : p.graph.WellFormed) :
    (Run.start p).Yields p.trace := by
  obtain ⟨before, q, hyields, htrace, -, -⟩ := R.exists_end H hg
  rwa [htrace]

/-- Every run ends, and the last snapshot shows the least solution. -/
theorem Problem.Reading.ends (R : p.Reading β) (H : R.Height) (hg : p.graph.WellFormed) :
    p.EndsWith fun ins outs =>
      R.system.LeastSolution (.ofSides p.direction (R.read ∘ ins) (R.read ∘ outs)) := by
  obtain ⟨before, q, hyields, -, hq, hsolves⟩ := R.exists_end H hg
  refine ⟨(q.pause .ended none).1, ⟨before, hyields, rfl⟩, ?_⟩
  obtain ⟨ht, -, hbelow⟩ := hq.grounded
  let value (s : Observed α) (n : NodeId) : α := (s.peek? n).getD p.lattice.bottom
  have hvalue : ∀ {s : Observed α}, s.Total p.graph.nodes →
      ∀ n ∈ p.graph.nodes, s.peek? n = some (value s n) := by
    intro s hs n hn
    obtain ⟨v, hv⟩ := hs n hn
    simp [value, hv]
  have hread : ∀ s : Observed α, R.read ∘ value s = R.reads s := by
    intro s
    funext n
    simp only [value, Function.comp_apply, reads]
    cases s.peek? n with
    | none => exact R.read_bottom
    | some v => rfl
  refine ⟨value (q.stores.ins q.problem.direction), value (q.stores.outs q.problem.direction),
    ⟨hvalue (ht.ins_outs _).1, hvalue (ht.ins_outs _).2⟩, ?_⟩
  beta_reduce
  rw [hread, hread, hq.problem_eq, ← R.family_eq_ofSides]
  exact ⟨hsolves, hbelow⟩

end FlowTrace
