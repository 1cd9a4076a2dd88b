import FlowTrace.Proofs.Dataflow.Assigned
import FlowTrace.Proofs.Dataflow.Sweeps
import FlowTrace.Proofs.Graph.BackEdges

/-!
# How many sweeps a run needs

In a sweep a node sees the new values of the nodes that were visited before it, and the old values
of itself and of the others.  So a sweep can only change something if the sweep before it has
changed a value that is sent against the order of the visits.  A name in a set is sent once by each
node at most, since it never leaves the set again.  Hence there are no more sweeps, after the first
one and before the last one, than there are edges against the order; and these are the back edges.
-/

namespace FlowTrace

instance {β : Type} [PartialOrder β] : PartialOrder (Family β) :=
  .lift (fun x => (x.merged, x.flowed)) fun _ _ h =>
    Family.ext (congrArg Prod.fst h) (congrArg Prod.snd h)

/-! ## Sweeps over equations -/

namespace System

variable {β : Type} {w x y z : Family β} {order seen : List NodeId} {n s : NodeId} {k : Nat}

/-- The values that are sent while some nodes have been visited: those have their new values, and
the others still their old ones. -/
def sent (seen : List NodeId) (old new : Family β) (s : NodeId) : β :=
  if s ∈ seen then new.flowed s else old.flowed s

theorem sent_congr (h : ∀ s ∈ seen, z.flowed s = y.flowed s) : sent seen x z = sent seen x y := by
  funext s
  unfold sent
  split
  · next hs => exact h s hs
  · rfl

variable [PartialOrder β] {S : System β}

/-- A whole visit to a node. -/
structure Visited (S : System β) (n : NodeId) (old new : Family β) : Prop where
  merges : IsLUB (insert (old.merged n) (old.flowed '' S.sources n)) (new.merged n)
  flows : S.Flows new n
  merged_eq : ∀ m ≠ n, new.merged m = old.merged m
  flowed_eq : ∀ m ≠ n, new.flowed m = old.flowed m
  le : old ≤ new

/-- A visit consists of two halves. -/
theorem Sound.visited (hx : S.Sound x) (hn : n ∈ S.nodes) (hmerge : S.HalfStep n x .merge w)
    (hw : S.Sound w) (htransfer : S.HalfStep n w .transfer y) : S.Visited n x y := by
  have hle : x ≤ y := le_trans (hx.le_of_halfStep hn hmerge) (hw.le_of_halfStep hn htransfer)
  cases hmerge with
  | merge hv =>
    cases htransfer with
    | transfer hu =>
      refine ⟨by simpa using hv, ?_, fun m hm => ?_, fun m hm => ?_, hle⟩
      · simpa [Flows] using hu (hw.flowed_le n hn)
      · simp [Function.update_of_ne hm]
      · simp [Function.update_of_ne hm]

/-- One sweep over some nodes, from the old values to the new ones. -/
structure Swept (S : System β) (order : List NodeId) (old new : Family β) : Prop where
  merges : ∀ {seen n rest}, order = seen ++ n :: rest →
    IsLUB (insert (old.merged n) (sent seen old new '' S.sources n)) (new.merged n)
  flows : ∀ n ∈ order, S.Flows new n
  merged_eq : ∀ n ∉ order, new.merged n = old.merged n
  flowed_eq : ∀ n ∉ order, new.flowed n = old.flowed n
  le : old ≤ new

namespace Swept

theorem nil (S : System β) (x : Family β) : S.Swept [] x x where
  merges h := by simp at h
  flows := List.forall_mem_nil _
  merged_eq _ _ := rfl
  flowed_eq _ _ := rfl
  le := le_rfl

theorem sent_eq (h : S.Swept order x y) : sent order x y = y.flowed := by
  funext s
  unfold sent
  split
  · rfl
  · next hs => exact (h.flowed_eq s hs).symm

/-- One more node is visited. -/
theorem snoc (h : S.Swept seen x z) (hn : n ∉ seen) (hv : S.Visited n z y) :
    S.Swept (seen ++ [n]) x y := by
  have hne : ∀ m ∈ seen, m ≠ n := fun m hm e => hn (e ▸ hm)
  refine ⟨?_, ?_, ?_, ?_, h.le.trans hv.le⟩
  · intro before m rest hsplit
    rcases List.eq_nil_or_concat rest with rfl | ⟨rest, k, rfl⟩
    · obtain ⟨rfl, hm⟩ := List.append_inj' hsplit rfl
      obtain rfl := List.singleton_inj.mp hm
      have hsent : sent seen x y = z.flowed := by
        rw [sent_congr fun s hs => hv.flowed_eq s (hne s hs), h.sent_eq]
      rw [hsent, ← h.merged_eq n hn]
      exact hv.merges
    · rw [List.concat_eq_append, ← List.cons_append, ← List.append_assoc] at hsplit
      obtain ⟨hseen, -⟩ := List.append_inj' hsplit rfl
      have hbefore : ∀ s ∈ before, y.flowed s = z.flowed s := fun s hs =>
        hv.flowed_eq s (hne s (hseen ▸ List.mem_append_left _ hs))
      have hm : m ≠ n := hne m (hseen ▸ List.mem_append_right _ List.mem_cons_self)
      rw [sent_congr hbefore, hv.merged_eq m hm]
      exact h.merges hseen
  · intro m hm
    rcases List.mem_append.mp hm with hm | hm
    · rw [Flows, hv.flowed_eq m (hne m hm), hv.merged_eq m (hne m hm)]
      exact h.flows m hm
    · obtain rfl := List.mem_singleton.mp hm
      exact hv.flows
  · intro m hm
    rw [List.mem_append, List.mem_singleton, not_or] at hm
    rw [hv.merged_eq m hm.2, h.merged_eq m hm.1]
  · intro m hm
    rw [List.mem_append, List.mem_singleton, not_or] at hm
    rw [hv.flowed_eq m hm.2, h.flowed_eq m hm.1]

/-- A sweep changes nothing if no value that is sent against the order was changed by the sweep
before it. -/
theorem eq_of_steady (hxy : S.Swept order x y) (hyz : S.Swept order y z)
    (hsteady : ∀ seen n rest, order = seen ++ n :: rest → ∀ s ∈ S.sources n, s ∉ seen →
      x.flowed s = y.flowed s) : y = z := by
  -- by the nodes that the second sweep has visited: they all have kept their values
  have hkept : ∀ seen rest, order = seen ++ rest →
      ∀ m ∈ seen, y.merged m = z.merged m ∧ y.flowed m = z.flowed m := by
    intro seen
    induction seen using List.reverseRecOn with
    | nil => exact fun _ _ => List.forall_mem_nil _
    | append_singleton seen n ih =>
      intro rest hsplit
      have hsplit : order = seen ++ n :: rest := by simpa using hsplit
      have hseen := ih (n :: rest) hsplit
      have hsent : ∀ s ∈ S.sources n, sent seen y z s ≤ y.merged n := by
        intro s hs
        have heq : sent seen y z s = sent seen x y s := by
          unfold sent
          split
          · next hmem => exact (hseen s hmem).2.symm
          · next hmem => exact (hsteady seen n rest hsplit s hs hmem).symm
        rw [heq]
        exact (hxy.merges hsplit).1 (Set.mem_insert_of_mem _ ⟨s, hs, rfl⟩)
      have hmerged : y.merged n = z.merged n := by
        apply le_antisymm (hyz.le.1 n)
        apply (hyz.merges hsplit).2
        rintro _ (rfl | ⟨s, hs, rfl⟩)
        · exact le_rfl
        · exact hsent s hs
      have hmem : n ∈ order := hsplit ▸ List.mem_append_right _ List.mem_cons_self
      intro m hm
      rcases List.mem_append.mp hm with hm | hm
      · exact hseen m hm
      · obtain rfl := List.mem_singleton.mp hm
        exact ⟨hmerged, by rw [hxy.flows m hmem, hyz.flows m hmem, hmerged]⟩
  have hvisited := hkept order [] (List.append_nil _).symm
  apply Family.ext
  · funext m
    by_cases hm : m ∈ order
    · exact (hvisited m hm).1
    · exact (hyz.merged_eq m hm).symm
  · funext m
    by_cases hm : m ∈ order
    · exact (hvisited m hm).2
    · exact (hyz.flowed_eq m hm).symm

end Swept

/-- A node that sends to one that is visited no later than itself. -/
def Retreats (S : System β) (order : List NodeId) (s : NodeId) : Prop :=
  ∃ seen n rest, order = seen ++ n :: rest ∧ s ∈ S.sources n ∧ s ∉ seen

/-- What changes in a sweep was sent against the order, after the sweep before. -/
theorem Swept.exists_retreats (hxy : S.Swept order x y) (hyz : S.Swept order y z) (hne : y ≠ z) :
    ∃ s, S.Retreats order s ∧ x.flowed s ≠ y.flowed s := by
  by_contra hnone
  push Not at hnone
  refine hne (hxy.eq_of_steady hyz ?_)
  intro seen n rest hsplit s hs hseen
  exact hnone s ⟨seen, n, rest, hsplit, hs, hseen⟩

/-- The values after some sweeps, each of which has changed something. -/
inductive Laps (S : System β) (order : List NodeId) : Nat → Family β → Prop where
  | start (x : Family β) : Laps S order 0 x
  | sweep {k : Nat} {x y : Family β} (h : Laps S order k x) (hxy : S.Swept order x y)
      (hne : x ≠ y) : Laps S order (k + 1) y

/-- Without an edge against the order one sweep is enough. -/
theorem Laps.le_one (h : S.Laps order k x) (hnone : ∀ s, ¬ S.Retreats order s) : k ≤ 1 := by
  cases h with
  | start => exact Nat.zero_le 1
  | sweep h hyz hne =>
    cases h with
    | start => exact le_rfl
    | sweep h hxy _ =>
      obtain ⟨s, hs, -⟩ := hxy.exists_retreats hyz hne
      exact absurd hs (hnone s)

/-! ## One name at a time -/

section Abstraction

variable {γ : Type} [PartialOrder γ] {A : System γ} {l : β → γ} {u : γ → β}

theorem AbstractedBy.swept_map (h : S.AbstractedBy A l u) (hxy : S.Swept order x y) :
    A.Swept order (x.map l) (y.map l) where
  merges {seen n rest} hsplit := by
    have hsent : l ∘ sent seen x y = sent seen (x.map l) (y.map l) := by
      funext s
      exact apply_ite l _ _ _
    have hlub := h.connection.isLUB_l_image (hxy.merges hsplit)
    rw [Set.image_insert_eq, ← h.sources_eq, ← Set.image_comp, hsent] at hlub
    exact hlub
  flows n hn := by
    show l (y.flowed n) = A.effect n (l (y.merged n))
    rw [hxy.flows n hn, h.effect_eq]
  merged_eq n hn := congrArg l (hxy.merged_eq n hn)
  flowed_eq n hn := congrArg l (hxy.flowed_eq n hn)
  le := ⟨fun n => h.connection.monotone_l (hxy.le.1 n),
    fun n => h.connection.monotone_l (hxy.le.2 n)⟩

theorem AbstractedBy.retreats (h : S.AbstractedBy A l u) (hs : A.Retreats order s) :
    S.Retreats order s := by
  simpa only [Retreats, h.sources_eq] using hs

end Abstraction

/-- What holds or does not hold at a node is sent against the order once in each sweep, by another
node every time. -/
theorem Laps.exists_senders {A : System Prop} {l : β → Prop} {u : Prop → β}
    (hA : S.AbstractedBy A l u) (h : S.Laps order k x) (hxy : S.Swept order x y)
    (hne : x.map l ≠ y.map l) : ∃ senders : List NodeId, senders.length = k ∧ senders.Nodup ∧
      ∀ s ∈ senders, S.Retreats order s ∧ l (x.flowed s) := by
  induction h generalizing y with
  | start x => exact ⟨[], rfl, List.nodup_nil, List.forall_mem_nil _⟩
  | @sweep k w x h hwx _ ih =>
    obtain ⟨s, hs, hchange⟩ := (hA.swept_map hwx).exists_retreats (hA.swept_map hxy) hne
    have hrise : l (w.flowed s) → l (x.flowed s) := hA.connection.monotone_l (hwx.le.2 s)
    have hold : ¬ l (w.flowed s) := fun hl => hchange (propext ⟨hrise, fun _ => hl⟩)
    have hnew : l (x.flowed s) := by
      by_contra hl
      exact hchange (propext ⟨fun hw => absurd hw hold, fun hx => absurd hx hl⟩)
    obtain ⟨senders, hlength, hnodup, hsenders⟩ :=
      ih hwx fun heq => hchange (congrFun (congrArg Family.flowed heq) s)
    -- it has only now begun to send, so it is none of those that had done so before
    refine ⟨s :: senders, congrArg (· + 1) hlength,
      List.nodup_cons.mpr ⟨fun hmem => hold (hsenders s hmem).2, hnodup⟩, ?_⟩
    refine List.forall_mem_cons.mpr ⟨⟨hA.retreats hs, hnew⟩, fun t ht => ?_⟩
    exact ⟨(hsenders t ht).1, hA.connection.monotone_l (hwx.le.2 t) (hsenders t ht).2⟩

end System

namespace Problem.GainLoss

variable {p : Problem NameSet} {order : List NodeId} {k : Nat} {x : Family (Set String)}

/-- Whether a name is in the sets. -/
def has (G : p.GainLoss) (a : String) : System Prop where
  nodes := G.reading.system.nodes
  boundary n := a ∈ G.reading.system.boundary n
  sources := G.reading.system.sources
  effect n held := a ∈ (G.gain n).members ∨ (held ∧ a ∉ (G.loss n).members)

theorem abstractedBy_has (G : p.GainLoss) (a : String) :
    G.reading.system.AbstractedBy (G.has a) (a ∈ ·) fun held => {b | b = a → held} where
  connection s held := by
    constructor
    · rintro h b hb rfl
      exact h hb
    · exact fun h ha => h ha rfl
  nodes_eq := rfl
  sources_eq _ := rfl
  boundary_eq _ := rfl
  effect_eq _ _ := rfl
  effect_mono _ _ _ h := Or.imp_right (And.imp_left h)

/-- There are at most as many sweeps after the first one as there are nodes that send against the
order. -/
theorem laps_le (G : p.GainLoss) {senders : List NodeId}
    (hsenders : ∀ s, G.reading.system.Retreats order s → s ∈ senders)
    (h : G.reading.system.Laps order k x) : k ≤ senders.length + 1 := by
  cases h with
  | start => exact Nat.zero_le _
  | @sweep k w _ h hwx hne =>
    obtain ⟨a, ha⟩ : ∃ a, w.map (a ∈ ·) ≠ x.map (a ∈ ·) := by
      by_contra hsame
      push Not at hsame
      apply hne
      apply Family.ext
      · funext n
        ext a
        exact (congrFun (congrArg Family.merged (hsame a)) n).to_iff
      · funext n
        ext a
        exact (congrFun (congrArg Family.flowed (hsame a)) n).to_iff
    obtain ⟨sent, hlength, hnodup, hsent⟩ := h.exists_senders (G.abstractedBy_has a) hwx ha
    have hsub : sent ⊆ senders := fun s hs => hsenders s (hsent s hs).1
    rw [← hlength]
    exact Nat.add_le_add_right (hnodup.subperm hsub).length_le 1

end Problem.GainLoss

/-! ## Edges against the order -/

theorem notMem_of_split {l seen rest : List NodeId} {n : NodeId} (hl : l.Nodup)
    (hsplit : l = seen ++ n :: rest) : n ∉ seen := by
  rw [hsplit, List.nodup_middle, List.nodup_cons, List.mem_append, not_or] at hl
  exact hl.1.1

/-- What is not before a place in a list comes at that place or after it. -/
theorem idxOf_le_of_notMem {l seen rest : List NodeId} {n s : NodeId} (hl : l.Nodup)
    (hsplit : l = seen ++ n :: rest) (hs : s ∉ seen) : l.idxOf n ≤ l.idxOf s := by
  have hn := notMem_of_split hl hsplit
  rw [hsplit, List.idxOf_append_of_notMem hn, List.idxOf_append_of_notMem hs, List.idxOf_cons_self]
  exact Nat.add_le_add_left (Nat.zero_le _) _

theorem Problem.nodup_order {α : Type} (p : Problem α) (hg : p.graph.WellFormed) :
    p.order.Nodup := by
  unfold order
  cases p.direction with
  | forward => exact hg.nodes_nodup
  | backward => exact List.nodup_reverse.mpr hg.nodes_nodup

/-- The end of an edge that sends. -/
def Direction.sender : Direction → Edge → NodeId
  | forward, e => e.source
  | backward, e => e.target

/-- A node that sends against the order does so over a back edge. -/
theorem Problem.Reading.sender_mem {α β : Type} [SemilatticeSup β] [OrderBot β] {p : Problem α}
    {R : p.Reading β} {q : Program} {kind : GraphKind} (hq : q.WellFormed)
    (hgraph : p.graph = q.graph kind) {s : NodeId} (hs : R.system.Retreats p.order s) :
    s ∈ (q.graph kind).backEdges.map p.direction.sender := by
  obtain ⟨seen, n, rest, hsplit, hsends, hseen⟩ := hs
  have hnodup : (q.graph kind).nodes.Nodup := hq.graph_nodes_nodup
  have hsends : p.Sends s n := hsends
  unfold Problem.Sends at hsends
  unfold Problem.order at hsplit
  rw [hgraph] at hsends hsplit
  cases hdirection : p.direction with
  | forward =>
    simp only [hdirection] at hsends hsplit
    have hback := hq.mem_backEdges_of_idxOf_le hsends (idxOf_le_of_notMem hnodup hsplit hseen)
    exact List.mem_map.mpr ⟨_, hback, rfl⟩
  | backward =>
    simp only [hdirection] at hsends hsplit
    have hsplit : (q.graph kind).nodes = rest.reverse ++ n :: seen.reverse := by
      rw [← List.reverse_reverse (q.graph kind).nodes, hsplit]
      simp
    have hle : (q.graph kind).nodes.idxOf s ≤ (q.graph kind).nodes.idxOf n := by
      have hmem := ((hq.graph kind).mem_of_hasEdge hsends).2
      rw [hsplit, List.mem_append, List.mem_cons] at hmem
      rcases hmem with hmem | rfl | hmem
      · obtain ⟨before, after, hrest⟩ := List.append_of_mem hmem
        rw [hrest, List.append_assoc] at hsplit
        refine idxOf_le_of_notMem hnodup hsplit fun hn => ?_
        rw [hsplit] at hnodup
        exact (List.nodup_append.mp hnodup).2.2 n hn n (by simp) rfl
      · exact le_rfl
      · exact absurd (List.mem_reverse.mp hmem) hseen
    exact List.mem_map.mpr ⟨_, hq.mem_backEdges_of_idxOf_le hsends hle, rfl⟩

/-! ## The sweeps of a run -/

/-- The values in the middle of a sweep, when some nodes have been visited and this half of the next
visit is still to come. -/
inductive System.Midway {β : Type} [PartialOrder β] (S : System β) (seen : List NodeId)
    (n : NodeId) (old : Family β) : Half → Family β → Prop where
  | merge {x : Family β} (h : S.Swept seen old x) : Midway S seen n old .merge x
  | transfer {x y : Family β} (h : S.Swept seen old x) (hx : S.Sound x)
      (hy : S.HalfStep n x .merge y) : Midway S seen n old .transfer y

namespace Run

variable {α β : Type} [SemilatticeSup β] [OrderBot β] {p : Problem α} {R : p.Reading β}
  {H : R.Height} {r r' : Run α} {n : NodeId} {half : Half} {rest : List NodeId} {changed : Bool}
  {st : Stores α} {l : List (Snapshot α)}

/-- The sweeps that a run has completed have changed something, but for the last one. -/
def Lapping (R : p.Reading β) (r : Run α) : Prop :=
  let x := R.family r.stores
  match r.stage with
  | .start => r.sweeps = 0 ∧ r.dirty = false
  | .visit n half rest => ∃ old seen, R.system.Laps p.order r.sweeps old ∧
      p.order = seen ++ n :: rest ∧ R.system.Midway seen n old half x ∧ old ≤ x ∧
      (r.dirty = true ↔ old ≠ x)
  | .finish | .done => ∃ k, r.sweeps = k + 1 ∧ R.system.Laps p.order k x

theorem lapping_sweepStage (hp : r.problem = p) (hstage : r.stage = sweepStage r.problem.order)
    (hdirty : r.dirty = false) (h : R.system.Laps p.order r.sweeps (R.family r.stores)) :
    Lapping R r := by
  obtain ⟨n, rest, horder⟩ := p.order_ne_nil
  rw [hp, horder] at hstage
  simp only [Lapping, hstage, sweepStage]
  exact ⟨_, [], h, horder, .merge (.nil _ _), le_rfl, by simp [hdirty]⟩

/-- A half visit keeps track of whether the sweep has changed something. -/
theorem OnCourse.dirty_iff (h : OnCourse H r) (hstage : r.stage = .visit n half rest)
    (hv : R.Visit r half n changed st) {old : Family β} (hle : old ≤ R.family r.stores)
    (hdirty : r.dirty = true ↔ old ≠ R.family r.stores) :
    old ≤ R.family st ∧ ((r.dirty || changed) = true ↔ old ≠ R.family st) := by
  have hrise : R.family r.stores ≤ R.family st :=
    h.grounded.sound.le_of_halfStep (h.visit_mem hstage) hv.halfStep
  refine ⟨hle.trans hrise, ?_⟩
  cases hc : changed with
  | false =>
    rw [hv.same_iff.mp hc, Bool.or_false]
    exact hdirty
  | true =>
    have hne : R.family r.stores ≠ R.family st := fun heq => by
      rw [hv.same_iff.mpr heq.symm] at hc
      cases hc
    have hlt : old < R.family st := hle.trans_lt (hrise.lt_of_ne hne)
    simp [hlt.ne]

/-- The second half of a visit adds its node to those that were seen. -/
theorem Lapping.transfer (hr : Lapping R r) (h : OnCourse H r) (hg : p.graph.WellFormed)
    (hstage : r.stage = .visit n .transfer rest) (hv : R.Visit r .transfer n changed st) :
    ∃ old seen, R.system.Laps p.order r.sweeps old ∧ p.order = (seen ++ [n]) ++ rest ∧
      R.system.Swept (seen ++ [n]) old (R.family st) ∧ old ≤ R.family st ∧
      ((r.dirty || changed) = true ↔ old ≠ R.family st) := by
  simp only [Lapping, hstage] at hr
  obtain ⟨old, seen, hlaps, horder, hmidway, hle, hdirty⟩ := hr
  obtain ⟨hle', hdirty'⟩ := h.dirty_iff hstage hv hle hdirty
  have hseen : n ∉ seen := notMem_of_split (p.nodup_order hg) horder
  refine ⟨old, seen, hlaps, by rw [horder, List.append_assoc]; rfl, ?_, hle', hdirty'⟩
  cases hmidway with
  | transfer hswept hx hmerge =>
    exact hswept.snoc hseen
      (hx.visited (h.visit_mem hstage) hmerge h.grounded.sound hv.halfStep)

theorem Lapping.ofAdvance (hr : Lapping R r) (h : OnCourse H r) (hg : p.graph.WellFormed)
    {phase : Phase} {current : Option NodeId} {q : Run α} (hq : R.Advance r phase current q) :
    Lapping R q := by
  cases hq with
  | start hstage =>
    simp only [Lapping, hstage] at hr
    refine lapping_sweepStage h.problem_eq rfl hr.2 ?_
    rw [hr.1]
    exact .start _
  | @merge n rest changed st hstage hv =>
    simp only [Lapping, hstage] at hr
    obtain ⟨old, seen, hlaps, horder, hmidway, hle, hdirty⟩ := hr
    obtain ⟨hle, hdirty⟩ := h.dirty_iff hstage hv hle hdirty
    cases hmidway with
    | merge hswept =>
      exact ⟨old, seen, hlaps, horder, .transfer hswept h.grounded.sound hv.halfStep, hle, hdirty⟩
  | transfer hstage hv =>
    obtain ⟨old, seen, hlaps, horder, hswept, hle, hdirty⟩ := hr.transfer h hg hstage hv
    exact ⟨old, _, hlaps, horder, .merge hswept, hle, hdirty⟩
  | lap hstage hv hd =>
    obtain ⟨old, seen, hlaps, horder, hswept, -, hdirty⟩ := hr.transfer h hg hstage hv
    rw [List.append_nil] at horder
    rw [← horder] at hswept
    exact lapping_sweepStage h.problem_eq rfl rfl (hlaps.sweep hswept (hdirty.mp hd))
  | @settle n changed st hstage hv hd =>
    obtain ⟨old, seen, hlaps, -, -, -, hdirty⟩ := hr.transfer h hg hstage hv
    have hsame : old = R.family st := by
      by_contra hne
      rw [hdirty.mpr hne] at hd
      cases hd
    exact ⟨r.sweeps, rfl, hsame ▸ hlaps⟩
  | finish hstage =>
    simp only [Lapping, hstage] at hr
    exact hr

theorem Lapping.reset (hr : Lapping R r) : Lapping R { r with stores := r.stores.reset } := by
  unfold Lapping at hr ⊢
  simpa using hr

theorem Lapping.leads (hr : Lapping R r) (h : OnCourse H r) (hg : p.graph.WellFormed)
    (hl : Leads r l r') : Lapping R r' := by
  induction hl with
  | refl r => exact hr
  | next hs _ ih =>
    obtain ⟨phase, current, q, hq, hpause⟩ := h.advance hg hs
    refine ih ?_ (h.next hg hs)
    obtain rfl := congrArg Prod.snd hpause
    exact (hr.ofAdvance h hg hq).reset

end Run

/-- Driving the run of a problem comes to an end, after this many sweeps. -/
def Problem.EndsAfter {α : Type} (p : Problem α) (k : Nat) : Prop :=
  ∃ r, (Run.start p).Leads p.trace r ∧ r.isDone = true ∧ r.sweeps = k

theorem Run.Yields.exists_leads {α : Type} {r : Run α} {l : List (Snapshot α)} (h : r.Yields l) :
    ∃ r', r.Leads l r' ∧ r'.stage = .done := by
  induction h with
  | @done r h =>
    refine ⟨r, .refl r, ?_⟩
    by_contra hlive
    obtain ⟨s, r', hs⟩ := exists_next r hlive
    rw [h] at hs
    cases hs
  | next hs _ ih =>
    obtain ⟨r', hleads, hdone⟩ := ih
    exact ⟨r', .next hs hleads, hdone⟩

/-- Every run ends, and all its sweeps but the last one have changed something. -/
theorem Problem.Reading.exists_laps {α β : Type} [SemilatticeSup β] [OrderBot β] {p : Problem α}
    (R : p.Reading β) (H : R.Height) (hg : p.graph.WellFormed) :
    ∃ k x, p.EndsAfter (k + 1) ∧ R.system.Laps p.order k x := by
  obtain ⟨r, hleads, hdone⟩ := (R.yields_trace H hg).exists_leads
  have hstart : Run.Lapping R (Run.start p) := ⟨rfl, rfl⟩
  have hlapping := hstart.leads (Run.onCourse_start H) hg hleads
  simp only [Run.Lapping, hdone] at hlapping
  obtain ⟨k, hk, hlaps⟩ := hlapping
  exact ⟨k, _, ⟨r, hleads, by rw [Run.isDone, hdone]; rfl, hk⟩, hlaps⟩

/-- Facts that are sets of names need one sweep for each back edge, and two more. -/
theorem Problem.GainLoss.exists_endsAfter {p : Problem NameSet} (G : p.GainLoss)
    (H : G.reading.Height) {q : Program} {kind : GraphKind} (hq : q.WellFormed)
    (hgraph : p.graph = q.graph kind) :
    ∃ k ≤ (q.graph kind).backEdges.length + 2, p.EndsAfter k := by
  obtain ⟨k, x, hends, hlaps⟩ := G.reading.exists_laps H (hgraph ▸ hq.graph kind)
  have hle := G.laps_le (fun s hs => Problem.Reading.sender_mem hq hgraph hs) hlaps
  rw [List.length_map] at hle
  exact ⟨k + 1, Nat.add_le_add_right hle 1, hends⟩

/-- **Back edges bound the sweeps.**  Live variables and reaching definitions are found with one
sweep for each back edge, and two more; without back edges, constants are found with two sweeps. -/
theorem Program.Verified.sweeps_le_backEdges {p : Program} (hp : p.Verified) (kind : GraphKind) :
    let g := p.graph kind
    (∀ liveOut rule, ∃ k ≤ g.backEdges.length + 2,
      (Liveness.problem g liveOut rule).EndsAfter k) ∧
      (∃ k ≤ g.backEdges.length + 2, (Reaching.problem g).EndsAfter k) ∧
      (g.backEdges = [] → ∃ k ≤ 2, (Constants.problem g).EndsAfter k) := by
  intro g
  have hwf := hp.wellFormed
  refine ⟨fun liveOut rule => ?_, ?_, fun hnone => ?_⟩
  · exact (Liveness.gainLoss g liveOut rule).exists_endsAfter (Liveness.height g liveOut rule)
      hwf rfl
  · exact (Reaching.gainLoss g).exists_endsAfter (Reaching.height g) hwf rfl
  · obtain ⟨k, x, hends, hlaps⟩ :=
      (Constants.reading g).exists_laps (Constants.height g) (hwf.graph kind)
    have hle : k ≤ 1 := by
      refine hlaps.le_one fun s hs => ?_
      have hmem := Problem.Reading.sender_mem hwf rfl hs
      rw [hnone] at hmem
      cases hmem
    exact ⟨k + 1, Nat.add_le_add_right hle 1, hends⟩

/-- `a = 1; if a goto L; a = 2; L: b = a` -/
def Program.detourBody : List Instr :=
  [⟨1, none, .copy "a" (.lit 1)⟩,
   ⟨2, none, .branchIf "a" (some "L")⟩,
   ⟨3, none, .copy "a" (.lit 2)⟩,
   ⟨4, some "L", .copy "b" (.var "a")⟩]

def Program.detour : Program where
  code := ((Supply.countFrom 0).number detourBody).1
  labels := (enterLabels .empty ((Supply.countFrom 0).number detourBody).1).1
  supply := ((Supply.countFrom 0).number detourBody).2
  code_ne_nil := List.cons_ne_nil _ _

/-- A loop has one back edge, so its live variables are found with three sweeps; the constants of a
program that only jumps forward are found with two. -/
theorem Program.countdown_sweeps_le_backEdges :
    countdown.Verified ∧ (countdown.graph .single).backEdges.length = 1 ∧
      (∃ k ≤ 3, (Liveness.problem (countdown.graph .single) ∅ none).EndsAfter k) ∧
      detour.Verified ∧ (detour.graph .blocks).backEdges = [] ∧
      ∃ k ≤ 2, (Constants.problem (detour.graph .blocks)).EndsAfter k := by
  have hloop : (countdown.graph .single).backEdges.length = 1 := by decide +kernel
  have hlive := (verified_countdown.sweeps_le_backEdges .single).1 ∅ none
  rw [hloop] at hlive
  have hdetour : detour.Verified :=
    have h : ofInstrs detourBody (.countFrom 0) = .ok detour := rfl
    .ofInstrs (Supply.distinct_countFrom 0) h
  have hforward : (detour.graph .blocks).backEdges = [] := by decide +kernel
  exact ⟨verified_countdown, hloop, hlive, hdetour, hforward,
    (hdetour.sweeps_le_backEdges .blocks).2.2 hforward⟩

end FlowTrace
