import FlowTrace.Proofs.Dataflow.SweepBound

/-!
# Constants climb

Constant propagation fills a table of slots: one for each side of each node and each variable that
the program assigns.  What is known in a slot goes from nothing to an unset value, to a constant and
to no constant; it never goes back, nor from one constant to another.  Each sweep but the last one
lifts a slot, and a slot can be lifted three times.  This bounds the sweeps whatever the program
computes, since the bound counts slots and not values.
-/

namespace FlowTrace

/-- A value of a node is higher in one family than in another. -/
def Family.RisesAt {β : Type} [PartialOrder β] (x y : Family β) (n : NodeId) : Prop :=
  x.merged n < y.merged n ∨ x.flowed n < y.flowed n

theorem Family.RisesAt.mono {β : Type} [PartialOrder β] {w x y z : Family β} {n : NodeId}
    (h : x.RisesAt y n) (hwx : w ≤ x) (hyz : y ≤ z) : w.RisesAt z n := by
  rcases h with h | h
  · exact .inl ((hwx.1 n).trans_lt (h.trans_le (hyz.1 n)))
  · exact .inr ((hwx.2 n).trans_lt (h.trans_le (hyz.2 n)))

/-- A half step that changes something raises a value of its node. -/
theorem System.Sound.risesAt {β : Type} [PartialOrder β] {S : System β} {x y : Family β}
    {n : NodeId} {half : Half} (hx : S.Sound x) (hn : n ∈ S.nodes) (h : S.HalfStep n x half y)
    (hne : y ≠ x) : x.RisesAt y n := by
  obtain ⟨hmerged, hflowed⟩ := hx.le_of_halfStep hn h
  cases h with
  | @merge v hv =>
    refine .inl (lt_of_le_of_ne (hmerged n) fun heq => hne ?_)
    have hv : x.merged n = v := by simpa using heq
    rw [← hv, Function.update_eq_self]
  | @transfer v hv =>
    refine .inr (lt_of_le_of_ne (hflowed n) fun heq => hne ?_)
    have hv : x.flowed n = v := by simpa using heq
    rw [← hv, Function.update_eq_self]

variable {α β : Type} [SemilatticeSup β] [OrderBot β] {p : Problem α} {R : p.Reading β}
  {H : R.Height} {r r' r'' : Run α} {s s₀ : Snapshot α} {l l' : List (Snapshot α)}

/-! ## What snapshots show -/

/-- What is read of the facts that a snapshot shows. -/
def Problem.Reading.shown (R : p.Reading β) (s : Snapshot α) : Family β :=
  .ofSides p.direction (R.reads s.ins) (R.reads s.outs)

namespace Run

theorem OnCourse.shown_eq (h : OnCourse H r) (hg : p.graph.WellFormed)
    (hs : r.next? = some (s, r')) : R.shown s = R.family r'.stores := by
  obtain ⟨phase, current, q, hq, hpause⟩ := h.advance hg hs
  obtain rfl := congrArg Prod.fst hpause
  obtain rfl := congrArg Prod.snd hpause
  have hdirection : q.problem.direction = p.direction :=
    congrArg Problem.direction (h.ofAdvance hq).problem_eq
  calc R.shown (q.pause phase current).1
    _ = .ofSides p.direction (R.reads (q.stores.ins q.problem.direction))
          (R.reads (q.stores.outs q.problem.direction)) := rfl
    _ = R.family q.stores := by rw [hdirection, ← R.family_eq_ofSides]
    _ = R.family (q.pause phase current).2.stores := (R.family_reset _).symm

/-- A pause that computes nothing shows no change. -/
theorem Paused.not_hasChange (h : Paused H r) {q : Run α} (hq : q.stores = r.stores)
    (phase : Phase) (current : Option NodeId) : ¬ (q.pause phase current).1.HasChange := by
  obtain ⟨st, hst⟩ := h.unmarked
  have hreset : ∀ t : Observed α, ¬ t.reset.HasChange :=
    fun t => (Observed.marks_reset R.eq_refl t).not_hasChange
  rw [hasChange_pause_iff, hq, hst, not_or, not_or]
  exact ⟨not_exists_hasChange hreset _, hreset _, hreset _⟩

/-- Facts rise from one pause to the next, and one does so strictly if a change is shown. -/
theorem Paused.rises (h : Paused H r) (hg : p.graph.WellFormed) (hs : r.next? = some (s, r')) :
    R.family r.stores ≤ R.family r'.stores ∧ (s.HasChange →
      ∃ n ∈ p.graph.nodes, (R.family r.stores).RisesAt (R.family r'.stores) n) := by
  have hclimbs := h.climbs_next hg hs
  refine ⟨⟨hclimbs.merged_le, hclimbs.flowed_le⟩, fun hchange => ?_⟩
  obtain ⟨phase, current, q, hq, hpause⟩ := h.advance hg hs
  obtain rfl := congrArg Prod.fst hpause
  obtain rfl := congrArg Prod.snd hpause
  have hvisit : ∀ {n half rest changed st}, r.stage = .visit n half rest →
      R.Visit r half n changed st → q.stores = st →
      ∃ n ∈ p.graph.nodes, (R.family r.stores).RisesAt (R.family q.stores) n := by
    intro n half rest changed st hstage hv hst
    have hn := h.visit_mem hstage
    subst hst
    refine ⟨n, hn, h.grounded.sound.risesAt hn hv.halfStep fun heq => ?_⟩
    have hchanged := (h.hasChange_iff hg hn hv rfl phase current).mp hchange
    rw [hv.same_iff.mpr heq] at hchanged
    cases hchanged
  have hfamily : R.family (q.pause phase current).2.stores = R.family q.stores := R.family_reset _
  rw [hfamily]
  cases hq with
  | start => exact absurd hchange (h.not_hasChange rfl _ _)
  | merge hstage hv => exact hvisit hstage hv rfl
  | transfer hstage hv => exact hvisit hstage hv rfl
  | lap hstage hv => exact hvisit hstage hv rfl
  | settle hstage hv => exact hvisit hstage hv rfl
  | finish => exact absurd hchange (h.not_hasChange rfl _ _)

theorem Leads.of_append (h : Leads r (l ++ l') r'') : ∃ r', Leads r l r' ∧ Leads r' l' r'' := by
  induction l generalizing r with
  | nil => exact ⟨r, .refl r, h⟩
  | cons s l ih =>
    cases h with
    | next hs hrest =>
      obtain ⟨r', hl, hl'⟩ := ih hrest
      exact ⟨r', .next hs hl, hl'⟩

/-- What a part of a run does to the facts. -/
theorem Paused.leads (h : Paused H r) (hg : p.graph.WellFormed) (hl : Leads r l r') :
    Paused H r' ∧ R.family r.stores ≤ R.family r'.stores ∧ ((∃ s ∈ l, s.HasChange) →
      ∃ n ∈ p.graph.nodes, (R.family r.stores).RisesAt (R.family r'.stores) n) := by
  induction hl with
  | refl r => exact ⟨h, le_rfl, by simp⟩
  | next hs _ ih =>
    obtain ⟨hle, hchange⟩ := h.rises hg hs
    obtain ⟨h', hle', hchange'⟩ := ih (h.next hg hs)
    refine ⟨h', hle.trans hle', ?_⟩
    rintro ⟨t, ht, htchange⟩
    rcases List.mem_cons.mp ht with rfl | ht
    · obtain ⟨n, hn, hrises⟩ := hchange htchange
      exact ⟨n, hn, hrises.mono le_rfl hle'⟩
    · obtain ⟨n, hn, hrises⟩ := hchange' ⟨t, ht, htchange⟩
      exact ⟨n, hn, hrises.mono hle le_rfl⟩

/-- The facts that snapshots show rise from one to the next. -/
theorem Paused.isChain_shown (h : Paused H r) (hg : p.graph.WellFormed) (hl : Leads r l r')
    (hs₀ : R.shown s₀ = R.family r.stores) :
    (s₀ :: l).IsChain (fun s s' => R.shown s ≤ R.shown s') ∧
      R.shown ((s₀ :: l).getLast (List.cons_ne_nil _ _)) = R.family r'.stores := by
  induction hl generalizing s₀ with
  | refl r => exact ⟨.singleton _, hs₀⟩
  | next hs _ ih =>
    obtain ⟨hchain, hlast⟩ := ih (h.next hg hs) (h.shown_eq hg hs)
    rw [List.isChain_cons_cons, List.getLast_cons_cons, hs₀, h.shown_eq hg hs]
    exact ⟨⟨(h.rises hg hs).1, hchain⟩, hlast⟩

/-- Every snapshot shows facts that a run on course has. -/
theorem OnCourse.exists_shown (h : OnCourse H r) (hg : p.graph.WellFormed) (hl : Leads r l r')
    (hs : s ∈ l) : ∃ q, OnCourse H q ∧ R.shown s = R.family q.stores := by
  induction hl with
  | refl r => cases hs
  | @next r r' r'' t rest hnext _ ih =>
    rcases List.mem_cons.mp hs with rfl | hs
    · exact ⟨r', h.next hg hnext, h.shown_eq hg hnext⟩
    · exact ih (h.next hg hnext) hs

end Run

/-! ## Slots -/

/-- The variables that a program assigns. -/
def Program.assignedNames (p : Program) : NameSet := .ofList (p.code.filterMap (·.2.defines?))

namespace Constants

/-- The facts of a node on one side of it. -/
inductive Side where
  | ins
  | outs

/-- A place for what is known of a variable on one side of a node. -/
structure Slot where
  side : Side
  node : NodeId
  name : String

/-- What a snapshot has in a slot; `⊥` if the variable is missing there. -/
def Slot.value (c : Slot) (s : Snapshot ConstMap) : WithBot Const :=
  let facts := match c.side with
    | .ins => s.ins
    | .outs => s.outs
  (facts.peek? c.node).elim ⊥ fun m => m.reading c.name

/-- The slots of some nodes and variables. -/
def slots (nodes : List NodeId) (names : NameSet) : List Slot :=
  [Side.ins, Side.outs].flatMap fun side => nodes.flatMap fun n =>
    names.toList.map fun x => ⟨side, n, x⟩

theorem mem_slots {nodes : List NodeId} {names : NameSet} {c : Slot} :
    c ∈ slots nodes names ↔ c.node ∈ nodes ∧ c.name ∈ names := by
  obtain ⟨side, n, x⟩ := c
  cases side <;> simp [slots]

theorem length_slots (nodes : List NodeId) (names : NameSet) :
    (slots nodes names).length = 2 * nodes.length * names.size := by
  simp [slots, List.length_flatMap, Nat.two_mul, Nat.add_mul]

/-- What a family knows in a slot. -/
def Slot.known (c : Slot) (x : Family Knowledge) : WithBot Const :=
  match c.side with
  | .ins => x.merged c.node c.name
  | .outs => x.flowed c.node c.name

theorem Slot.value_eq (c : Slot) (g : FlowGraph) (s : Snapshot ConstMap) :
    c.value s = c.known ((reading g).shown s) := by
  have helim : ∀ (o : Option ConstMap) (x : String),
      o.elim ⊥ (fun m => m.reading x) = (o.elim ⊥ ConstMap.reading : Knowledge) x := by
    intro o x
    cases o <;> rfl
  obtain ⟨side, n, x⟩ := c
  cases side with
  | ins => exact helim (s.ins.peek? n) x
  | outs => exact helim (s.outs.peek? n) x

theorem Slot.known_mono (c : Slot) : Monotone c.known := by
  intro x y h
  obtain ⟨side, n, name⟩ := c
  cases side with
  | ins => exact h.1 n name
  | outs => exact h.2 n name

/-- Where a family rises, it does so in a slot. -/
theorem exists_slot_of_risesAt {x y : Family Knowledge} {n : NodeId} (h : x.RisesAt y n) :
    ∃ c : Slot, c.node = n ∧ c.known x < c.known y := by
  rcases h with h | h
  · obtain ⟨-, name, hlt⟩ := Pi.lt_def.mp h
    exact ⟨⟨.ins, n, name⟩, rfl, hlt⟩
  · obtain ⟨-, name, hlt⟩ := Pi.lt_def.mp h
    exact ⟨⟨.outs, n, name⟩, rfl, hlt⟩

theorem targets_eq {p : Program} (hp : p.WellFormed) (kind : GraphKind) :
    targets (p.graph kind) = p.assignedNames := by
  rw [NameSet.ext_iff_mem]
  intro x
  rw [Program.assignedNames, NameSet.mem_ofList, List.mem_filterMap]
  constructor
  · intro hx
    rw [targets, NameSet.mem_ofList, List.mem_filterMap] at hx
    obtain ⟨i, hi, hx⟩ := hx
    obtain ⟨defs, hdefs, hi⟩ := List.mem_flatten.mp hi
    obtain ⟨n, hn⟩ := Table.mem_values_iff.mp hdefs
    rw [definitions, FlowGraph.get?_tabulate, Option.ite_none_right_eq_some,
      Option.some.injEq] at hn
    obtain ⟨-, rfl⟩ := hn
    have hwritten : x ∈ p.written ((p.graph kind).coveredBy n) := by
      rw [← defines_definitionsOf]
      exact ⟨i, hi, hx⟩
    obtain ⟨j, -, instr, hinstr, hx⟩ := hwritten
    exact ⟨(j, instr), hp.instr?_eq_some_iff.mp hinstr, hx⟩
  · rintro ⟨⟨i, instr⟩, he, hx⟩
    have hi : i ∈ p.ids := List.mem_map.mpr ⟨(i, instr), he, rfl⟩
    rw [← hp.flatMap_coveredBy kind, List.mem_flatMap] at hi
    obtain ⟨n, hn, hi⟩ := hi
    have hwritten : x ∈ p.written ((p.graph kind).coveredBy n) :=
      ⟨i, hi, instr, hp.instr?_eq_some_iff.mpr he, hx⟩
    rw [← defines_definitionsOf] at hwritten
    obtain ⟨j, hj, hx⟩ := hwritten
    exact mem_targets (FlowGraph.data_mem hn) hj hx

/-- Nothing is ever known in a slot of a variable that is not assigned. -/
theorem known_eq_bot {p : Program} (hp : p.WellFormed) (kind : GraphKind) {q : Run ConstMap}
    (hq : q.OnCourse (height (p.graph kind))) {c : Slot} (hnode : c.node ∈ (p.graph kind).nodes)
    (hname : c.name ∉ p.assignedNames) :
    c.known ((reading (p.graph kind)).family q.stores) = ⊥ := by
  obtain ⟨hmerged, hflowed⟩ := hq.grounded.below _ (height (p.graph kind)).closed_top c.node hnode
  rw [Problem.Reading.Height.top_merged] at hmerged
  rw [Problem.Reading.Height.top_flowed] at hflowed
  have hceiling : (height (p.graph kind)).ceiling c.name = ⊥ := by
    show ceiling (p.graph kind) c.name = ⊥
    rw [ceiling, targets_eq hp, if_neg hname]
  rw [← le_bot_iff, ← hceiling]
  obtain ⟨side, n, x⟩ := c
  cases side with
  | ins => exact hmerged x
  | outs => exact hflowed x

/-- How slots are filled in the sweeps that come before the last one. -/
structure Ascends (p : Program) (g : FlowGraph) (first : Snapshot ConstMap)
    (earlier : List (List (Snapshot ConstMap))) : Prop where
  /-- No slot goes down, or from one constant to another. -/
  rises : (problem g).trace.IsChain fun s s' => ∀ c : Slot, c.value s ≤ c.value s'
  /-- There is nothing in other slots. -/
  missing : ∀ s ∈ (problem g).trace, ∀ c : Slot, c.node ∈ g.nodes → c.name ∉ p.assignedNames →
    c.value s = ⊥
  /-- Each of the sweeps lifts a slot. -/
  lifts : ∀ {before sweep after}, earlier = before ++ sweep :: after →
    ∃ c ∈ slots g.nodes p.assignedNames,
      c.value ((first :: before.flatten).getLast (List.cons_ne_nil _ _)) <
        c.value ((first :: (before ++ [sweep]).flatten).getLast (List.cons_ne_nil _ _))

variable {p : Program} {kind : GraphKind} {first final : Snapshot ConstMap}
  {earlier : List (List (Snapshot ConstMap))} {last : List (Snapshot ConstMap)}
  {r r' : Run ConstMap}

/-- A part of a run in which a change is shown lifts a slot. -/
theorem exists_slot_of_leads (hp : p.WellFormed) (h : r.Paused (height (p.graph kind)))
    {l : List (Snapshot ConstMap)} (hl : r.Leads l r') (hchange : ∃ s ∈ l, s.HasChange) :
    ∃ c ∈ slots (p.graph kind).nodes p.assignedNames,
      c.known ((reading (p.graph kind)).family r.stores) <
        c.known ((reading (p.graph kind)).family r'.stores) := by
  obtain ⟨h', -, hrises⟩ := h.leads (hp.graph kind) hl
  obtain ⟨n, hn, hrisesAt⟩ := hrises hchange
  obtain ⟨c, rfl, hlt⟩ := exists_slot_of_risesAt hrisesAt
  refine ⟨c, mem_slots.mpr ⟨hn, ?_⟩, hlt⟩
  by_contra hname
  rw [known_eq_bot hp kind h'.toOnCourse hn hname] at hlt
  exact not_lt_bot hlt

theorem ascends (hp : p.WellFormed)
    (hs : (Run.start (problem (p.graph kind))).next? = some (first, r))
    (h : Run.Finishes (problem (p.graph kind)) r earlier last final r')
    (htrace : (problem (p.graph kind)).trace = first :: ((earlier ++ [last]).flatten ++ [final])) :
    Ascends p (p.graph kind) first earlier := by
  have hg := hp.graph kind
  have hstart := Run.paused_start (height (p.graph kind))
  have hpaused := hstart.next hg hs
  have hshown := hstart.shown_eq hg hs
  refine ⟨?_, ?_, ?_⟩
  · rw [htrace]
    refine (hpaused.isChain_shown hg h.leads hshown).1.imp fun s s' hle c => ?_
    rw [c.value_eq (p.graph kind), c.value_eq (p.graph kind)]
    exact c.known_mono hle
  · intro s hmem c hnode hname
    rw [htrace] at hmem
    obtain ⟨q, hq, heq⟩ := hstart.toOnCourse.exists_shown hg (.next hs h.leads) hmem
    rw [c.value_eq (p.graph kind), heq]
    exact known_eq_bot hp kind hq hnode hname
  · intro before sweep after hearlier
    have hleads := h.leads
    simp only [hearlier, List.flatten_append, List.flatten_cons, List.append_assoc,
      List.cons_append] at hleads
    obtain ⟨r₁, hbefore, hrest⟩ := hleads.of_append
    obtain ⟨r₂, hsweep, -⟩ := hrest.of_append
    have hchange := h.change sweep (hearlier ▸ List.mem_append_right _ List.mem_cons_self)
    obtain ⟨c, hc, hlt⟩ :=
      exists_slot_of_leads hp (hpaused.leads hg hbefore).1 hsweep hchange
    refine ⟨c, hc, ?_⟩
    have hflatten : (before ++ [sweep]).flatten = before.flatten ++ sweep := by simp
    simp only [hflatten]
    rw [c.value_eq (p.graph kind), c.value_eq (p.graph kind),
      (hpaused.isChain_shown hg hbefore hshown).2,
      (hpaused.isChain_shown hg (hbefore.append hsweep) hshown).2]
    exact hlt

end Constants

/-- **Constant propagation ends.**  Whatever a program computes, each sweep but the last one lifts
one of the slots that there are for two sides, the nodes and the assigned variables; no slot ever
goes down or from one constant to another; and so there are at most three sweeps for each slot, and
one more. -/
theorem Program.Verified.constants_climb_to_end {p : Program} (hp : p.Verified) (kind : GraphKind) :
    let g := p.graph kind
    ∃ first earlier last final, Analysis.constants.TraceParts g first earlier last final ∧
      Constants.Ascends p g first earlier ∧
      (Constants.problem g).EndsAfter (earlier.length + 1) ∧
      (Constants.slots g.nodes p.assignedNames).length =
        2 * g.nodes.length * p.assignedNames.size ∧
      earlier.length + 1 ≤ 1 + 6 * g.nodes.length * p.assignedNames.size := by
  intro g
  have hwf := hp.wellFormed
  have hg : g.WellFormed := hwf.graph kind
  let q := { Run.start (Constants.problem g) with
    stage := Run.sweepStage (Constants.problem g).order }
  have hs : (Run.start (Constants.problem g)).next? = some (q.pause .initialized none) := rfl
  have hstart := Run.paused_start (Constants.height g)
  obtain ⟨earlier, last, final, r, h⟩ := (hstart.next hg hs).exists_finishes hg rfl rfl
  have hparts := Analysis.traceParts (a := .constants) hg hs h
  have hleads : (Run.start (Constants.problem g)).Leads (Constants.problem g).trace r :=
    hparts.trace_eq ▸ .next hs h.leads
  have hsweeps : r.sweeps = earlier.length + 1 := by
    rw [h.sweeps_eq]
    exact Nat.zero_add _
  refine ⟨_, earlier, last, final, hparts, Constants.ascends hwf hs h hparts.trace_eq,
    ⟨r, hleads, ?_, hsweeps⟩, Constants.length_slots _ _, ?_⟩
  · rw [Run.isDone, h.done]
    rfl
  · have hbound := (hstart.leads hg hleads).1.sweeps_le
    have hheight : (Constants.problem g).height = 3 * p.assignedNames.size := by
      rw [← Constants.targets_eq hwf kind]
      rfl
    rw [h.done, hsweeps, hheight] at hbound
    calc earlier.length + 1
      _ ≤ 2 * g.nodes.length * (3 * p.assignedNames.size) + 1 := (Nat.le_add_right _ _).trans hbound
      _ = 1 + 6 * g.nodes.length * p.assignedNames.size := by ring

/-- The loop counts down without end for the analysis, which knows after some sweeps that its
variable is no constant. -/
theorem Program.countdown_constants_climb_to_end :
    countdown.Verified ∧ countdown.assignedNames.size = 1 ∧
      (countdown.graph .single).nodes.length = 5 ∧
      ∃ k ≤ 31, (Constants.problem (countdown.graph .single)).EndsAfter k := by
  have hnames : countdown.assignedNames.size = 1 := by decide +kernel
  have hnodes : (countdown.graph .single).nodes.length = 5 := by decide +kernel
  obtain ⟨first, earlier, last, final, -, -, hends, -, hle⟩ :=
    verified_countdown.constants_climb_to_end .single
  rw [hnodes, hnames] at hle
  exact ⟨verified_countdown, hnames, hnodes, _, hle, hends⟩

end FlowTrace
