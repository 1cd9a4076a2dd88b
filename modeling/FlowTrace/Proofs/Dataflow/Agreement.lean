import FlowTrace.Proofs.Dataflow.Granularity
import FlowTrace.Proofs.Dataflow.LeastSolution
import FlowTrace.Proofs.Dataflow.Tags
import FlowTrace.Proofs.Graph.Quotient

/-!
# Both graphs give the same facts

An analysis of the graph of blocks and the same analysis of the graph of single instructions end in
the same facts where blocks start and end, at the entry and at the exit.  Each block stands for the
chain of its instructions, so its equations refine to those of the instructions; for live variables
the chains are followed from their ends.
-/

namespace FlowTrace

/-! ## Facts at both ends of a block -/

/-- The facts of two graphs are the same where a data node of the first starts and where it ends, at
the entries and at the exits. -/
structure FlowGraph.SameFacts {α : Type} (g fine : FlowGraph) (same : α → α → Prop)
    (ins outs fineIns fineOuts : NodeId → α) : Prop where
  starts : ∀ n ∈ g.dataNodes, same (ins n) (fineIns n)
  ends : ∀ n l, g.EndsAt n l → same (outs n) (fineOuts l)
  entry : same (ins g.entry) (fineIns fine.entry) ∧ same (outs g.entry) (fineOuts fine.entry)
  exit : same (ins g.exit) (fineIns fine.exit) ∧ same (outs g.exit) (fineOuts fine.exit)

namespace Program

variable {p q : Program} {kind : GraphKind} {n i j : NodeId}

/-- Facts that are the same at both ends of all chains. -/
theorem WellFormed.sameFacts {α : Type} {same : α → α → Prop}
    {ins outs fineIns fineOuts : NodeId → α} (hp : p.WellFormed)
    (hins : ∀ n ∈ (p.graph kind).nodes, ∀ f, (p.chain q kind n).head? = some f →
      same (ins n) (fineIns f))
    (houts : ∀ n ∈ (p.graph kind).nodes, ∀ l, (p.chain q kind n).getLast? = some l →
      same (outs n) (fineOuts l)) :
    (p.graph kind).SameFacts (q.graph .single) same ins outs fineIns fineOuts where
  starts n hn := by
    obtain ⟨rest, hrest⟩ := hp.head_of_mem_dataNodes hn
    obtain ⟨hmem, hchain⟩ := hp.chain_of_covered q hrest
    apply hins n hmem
    rw [hchain]
    rfl
  ends n l hl := by
    obtain ⟨c, hc, hlast⟩ := hl
    obtain ⟨hmem, rfl⟩ := hp.chain_of_covered q hc
    exact houts n hmem l hlast
  entry := by
    have hchain : p.chain q kind (p.graph kind).entry = [(q.graph .single).entry] :=
      hp.chain_eq .entry
    constructor
    · exact hins _ (FlowGraph.entry_mem _) _ (by rw [hchain]; rfl)
    · exact houts _ (FlowGraph.entry_mem _) _ (by rw [hchain]; rfl)
  exit := by
    have hchain : p.chain q kind (p.graph kind).exit = [(q.graph .single).exit] :=
      hp.chain_eq .exit
    constructor
    · exact hins _ (FlowGraph.exit_mem _) _ (by rw [hchain]; rfl)
    · exact houts _ (FlowGraph.exit_mem _) _ (by rw [hchain]; rfl)

theorem SameCode.instr?_eq (h : p.SameCode q) (i : NodeId) : q.instr? i = p.instr? i := by
  rw [h.eq_withSupply]
  rfl

theorem SameCode.codeOf_eq (h : p.SameCode q) (ids : List NodeId) :
    q.codeOf ids = p.codeOf ids := by
  rw [h.eq_withSupply]
  rfl

/-- Only the exit stands for the exit. -/
theorem WellFormed.exit_mem_chain_iff (hp : p.WellFormed) (hq : q.WellFormed) (hpq : p.SameCode q)
    (hn : n ∈ (p.graph kind).nodes) :
    (q.graph .single).exit ∈ p.chain q kind n ↔ n = (p.graph kind).exit := by
  constructor
  · intro hmem
    exact (hp.chain_of_mem q hn).unique hp hq hpq .exit hmem List.mem_cons_self
  · rintro rfl
    rw [hp.chain_eq .exit]
    exact List.mem_cons_self

end Program

/-! ## Live variables -/

namespace Liveness

variable {p q : Program} {liveOut : NameSet} {rule : Option Bool} {n i : NodeId}

/-- What is live before the instruction of an id. -/
def liveThrough (p : Program) (i : NodeId) (s : Set String) : Set String :=
  (p.instr? i).toList.foldr liveBefore s

theorem liveThrough_of_notMem (hp : p.WellFormed) (hi : i ∉ p.ids) (s : Set String) :
    liveThrough p i s = s := by
  have hnone : p.instr? i = none := by
    rw [Option.eq_none_iff_forall_not_mem]
    intro instr hinstr
    exact hi (hp.mem_ids_iff.mpr ⟨instr, hinstr⟩)
  rw [liveThrough, hnone]
  rfl

/-- Instructions act one after the other, from the last to the first. -/
theorem foldr_liveThrough (p : Program) (ids : List NodeId) (s : Set String) :
    ((p.codeOf ids).map (·.2)).foldr liveBefore s = ids.foldr (liveThrough p) s := by
  induction ids with
  | nil => rfl
  | cons i ids ih =>
    have hhead : (p.codeOf [i]).map (·.2) = (p.instr? i).toList := by
      cases h : p.instr? i <;> simp [Program.codeOf, h]
    rw [p.codeOf_cons, List.map_append, List.foldr_append, ih, hhead]
    rfl

/-- A block acts as its chain does, from its end. -/
theorem effect_block (hp : p.WellFormed) (hq : q.WellFormed) (hpq : p.SameCode q)
    (hn : n ∈ (p.graph .blocks).nodes) (s : Set String) :
    (useDef (p.graph .blocks) none n).liveBefore s =
      (gainLoss (q.graph .single) liveOut rule).reading.system.along
        (p.chain q .blocks n).reverse s := by
  have hstep : ∀ i s, (useDef (q.graph .single) rule i).liveBefore s = liveThrough p i s := by
    intro i s
    rw [liveBefore_single hq, hpq.instr?_eq]
    rfl
  calc (useDef (p.graph .blocks) none n).liveBefore s
      = ((p.codeOf ((p.graph .blocks).coveredBy n)).map (·.2)).foldr liveBefore s :=
        liveBefore_useDefOfBlock _ s
    _ = (p.chain q .blocks n).foldr (liveThrough p) s := by
        rw [foldr_liveThrough,
          hp.foldr_chain hq hpq (fun i hi s => liveThrough_of_notMem hp hi s) hn]
    _ = _ := by
        rw [System.along, List.foldl_reverse]
        congr 1
        funext i s
        exact (hstep i s).symm

/-- The exit is where variables are live by themselves, in both graphs. -/
theorem boundary_last (hp : p.WellFormed) (hq : q.WellFormed) (hpq : p.SameCode q)
    (hn : n ∈ (p.graph .blocks).nodes) (hl : (p.chain q .blocks n).getLast? = some i) :
    (gainLoss (q.graph .single) liveOut rule).reading.system.boundary i =
      (gainLoss (p.graph .blocks) liveOut none).reading.system.boundary n := by
  have hmem := List.mem_of_mem_getLast? hl
  have hexit : i = (q.graph .single).exit ↔ n = (p.graph .blocks).exit := by
    constructor
    · rintro rfl
      exact (hp.exit_mem_chain_iff hq hpq hn).mp hmem
    · rintro rfl
      rw [hp.chain_eq .exit] at hmem
      exact List.mem_singleton.mp hmem
  rw [boundary_eq, boundary_eq]
  simp only [hexit]

/-- The equations of the graph of blocks are those between instructions, taken along chains from
their ends. -/
theorem refines_single (hp : p.WellFormed) (hq : q.WellFormed) (hpq : p.SameCode q)
    (liveOut : NameSet) (rule : Option Bool) :
    (gainLoss (p.graph .blocks) liveOut none).reading.system.Refines
      (gainLoss (q.graph .single) liveOut rule).reading.system
      (fun n => (p.chain q .blocks n).reverse) := by
  have hg := hp.graph .blocks
  have hfine := hq.graph .single
  have hchains := hp.chains hq hpq .blocks
  refine ⟨fun _ hs => (hg.mem_of_hasEdge hs).2, fun hn h => hchains.ne_nil hn (by simpa using h),
    ?_, hchains.place_unique_reverse, (gainLoss (q.graph .single) liveOut rule).reading.effect_mono,
    effect_block hp hq hpq, ?_, ?_⟩
  · intro j
    simp only [List.mem_reverse]
    exact hchains.mem_iff
  · intro n f rest hn hf
    have hlast : (p.chain q .blocks n).getLast? = some f := by
      rw [← List.head?_reverse, hf]
      rfl
    refine ⟨boundary_last hp hq hpq hn hlast, fun a => ?_⟩
    simp only [List.getLast?_reverse]
    exact hchains.hasEdge_last_iff hg hfine hn hlast
  · intro n pre i j post hn hsplit
    have hinner : p.chain q .blocks n = post.reverse ++ j :: i :: pre.reverse := by
      simpa using List.reverse_eq_iff.mp hsplit
    obtain ⟨hout, -⟩ := hchains.inner hn hinner
    constructor
    · -- Something follows `j`, so it is not the exit.
      have hne : j ≠ (q.graph .single).exit := by
        rintro rfl
        have hedge := (hout i).mpr rfl
        rw [hfine.hasEdge_exit] at hedge
        cases hedge
      rw [boundary_eq]
      simp [hne]
    · ext a
      exact hout a

end Liveness

/-- The runs of live variables on the two graphs of a verified program end in the same sets where
blocks start and end, at the entry and at the exit. -/
theorem Program.Verified.liveness_same_on_blocks {p q : Program} (hp : p.Verified)
    (hq : q.Verified) (hpq : p.SameCode q) (liveOut : NameSet) :
    (Liveness.problem (q.graph .single) liveOut none).EndsWith fun ins outs =>
      (Liveness.problem (p.graph .blocks) liveOut none).EndsWith fun blockIns blockOuts =>
        (p.graph .blocks).SameFacts (q.graph .single) (· = ·) blockIns blockOuts ins outs := by
  have hw := hp.wellFormed
  have hwq := hq.wellFormed
  have hrefines := Liveness.refines_single hw hwq hpq liveOut none
  refine (Liveness.ends (hwq.graph .single) liveOut none).imp fun ins outs hfine => ?_
  refine (Liveness.ends (hw.graph .blocks) liveOut none).imp fun blockIns blockOuts hblocks => ?_
  apply hw.sameFacts
  · intro n hn f hf
    rw [← List.getLast?_reverse] at hf
    exact NameSet.members_injective (hrefines.flowed_last_eq hblocks hfine hn hf).symm
  · intro n hn l hl
    rw [← List.head?_reverse] at hl
    exact NameSet.members_injective (hrefines.merged_head_eq hblocks hfine hn hl).symm

/-- Around the loop the counter is live where the block starts and where it ends. -/
theorem Program.countdown_liveness_same_on_blocks :
    countdown.Verified ∧ countdown.SameCode countdown.reserve.2.reserve.2 ∧
      (Liveness.problem (countdown.reserve.2.reserve.2.graph .single) (NameSet.ofList ["n"])
        none).EndsWith fun ins outs =>
      (Liveness.problem (countdown.graph .blocks) (NameSet.ofList ["n"]) none).EndsWith
        fun blockIns blockOuts => blockIns 1 = ins 1 ∧ blockOuts 1 = outs 2 := by
  have hsame := (SameCode.refl countdown).reserve.reserve
  refine ⟨verified_countdown, hsame, ?_⟩
  refine (verified_countdown.liveness_same_on_blocks verified_countdown.reserve.reserve hsame
    (NameSet.ofList ["n"])).imp fun ins outs h => h.imp fun blockIns blockOuts hfacts => ?_
  exact ⟨hfacts.starts 1 (by decide), hfacts.ends 1 2 ⟨[1, 2], by decide, rfl⟩⟩

/-! ## Constants -/

namespace Constants

variable {p q : Program} {kind : GraphKind} {n i : NodeId}

/-- The map that the replay of a node holds just before one of the instructions of the node. -/
def replayUntil (g : FlowGraph) (n i : NodeId) (env : ConstMap) : ConstMap :=
  replay ((((g.instrsOf n).takeWhile (·.1 != i)).map (·.2)).filter (·.isAssignment)) env

/-- The assignments among the instructions of some ids. -/
def assignmentsOf (p : Program) (ids : List NodeId) : List Instr :=
  ((p.codeOf ids).map (·.2)).filter (·.isAssignment)

theorem definitionsOf_eq (p : Program) (kind : GraphKind) (n : NodeId) :
    definitionsOf (p.graph kind) n = assignmentsOf p ((p.graph kind).coveredBy n) := rfl

theorem assignmentsOf_cons (p : Program) (i : NodeId) (ids : List NodeId) :
    assignmentsOf p (i :: ids) = assignmentsOf p [i] ++ assignmentsOf p ids := by
  rw [assignmentsOf, p.codeOf_cons, List.map_append, List.filter_append]
  rfl

theorem codeOf_of_notMem (hp : p.WellFormed) (hi : i ∉ p.ids) : p.codeOf [i] = [] := by
  rw [List.eq_nil_iff_forall_not_mem]
  intro e he
  obtain ⟨hmem, hinstr⟩ := Program.mem_codeOf.mp he
  obtain rfl := List.mem_singleton.mp hmem
  exact hi (hp.mem_ids_iff.mpr ⟨e.2, hinstr⟩)

theorem definitionsOf_single (hp : p.WellFormed) (i : NodeId) :
    definitionsOf (p.graph .single) i = assignmentsOf p [i] := by
  rw [definitionsOf, hp.instrsOf_single, assignmentsOf, Program.codeOf]
  cases h : p.instr? i <;> simp [h]

/-- What is known after the instruction of an id. -/
def learnAt (p : Program) (k : Knowledge) (i : NodeId) : Knowledge :=
  (assignmentsOf p [i]).foldl learn k

/-- Instructions are learnt from one after the other. -/
theorem foldl_learnAt (p : Program) (ids : List NodeId) (k : Knowledge) :
    (assignmentsOf p ids).foldl learn k = ids.foldl (learnAt p) k := by
  induction ids generalizing k with
  | nil => rfl
  | cons i ids ih =>
    rw [assignmentsOf_cons, List.foldl_append, ih]
    rfl

theorem effect_single (hq : q.WellFormed) (hpq : p.SameCode q) (i : NodeId) (k : Knowledge) :
    (reading (q.graph .single)).effect i k = learnAt p k i := by
  show (definitionsOf (q.graph .single) i).foldl learn k = _
  rw [definitionsOf_single hq, learnAt, assignmentsOf, assignmentsOf, hpq.codeOf_eq]

theorem along_single (hq : q.WellFormed) (hpq : p.SameCode q) (ids : List NodeId) (k : Knowledge) :
    (reading (q.graph .single)).system.along ids k = ids.foldl (learnAt p) k := by
  rw [System.along]
  congr 1
  funext k i
  exact effect_single hq hpq i k

/-- The equations of a graph are those between instructions, taken along chains. -/
theorem refines_single (hp : p.WellFormed) (hq : q.WellFormed) (hpq : p.SameCode q)
    (kind : GraphKind) : (reading (p.graph kind)).system.Refines
      (reading (q.graph .single)).system (p.chain q kind) := by
  have hg := hp.graph kind
  have hfine := hq.graph .single
  have hchains := hp.chains hq hpq kind
  refine ⟨fun _ hs => (hg.mem_of_hasEdge hs).1, hchains.ne_nil, hchains.mem_iff,
    hchains.place_unique, (reading (q.graph .single)).effect_mono, ?_, ?_, ?_⟩
  · intro n hn k
    have hid : ∀ i ∉ p.ids, ∀ k, learnAt p k i = k := by
      intro i hi k
      rw [learnAt, assignmentsOf, codeOf_of_notMem hp hi]
      rfl
    show (definitionsOf (p.graph kind) n).foldl learn k = _
    rw [definitionsOf_eq, foldl_learnAt, ← hp.foldl_chain hq hpq hid hn, along_single hq hpq]
  · intro n f rest hn hf
    exact ⟨rfl, fun a => hchains.hasEdge_head_iff hg hfine hn hf⟩
  · intro n pre i j post hn hsplit
    refine ⟨ConstMap.reading_empty, ?_⟩
    ext a
    exact (hchains.inner hn hsplit).2 a

/-- The replay of a node up to an instruction takes the assignments that stand before it. -/
theorem replayUntil_eq (hp : p.WellFormed) {pre post : List NodeId}
    (h : (p.graph kind).covered.get? n = some (pre ++ i :: post)) (env : ConstMap) :
    replayUntil (p.graph kind) n i env = replay (assignmentsOf p pre) env := by
  have hcov := FlowGraph.covers_coverOf hp kind
  have hcovered : (p.graph kind).coveredBy n = pre ++ i :: post := by
    rw [FlowGraph.coveredBy, h]
    rfl
  rw [Program.graph_covered] at h
  obtain ⟨instr, hinstr⟩ := hp.mem_ids_iff.mp (hcov.mem_ids (i := i) h (by simp))
  have hcode : p.codeOf (pre ++ i :: post) = p.codeOf pre ++ (i, instr) :: p.codeOf post := by
    simp [Program.codeOf, hinstr]
  -- No instruction comes twice, so the search for `i` runs through all that stand before it.
  have hnot : i ∉ pre := by
    have hnodup := hcov.nodup hp h
    rw [List.nodup_middle, List.nodup_cons, List.mem_append, not_or] at hnodup
    exact hnodup.1.1
  have hall : ∀ e ∈ p.codeOf pre, (e.1 != i) = true := by
    intro e he
    rw [bne_iff_ne]
    rintro rfl
    exact hnot (Program.mem_codeOf.mp he).1
  have htake : (p.codeOf pre ++ (i, instr) :: p.codeOf post).takeWhile (·.1 != i) =
      p.codeOf pre := by
    rw [List.takeWhile_append_of_pos hall]
    simp
  rw [replayUntil, Program.instrsOf_eq, hcovered, hcode, htake]
  rfl

end Constants

/-- The runs of constant propagation on the two graphs of a verified program end in the same maps
where blocks start and end, at the entry and at the exit; before each instruction of a block, the
map of the instruction is the one that the replay of the block holds there. -/
theorem Program.Verified.constants_same_on_blocks {p q : Program} (hp : p.Verified)
    (hq : q.Verified) (hpq : p.SameCode q) :
    (Constants.problem (q.graph .single)).EndsWith fun ins outs =>
      (Constants.problem (p.graph .blocks)).EndsWith fun blockIns blockOuts =>
        (p.graph .blocks).SameFacts (q.graph .single) ConstMap.Same blockIns blockOuts ins outs ∧
        ∀ f c, (p.graph .blocks).covered.get? f = some c → ∀ i ∈ c,
          (ins i).Same (Constants.replayUntil (p.graph .blocks) f i (blockIns f)) := by
  have hw := hp.wellFormed
  have hwq := hq.wellFormed
  have hrefines := Constants.refines_single hw hwq hpq .blocks
  refine (Constants.ends (hwq.graph .single)).imp fun ins outs hfine => ?_
  refine (Constants.ends (hw.graph .blocks)).imp fun blockIns blockOuts hblocks => ?_
  refine ⟨hw.sameFacts ?_ ?_, ?_⟩
  · intro n hn f hf
    exact ConstMap.reading_eq_iff.mp (hrefines.merged_head_eq hblocks hfine hn hf).symm
  · intro n hn l hl
    exact ConstMap.reading_eq_iff.mp (hrefines.flowed_last_eq hblocks hfine hn hl).symm
  · intro f c hc i hi
    obtain ⟨pre, post, rfl⟩ := List.append_of_mem hi
    obtain ⟨hf, hchain⟩ := hw.chain_of_covered q hc
    apply ConstMap.reading_eq_iff.mp
    rw [Constants.replayUntil_eq hw hc, Constants.reading_replay, Constants.foldl_learnAt,
      ← Constants.along_single hwq hpq]
    exact hrefines.merged_eq hblocks hfine hf hchain

/-- At the jump of the loop, the map is what the replay of the block holds after the assignment. -/
theorem Program.countdown_constants_same_on_blocks :
    countdown.Verified ∧ countdown.SameCode countdown.reserve.2.reserve.2 ∧
      (Constants.problem (countdown.reserve.2.reserve.2.graph .single)).EndsWith fun ins _ =>
      (Constants.problem (countdown.graph .blocks)).EndsWith fun blockIns _ =>
        (blockIns 1).Same (ins 1) ∧
        (ins 2).Same (Constants.replayUntil (countdown.graph .blocks) 1 2 (blockIns 1)) := by
  have hsame := (SameCode.refl countdown).reserve.reserve
  refine ⟨verified_countdown, hsame, ?_⟩
  refine (verified_countdown.constants_same_on_blocks verified_countdown.reserve.reserve
    hsame).imp fun ins outs h => h.imp fun blockIns blockOuts hfacts => ?_
  exact ⟨hfacts.1.starts 1 (by decide), hfacts.2 1 [1, 2] (by decide) 2 (by decide)⟩

end FlowTrace
