import FlowTrace.Proofs.Dataflow.LeastSolution
import Mathlib.Data.Set.Finite.Lattice
import Mathlib.Order.Bounds.Lattice

/-!
# Constants never leave

An assignment joins its value to what was known of its target, so it takes nothing away.  What is
known of a variable before a node is therefore the join of all that the assignments to it give on
the paths to the node, each with what is known just before it; after the node its own assignments
are joined as well.  So what is known only grows along the edges, and it is the same all around a
cycle.
-/

namespace FlowTrace

namespace Constants

variable {k k' : Knowledge} {instrs : List Instr} {i : Instr} {x : String} {c : Const}

/-! ## What instructions give -/

/-- Some instructions give a value to a variable: one of them assigns it, with what is known just
before. -/
def Gives (k : Knowledge) (instrs : List Instr) (x : String) (c : Const) : Prop :=
  ∃ before i after, instrs = before ++ i :: after ∧ i.defines? = some x ∧
    eval? (sample (before.foldl learn k) i.reads) i.body = some c

theorem not_gives_nil : ¬ Gives k [] x c := by
  rintro ⟨before, i, after, hsplit, -⟩
  simp at hsplit

theorem gives_cons_iff : Gives k (i :: instrs) x c ↔
    (i.defines? = some x ∧ eval? (sample k i.reads) i.body = some c) ∨
      Gives (learn k i) instrs x c := by
  constructor
  · rintro ⟨before, j, after, hsplit, hx, hc⟩
    cases before with
    | nil =>
      obtain ⟨rfl, rfl⟩ := List.cons.inj hsplit
      exact .inl ⟨hx, hc⟩
    | cons _ before =>
      obtain ⟨rfl, rfl⟩ := List.cons.inj hsplit
      exact .inr ⟨before, j, after, rfl, hx, hc⟩
  · rintro (⟨hx, hc⟩ | ⟨before, j, after, rfl, hx, hc⟩)
    · exact ⟨[], i, instrs, rfl, hx, hc⟩
    · exact ⟨i :: before, j, after, rfl, hx, hc⟩

/-- A bound is reached step by step. -/
theorem isLUB_union_of_insert {γ : Type} [PartialOrder γ] {s t : Set γ} {v w : γ}
    (hv : IsLUB s v) (hw : IsLUB (insert v t) w) : IsLUB (s ∪ t) w := by
  have hbounds : upperBounds (s ∪ t) = upperBounds (insert v t) := by
    rw [upperBounds_union, hv.upperBounds_eq, upperBounds_insert]
  exact (isLUB_congr hbounds).mpr hw

theorem isLUB_learn (k : Knowledge) (i : Instr) (x : String) :
    IsLUB (insert (k x) (WithBot.some '' {c | i.defines? = some x ∧
      eval? (sample k i.reads) i.body = some c})) (learn k i x) := by
  cases hi : i.defines? with
  | none => simp [learn_of_defines?_eq_none k hi]
  | some y =>
    obtain ⟨c, hc⟩ := exists_eval? (sample k i.reads) hi
    rw [learn_of_defines? hi hc]
    by_cases hx : x = y
    · subst hx
      simpa [hc] using isLUB_pair
    · have hy : ¬ y = x := fun e => hx e.symm
      simp [hy, Function.update_of_ne hx]

/-- What is known after some instructions is what was known before, joined with what they give. -/
theorem isLUB_foldl_learn (instrs : List Instr) (k : Knowledge) (x : String) :
    IsLUB (insert (k x) (WithBot.some '' {c | Gives k instrs x c})) (instrs.foldl learn k x) := by
  induction instrs generalizing k with
  | nil => simp [not_gives_nil]
  | cons i instrs ih =>
    have hunion := isLUB_union_of_insert (isLUB_learn k i x) (ih (learn k i))
    rw [Set.insert_union, ← Set.image_union, ← Set.ofPred_or] at hunion
    simp only [gives_cons_iff]
    exact hunion

theorem le_foldl_learn (instrs : List Instr) (k : Knowledge) : k ≤ instrs.foldl learn k :=
  fun x => (isLUB_foldl_learn instrs k x).1 (Set.mem_insert _ _)

/-- With more knowledge, instructions give no smaller values. -/
theorem Gives.mono (h : Gives k instrs x c) (hle : k ≤ k') : ∃ d, Gives k' instrs x d ∧ c ≤ d := by
  obtain ⟨before, i, after, hsplit, hx, hc⟩ := h
  obtain ⟨d, hd, hcd⟩ := eval?_mono (lookup_sample_mono (foldl_learn_mono before hle)) hc
  exact ⟨d, ⟨before, i, after, hsplit, hx, hd⟩, hcd⟩

theorem finite_gives (instrs : List Instr) (k : Knowledge) (x : String) :
    {c | Gives k instrs x c}.Finite := by
  induction instrs generalizing k with
  | nil => simp [not_gives_nil]
  | cons i instrs ih =>
    simp only [gives_cons_iff, Set.ofPred_or]
    refine Set.Finite.union (Set.Subsingleton.finite ?_) (ih (learn k i))
    rintro c ⟨-, hc⟩ d ⟨-, hd⟩
    exact Option.some.inj (hc.symm.trans hd)

/-! ## What comes along paths -/

variable {g : FlowGraph} {y : Family Knowledge} {a b m n : NodeId} {l : List NodeId}

/-- What the assignments of a node give to a variable. -/
def gifts (g : FlowGraph) (known : NodeId → Knowledge) (m : NodeId) (x : String) : Set Const :=
  {c | Gives (known m) (definitionsOf g m) x c}

/-- What comes to a node along paths. -/
def arrivals (g : FlowGraph) (known : NodeId → Knowledge) (n : NodeId) (x : String) : Set Const :=
  {c | ∃ m path, g.Path m path n ∧ path ≠ [] ∧ c ∈ gifts g known m x}

/-- What leaves a node goes on over its edges. -/
theorem mem_arrivals_of_hasEdge {known : NodeId → Knowledge} (hab : g.hasEdge a b = true)
    (hc : c ∈ arrivals g known a x ∪ gifts g known a x) : c ∈ arrivals g known b x := by
  rcases hc with ⟨m, path, hpath, -, hc⟩ | hc
  · exact ⟨m, path ++ [a], hpath.snoc hab, by simp, hc⟩
  · exact ⟨a, [a], .cons hab (.nil b), List.cons_ne_nil _ _, hc⟩

theorem merged_le_flowed (hy : (reading g).system.Solves y) (hn : n ∈ g.nodes) :
    y.merged n ≤ y.flowed n := by
  rw [(hy n hn).2]
  exact le_foldl_learn _ _

theorem flowed_le_merged_of_hasEdge (hg : g.WellFormed) (hy : (reading g).system.Solves y)
    (hab : g.hasEdge a b = true) : y.flowed a ≤ y.merged b :=
  hy.closed.source_le b (hg.mem_of_hasEdge hab).2 a hab

/-- What is known grows along paths. -/
theorem flowed_le_merged_of_path (hg : g.WellFormed) (hy : (reading g).system.Solves y)
    (hpath : g.Path a l b) (hl : l ≠ []) : y.flowed a ≤ y.merged b := by
  induction hpath with
  | nil => exact absurd rfl hl
  | @cons a b c rest hab hrest ih =>
    have hle := flowed_le_merged_of_hasEdge hg hy hab
    cases hrest with
    | nil => exact hle
    | cons hbc hrest =>
      have hb := (hg.mem_of_hasEdge hab).2
      exact (hle.trans (merged_le_flowed hy hb)).trans (ih (List.cons_ne_nil _ _))

/-- All around a cycle the same is known. -/
theorem eq_of_cycle (hg : g.WellFormed) (hy : (reading g).system.Solves y) {l' : List NodeId}
    (hab : g.Path a l b) (hba : g.Path b l' a) (hne : l ++ l' ≠ []) :
    y.merged a = y.merged b ∧ y.flowed a = y.flowed b ∧ y.merged a = y.flowed a := by
  have haround : ∀ {n l}, g.Path n l n → l ≠ [] → y.merged n = y.flowed n := fun hpath hl =>
    le_antisymm (merged_le_flowed hy (hg.mem_of_path hpath hl))
      (flowed_le_merged_of_path hg hy hpath hl)
  have hbelow : ∀ {n m l}, g.Path n l m → y.merged n = y.flowed n → y.merged n ≤ y.merged m := by
    intro n m l hpath heq
    cases l with
    | nil =>
      cases hpath
      exact le_rfl
    | cons =>
      rw [heq]
      exact flowed_le_merged_of_path hg hy hpath (List.cons_ne_nil _ _)
  have ha := haround (hab.append hba) hne
  have hb := haround (hba.append hab) fun h => hne (by simpa [and_comm] using h)
  have heq : y.merged a = y.merged b := le_antisymm (hbelow hab ha) (hbelow hba hb)
  exact ⟨heq, by rw [← ha, ← hb, heq], ha⟩

theorem coe_le_flowed (hy : (reading g).system.Solves y) (hm : m ∈ g.nodes)
    (hc : c ∈ gifts g y.merged m x) : (c : WithBot Const) ≤ y.flowed m x := by
  rw [(hy m hm).2]
  exact (isLUB_foldl_learn _ _ x).1 (Set.mem_insert_of_mem _ ⟨c, hc, rfl⟩)

theorem coe_le_merged (hg : g.WellFormed) (hy : (reading g).system.Solves y)
    (hc : c ∈ arrivals g y.merged n x) : (c : WithBot Const) ≤ y.merged n x := by
  obtain ⟨m, path, hpath, hne, hc⟩ := hc
  exact (coe_le_flowed hy (hg.mem_of_path hpath hne) hc).trans
    (flowed_le_merged_of_path hg hy hpath hne x)

/-! ## The least solution -/

theorem finite_arrivals (hg : g.WellFormed) (known : NodeId → Knowledge) (n : NodeId) (x : String) :
    (arrivals g known n x).Finite := by
  have hall : (⋃ m ∈ {m | m ∈ g.nodes}, gifts g known m x).Finite :=
    Set.Finite.biUnion (List.finite_toSet g.nodes) fun m _ => finite_gives _ _ _
  refine hall.subset ?_
  rintro c ⟨m, path, hpath, hne, hc⟩
  exact Set.mem_biUnion (hg.mem_of_path hpath hne) hc

theorem exists_isLUB {s : Set Const} (hs : s.Finite) : ∃ v, IsLUB (WithBot.some '' s) v := by
  have hfin := hs.image WithBot.some
  refine ⟨hfin.toFinset.sup id, ?_⟩
  simpa using hfin.toFinset.isLUB_sup_id

/-- The joins of what comes and leaves are closed, with no more knowledge than what was used for
them. -/
theorem closed_of_isLUB {known : NodeId → Knowledge} {z : Family Knowledge}
    (hmerged : ∀ n x, IsLUB (WithBot.some '' arrivals g known n x) (z.merged n x))
    (hflowed : ∀ n x, IsLUB (WithBot.some '' (arrivals g known n x ∪ gifts g known n x))
      (z.flowed n x)) (hle : z.merged ≤ known) : (reading g).system.Closed z where
  boundary_le n _ := bot_le
  source_le n _ s hs x := by
    apply (hflowed s x).2
    rintro _ ⟨c, hc, rfl⟩
    exact (hmerged n x).1 ⟨c, mem_arrivals_of_hasEdge hs hc, rfl⟩
  effect_le n _ x := by
    apply (isLUB_foldl_learn (definitionsOf g n) (z.merged n) x).2
    rintro _ (rfl | ⟨c, hc, rfl⟩)
    · apply (hmerged n x).2
      rintro _ ⟨c, hc, rfl⟩
      exact (hflowed n x).1 ⟨c, .inl hc, rfl⟩
    · obtain ⟨d, hd, hcd⟩ := hc.mono (hle n)
      exact (WithBot.coe_le_coe.mpr hcd).trans ((hflowed n x).1 ⟨d, .inr hd, rfl⟩)

/-- The values of the least solution are the joins of what comes along paths. -/
theorem isLUB_of_leastSolution (hg : g.WellFormed) (hy : (reading g).system.LeastSolution y)
    (hn : n ∈ g.nodes) (x : String) :
    IsLUB (WithBot.some '' arrivals g y.merged n x) (y.merged n x) ∧
      IsLUB (WithBot.some '' (arrivals g y.merged n x ∪ gifts g y.merged n x)) (y.flowed n x) := by
  -- The joins are below the solution and closed themselves, so they are the least solution.
  choose merged hmerged using fun n x => exists_isLUB (finite_arrivals hg y.merged n x)
  choose flowed hflowed using fun n x =>
    exists_isLUB ((finite_arrivals hg y.merged n x).union
      (finite_gives (definitionsOf g n) (y.merged n) x))
  have hle : merged ≤ y.merged := by
    intro n x
    apply (hmerged n x).2
    rintro _ ⟨c, hc, rfl⟩
    exact coe_le_merged hg hy.solves hc
  have hle' : flowed n x ≤ y.flowed n x := by
    apply (hflowed n x).2
    rintro _ ⟨c, hc | hc, rfl⟩
    · exact (coe_le_merged hg hy.solves hc).trans (merged_le_flowed hy.solves hn x)
    · exact coe_le_flowed hy.solves hn hc
  have hclosed : (reading g).system.Closed ⟨merged, flowed⟩ := closed_of_isLUB hmerged hflowed hle
  obtain ⟨hge, hge'⟩ := hy.below _ hclosed n hn
  have heq : merged n x = y.merged n x := le_antisymm (hle n x) (hge x)
  have heq' : flowed n x = y.flowed n x := le_antisymm hle' (hge' x)
  exact ⟨heq ▸ hmerged n x, heq' ▸ hflowed n x⟩

/-! ## Facts -/

/-- An assignment of a node gives a value to a variable, with the map that the assignments before it
have made of the fact of the node. -/
def Contributes (g : FlowGraph) (ins : NodeId → ConstMap) (m : NodeId) (x : String) (c : Const) :
    Prop :=
  ∃ before i after, definitionsOf g m = before ++ i :: after ∧ i.defines? = some x ∧
    eval? (replay before (ins m)) i.body = some c

theorem mem_gifts_iff {ins : NodeId → ConstMap} :
    c ∈ gifts g (ConstMap.reading ∘ ins) m x ↔ Contributes g ins m x c := by
  simp only [gifts, Gives, Contributes, Set.mem_ofPred_eq, Function.comp_apply, ← reading_replay]
  refine exists_congr fun before => exists_congr fun i => exists_congr fun after =>
    and_congr_right fun _ => and_congr_right fun hx => ?_
  rw [eval?_sample _ hx]

/-- A missing variable counts as unset. -/
theorem isLUB_lookup {s : Set Const} {m : ConstMap} (h : IsLUB (WithBot.some '' s) (m.reading x)) :
    IsLUB s (m.lookup x) := by
  rw [ConstMap.lookup_eq]
  generalize m.reading x = v at h
  cases v with
  | bot =>
    constructor
    · exact fun c hc => absurd (h.1 ⟨c, hc, rfl⟩) (WithBot.not_coe_le_bot c)
    · exact fun u _ => bot_le
  | coe v =>
    constructor
    · exact fun c hc => WithBot.coe_le_coe.mp (h.1 ⟨c, hc, rfl⟩)
    · intro u hu
      apply WithBot.coe_le_coe.mp
      apply h.2
      rintro _ ⟨c, hc, rfl⟩
      exact WithBot.coe_le_coe.mpr (hu hc)

/-- Facts that are made up of what assignments give, of which nothing is lost on the way. -/
structure Accumulates (g : FlowGraph) (ins outs : NodeId → ConstMap) : Prop where
  /-- Before a node: what is given on the paths to it. -/
  in_isLUB : ∀ n ∈ g.nodes, ∀ x, IsLUB
    {c | ∃ m path, g.Path m path n ∧ path ≠ [] ∧ Contributes g ins m x c} ((ins n).lookup x)
  /-- After a node: the same, and what the node itself gives. -/
  out_isLUB : ∀ n ∈ g.nodes, ∀ x, IsLUB
    ({c | ∃ m path, g.Path m path n ∧ path ≠ [] ∧ Contributes g ins m x c} ∪
      {c | Contributes g ins n x c}) ((outs n).lookup x)
  /-- Facts climb along edges. -/
  below : ∀ a b, g.hasEdge a b = true → (ins a).Below (outs a) ∧ (outs a).Below (ins b)
  /-- They are the same for all nodes on a cycle. -/
  around : ∀ a b l l', g.Path a l b → g.Path b l' a → l ++ l' ≠ [] →
    (ins a).Same (ins b) ∧ (outs a).Same (outs b) ∧ (ins a).Same (outs a)

theorem accumulates (hg : g.WellFormed) {ins outs : NodeId → ConstMap}
    (h : (reading g).system.LeastSolution ⟨ConstMap.reading ∘ ins, ConstMap.reading ∘ outs⟩) :
    Accumulates g ins outs := by
  have hset : ∀ n x, arrivals g (ConstMap.reading ∘ ins) n x =
      {c | ∃ m path, g.Path m path n ∧ path ≠ [] ∧ Contributes g ins m x c} := by
    intro n x
    simp only [arrivals, mem_gifts_iff]
  have hgifts : ∀ n x, gifts g (ConstMap.reading ∘ ins) n x = {c | Contributes g ins n x c} :=
    fun n x => Set.ext fun c => mem_gifts_iff
  refine ⟨fun n hn x => ?_, fun n hn x => ?_, fun a b hab => ?_, fun a b l l' hl hl' hne => ?_⟩
  · rw [← hset]
    exact isLUB_lookup (isLUB_of_leastSolution hg h hn x).1
  · rw [← hset, ← hgifts]
    exact isLUB_lookup (isLUB_of_leastSolution hg h hn x).2
  · exact ⟨ConstMap.reading_le_iff.mp (merged_le_flowed h.solves (hg.mem_of_hasEdge hab).1),
      ConstMap.reading_le_iff.mp (flowed_le_merged_of_hasEdge hg h.solves hab)⟩
  · obtain ⟨hin, hout, hboth⟩ := eq_of_cycle hg h.solves hl hl' hne
    exact ⟨ConstMap.reading_eq_iff.mp hin, ConstMap.reading_eq_iff.mp hout,
      ConstMap.reading_eq_iff.mp hboth⟩

end Constants

/-- **Constants are never taken away.**  What constant propagation finds for a variable is the join
of what all assignments to it give on the way, each with what was found just before it. -/
theorem Program.Verified.constants_accumulate {p : Program} (hp : p.Verified) (kind : GraphKind) :
    (Constants.problem (p.graph kind)).EndsWith (Constants.Accumulates (p.graph kind)) := by
  have hg : (p.graph kind).WellFormed := hp.wellFormed.graph kind
  exact (Constants.ends hg).imp fun ins outs h => Constants.accumulates hg h

/-- The two instructions of a loop have the same facts. -/
theorem Program.countdown_constants_accumulate :
    let g := countdown.graph .single
    countdown.Verified ∧ g.Path 1 [1] 2 ∧ g.Path 2 [2] 1 ∧
      (Constants.problem g).EndsWith fun ins outs =>
        (ins 1).Same (ins 2) ∧ (outs 1).Same (outs 2) ∧ (ins 1).Same (outs 1) ∧
          ∀ x, IsLUB {c | ∃ m path, g.Path m path 1 ∧ path ≠ [] ∧
            Constants.Contributes g ins m x c} ((ins 1).lookup x) := by
  intro g
  have hthere : g.Path 1 [1] 2 := .cons (by decide) (.nil 2)
  have hback : g.Path 2 [2] 1 := .cons (by decide) (.nil 1)
  refine ⟨verified_countdown, hthere, hback, ?_⟩
  refine (verified_countdown.constants_accumulate .single).imp fun ins outs h => ?_
  obtain ⟨hin, hout, hboth⟩ := h.around 1 2 [1] [2] hthere hback (List.cons_ne_nil _ _)
  exact ⟨hin, hout, hboth, h.in_isLUB 1 (by decide)⟩

end FlowTrace
