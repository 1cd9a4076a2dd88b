import FlowTrace.Proofs.Dataflow.Knowledge
import FlowTrace.Proofs.Dataflow.Tags
import Mathlib.Order.GaloisConnection.Basic

/-!
# Variables that may have been assigned

Two analyses tell which variables may have been assigned on the way to a node: constant propagation
by the names in its maps, and reaching definitions by the variables of its tags.  The names of a map
are never taken away, while a tag is replaced by each later assignment to its variable; but then
that assignment leaves a tag of the same variable.  So both are abstractions of one system of
equations, where each node adds the variables that it writes.  An abstraction that is given by a
Galois connection takes the least solution to the least solution, and there is one only.
-/

namespace FlowTrace

/-! ## Abstractions -/

/-- Apply a function to all values. -/
def Family.map {β γ : Type} (f : β → γ) (x : Family β) : Family γ := ⟨f ∘ x.merged, f ∘ x.flowed⟩

namespace System

variable {β γ : Type} [PartialOrder β] [PartialOrder γ] {S : System β} {A : System γ}
  {l : β → γ} {u : γ → β} {x : Family β} {y : Family γ}

/-- The equations of one system, seen through a Galois connection, are those of another one. -/
structure AbstractedBy (S : System β) (A : System γ) (l : β → γ) (u : γ → β) : Prop where
  connection : GaloisConnection l u
  nodes_eq : A.nodes = S.nodes
  sources_eq : ∀ n, A.sources n = S.sources n
  boundary_eq : ∀ n, A.boundary n = l (S.boundary n)
  effect_eq : ∀ n b, l (S.effect n b) = A.effect n (l b)
  effect_mono : ∀ n, Monotone (A.effect n)

namespace AbstractedBy

theorem solves_map (h : S.AbstractedBy A l u) (hx : S.Solves x) : A.Solves (x.map l) := by
  intro n hn
  rw [h.nodes_eq] at hn
  obtain ⟨hmerges, hflows⟩ := hx n hn
  constructor
  · have hlub := h.connection.isLUB_l_image hmerges
    rw [Set.image_insert_eq, ← h.boundary_eq, ← h.sources_eq, Set.image_image] at hlub
    exact hlub
  · show l (x.flowed n) = A.effect n (l (x.merged n))
    rw [hflows, h.effect_eq]

/-- What is closed for the abstract equations stands for values that are closed for the others. -/
theorem closed_map (h : S.AbstractedBy A l u) (hy : A.Closed y) : S.Closed (y.map u) where
  boundary_le n hn := by
    rw [← h.nodes_eq] at hn
    apply h.connection.le_u
    rw [← h.boundary_eq]
    exact hy.boundary_le n hn
  source_le n hn s hs := by
    rw [← h.nodes_eq] at hn
    rw [← h.sources_eq] at hs
    exact h.connection.monotone_u (hy.source_le n hn s hs)
  effect_le n hn := by
    rw [← h.nodes_eq] at hn
    apply h.connection.le_u
    calc l (S.effect n (u (y.merged n))) = A.effect n (l (u (y.merged n))) := h.effect_eq n _
      _ ≤ A.effect n (y.merged n) := h.effect_mono n (h.connection.l_u_le _)
      _ ≤ y.flowed n := hy.effect_le n hn

/-- The abstraction of the least solution is the least solution. -/
theorem leastSolution_map (h : S.AbstractedBy A l u) (hx : S.LeastSolution x) :
    A.LeastSolution (x.map l) where
  solves := h.solves_map hx.solves
  below y hy n hn := by
    rw [h.nodes_eq] at hn
    obtain ⟨hmerged, hflowed⟩ := hx.below _ (h.closed_map hy) n hn
    exact ⟨h.connection.l_le hmerged, h.connection.l_le hflowed⟩

end AbstractedBy

end System

/-! ## The variables that nodes write -/

variable {p : Program}

/-- The variables that the instructions of some ids write. -/
def Program.written (p : Program) (ids : List NodeId) : Set String :=
  {x | ∃ i ∈ ids, p.Writes i x}

theorem Program.written_cons (p : Program) (i : NodeId) (ids : List NodeId) :
    p.written (i :: ids) = {x | p.Writes i x} ∪ p.written ids := by
  ext x
  simp [written]

/-- A variable may have been assigned after a node if it may have been before, or if the node writes
it. -/
def assigned (p : Program) (kind : GraphKind) : System (Set String) where
  nodes := {n | n ∈ (p.graph kind).nodes}
  boundary _ := ∅
  sources n := {s | (p.graph kind).hasEdge s n = true}
  effect n s := s ∪ p.written ((p.graph kind).coveredBy n)

theorem assigned_effect_mono (p : Program) (kind : GraphKind) (n : NodeId) :
    Monotone ((assigned p kind).effect n) :=
  fun _ _ h => Set.union_subset_union_left _ h

/-! ## Names of maps -/

namespace Constants

/-- The names of which something is known. -/
def domain (k : Knowledge) : Set String := {x | k x ≠ ⊥}

/-- All that can be known of some names. -/
noncomputable def cover (s : Set String) : Knowledge := by
  classical exact fun x => if x ∈ s then (Const.nac : Const) else ⊥

theorem gc_domain_cover : GaloisConnection domain cover := by
  intro k s
  constructor
  · intro h x
    by_cases hx : x ∈ s
    · simp only [cover, if_pos hx]
      cases k x with
      | bot => exact bot_le
      | coe c => exact WithBot.coe_le_coe.mpr (Const.le_nac c)
    · have hk : k x = ⊥ := by
        by_contra hne
        exact hx (h hne)
      rw [hk]
      exact bot_le
  · intro h x hx
    by_contra hnot
    have hle := h x
    simp only [cover, if_neg hnot] at hle
    exact hx (le_bot_iff.mp hle)

/-- An assignment makes its target known, and no name unknown. -/
theorem domain_learn (k : Knowledge) (i : Instr) :
    domain (learn k i) = domain k ∪ {x | i.defines? = some x} := by
  cases hi : i.defines? with
  | none => simp [learn_of_defines?_eq_none k hi]
  | some x =>
    obtain ⟨c, hc⟩ := exists_eval? (sample k i.reads) hi
    rw [learn_of_defines? hi hc]
    ext y
    by_cases hy : y = x
    · subst hy
      simp [domain]
    · simp [domain, hy, eq_comm]

theorem domain_foldl_learn (instrs : List Instr) (k : Knowledge) :
    domain (instrs.foldl learn k) = domain k ∪ {x | ∃ i ∈ instrs, i.defines? = some x} := by
  induction instrs generalizing k with
  | nil => simp
  | cons i instrs ih =>
    rw [List.foldl_cons, ih, domain_learn, Set.union_assoc]
    congr 1
    ext x
    simp

/-- The targets of a node are the variables that it writes. -/
theorem exists_definitionsOf_iff {g : FlowGraph} {n : NodeId} {x : String} :
    (∃ i ∈ definitionsOf g n, i.defines? = some x) ↔
      ∃ i ∈ g.coveredBy n, g.program.Writes i x := by
  have hmem {e : NodeId × Instr} : e ∈ g.instrsOf n ↔ _ := Program.mem_codeOf
  simp only [definitionsOf, List.mem_filter, List.mem_map]
  constructor
  · rintro ⟨instr, ⟨⟨e, he, rfl⟩, -⟩, hx⟩
    obtain ⟨hcovered, hinstr⟩ := hmem.mp he
    exact ⟨e.1, hcovered, e.2, hinstr, hx⟩
  · rintro ⟨i, hi, instr, hinstr, hx⟩
    refine ⟨instr, ⟨⟨(i, instr), hmem.mpr ⟨hi, hinstr⟩, rfl⟩, ?_⟩, hx⟩
    simp [Instr.isAssignment, hx]

theorem defines_definitionsOf (p : Program) (kind : GraphKind) (n : NodeId) :
    {x | ∃ i ∈ definitionsOf (p.graph kind) n, i.defines? = some x} =
      p.written ((p.graph kind).coveredBy n) :=
  Set.ext fun _ => exists_definitionsOf_iff

theorem abstractedBy_assigned (p : Program) (kind : GraphKind) :
    (reading (p.graph kind)).system.AbstractedBy (assigned p kind) domain cover where
  connection := gc_domain_cover
  nodes_eq := rfl
  sources_eq _ := rfl
  boundary_eq _ := by
    ext x
    simp [assigned, domain, Problem.Reading.system, problem, reading]
  effect_eq n k := by
    show domain ((definitionsOf (p.graph kind) n).foldl learn k) = _
    rw [domain_foldl_learn, defines_definitionsOf]
    rfl
  effect_mono := assigned_effect_mono p kind

end Constants

/-! ## Variables of tags -/

namespace Reaching

variable {ts : Table NodeId String}

/-- The variables to which some tags belong. -/
def variablesOf (p : Program) (ts : Table NodeId String) (s : Set String) : Set String :=
  {x | ∃ i t, p.Writes i x ∧ ts.get? i = some t ∧ t ∈ s}

/-- The tags that belong to no other than some variables. -/
def tagsWithin (p : Program) (ts : Table NodeId String) (s : Set String) : Set String :=
  {t | ∀ i x, p.Writes i x → ts.get? i = some t → x ∈ s}

theorem gc_variablesOf_tagsWithin (p : Program) (ts : Table NodeId String) :
    GaloisConnection (variablesOf p ts) (tagsWithin p ts) := by
  intro s v
  constructor
  · intro h t ht i x hi hit
    exact h ⟨i, t, hi, hit, ht⟩
  · rintro h x ⟨i, t, hi, hit, ht⟩
    exact h ht i x hi hit

/-- An assignment takes away tags of its variable only, and leaves one of them behind. -/
theorem variablesOf_through (hts : Tagging p ts) (i : NodeId) (s : Set String) :
    variablesOf p ts (through p ts i s) = variablesOf p ts s ∪ {x | p.Writes i x} := by
  ext x
  constructor
  · rintro ⟨j, t, hj, hjt, ⟨y, hy, hit⟩ | ⟨ht, -⟩⟩
    · obtain rfl := hts.unique hjt hit
      exact .inr hj
    · exact .inl ⟨j, t, hj, hjt, ht⟩
  · rintro (⟨j, t, hj, hjt, ht⟩ | hx)
    · by_cases hx : p.Writes i x
      · obtain ⟨u, hu⟩ := hts.exists_tag hx
        exact ⟨i, u, hx, hu, .inl ⟨x, hx, hu⟩⟩
      · -- The tag stays, since the assignment writes another variable.
        refine ⟨j, t, hj, hjt, .inr ⟨ht, fun y hy k hk hkt => hx ?_⟩⟩
        obtain rfl := hts.unique hkt hjt
        exact hj.unique hk ▸ hy
    · obtain ⟨u, hu⟩ := hts.exists_tag hx
      exact ⟨i, u, hx, hu, .inl ⟨x, hx, hu⟩⟩

theorem variablesOf_foldl_through (hts : Tagging p ts) (ids : List NodeId) (s : Set String) :
    variablesOf p ts (ids.foldl (fun s i => through p ts i s) s) =
      variablesOf p ts s ∪ p.written ids := by
  induction ids generalizing s with
  | nil => simp [Program.written]
  | cons i ids ih =>
    rw [List.foldl_cons, ih, variablesOf_through hts, p.written_cons, Set.union_assoc]

theorem abstractedBy_assigned (hp : p.WellFormed) (kind : GraphKind) :
    (gainLoss (p.graph kind)).reading.system.AbstractedBy (assigned p kind)
      (variablesOf p (tags (p.graph kind))) (tagsWithin p (tags (p.graph kind))) where
  connection := gc_variablesOf_tagsWithin p _
  nodes_eq := rfl
  sources_eq _ := rfl
  boundary_eq n := by
    rw [boundary_eq]
    ext x
    simp [assigned, variablesOf]
  effect_eq n s := by
    have hts := tagging_tags hp kind
    show variablesOf p _ ((gen _ _ n).members ∪ (s \ (kill _ _ n).members)) = _
    rw [effect_eq hp hts, variablesOf_foldl_through hts]
    rfl
  effect_mono := assigned_effect_mono p kind

end Reaching

/-! ## Both analyses agree -/

/-- On either graph of a verified program, a variable is in the map of constants before or after a
node if and only if a definition of the variable reaches that point. -/
theorem Program.Verified.known_iff_definition_reaches {p : Program} (hp : p.Verified)
    (kind : GraphKind) :
    (Constants.problem (p.graph kind)).EndsWith fun envIns envOuts =>
      (Reaching.problem (p.graph kind)).EndsWith fun ins outs =>
        ∀ n ∈ (p.graph kind).nodes, ∀ x,
          (x ∈ (envIns n).keys ↔ ∃ i t, p.Writes i x ∧
            (Reaching.tags (p.graph kind)).get? i = some t ∧ t ∈ ins n) ∧
          (x ∈ (envOuts n).keys ↔ ∃ i t, p.Writes i x ∧
            (Reaching.tags (p.graph kind)).get? i = some t ∧ t ∈ outs n) := by
  have hw := hp.wellFormed
  refine (Constants.ends (hw.graph kind)).imp fun envIns envOuts hconst => ?_
  refine (Reaching.ends (hw.graph kind)).imp fun ins outs hreach => ?_
  intro n hn x
  have hknown := (Constants.abstractedBy_assigned p kind).leastSolution_map hconst
  have hreaches := (Reaching.abstractedBy_assigned hw kind).leastSolution_map hreach
  obtain ⟨hin, hout⟩ := hknown.unique hreaches n hn
  have hkeys : ∀ m : ConstMap, x ∈ m.keys ↔ x ∈ Constants.domain m.reading := by
    intro m
    rw [Table.mem_keys_iff, ← Option.isSome_iff_exists, ← Option.ne_none_iff_isSome]
    exact not_congr ConstMap.reading_eq_bot_iff.symm
  rw [hkeys, hkeys]
  exact ⟨Set.ext_iff.mp hin x, Set.ext_iff.mp hout x⟩

/-- Before the block of the loop, the counter is known if one of its two definitions gets there. -/
theorem Program.countdown_known_iff_definition_reaches :
    countdown.Verified ∧
    (Constants.problem (countdown.graph .blocks)).EndsWith fun envIns _ =>
      (Reaching.problem (countdown.graph .blocks)).EndsWith fun ins _ =>
        ("n" ∈ (envIns 1).keys ↔ "d1" ∈ ins 1 ∨ "d2" ∈ ins 1) := by
  refine ⟨verified_countdown, (verified_countdown.known_iff_definition_reaches .blocks).imp
    fun envIns _ h => h.imp fun ins _ hagree => ?_⟩
  have hfirst : (Reaching.tags (countdown.graph .blocks)).get? 0 = some "d1" := by decide
  have hsecond : (Reaching.tags (countdown.graph .blocks)).get? 1 = some "d2" := by decide
  rw [(hagree 1 (by decide) "n").1]
  constructor
  · rintro ⟨i, t, ⟨instr, hi, hx⟩, ht, hmem⟩
    have hids : i ∈ [0, 1, 2] := verified_countdown.wellFormed.mem_ids_iff.mpr ⟨instr, hi⟩
    simp only [List.mem_cons, List.not_mem_nil, or_false] at hids
    rcases hids with rfl | rfl | rfl
    · rw [hfirst] at ht
      exact .inl (Option.some.inj ht ▸ hmem)
    · rw [hsecond] at ht
      exact .inr (Option.some.inj ht ▸ hmem)
    · obtain rfl := Option.some.inj hi
      cases hx
  · rintro (hmem | hmem)
    · exact ⟨0, "d1", ⟨_, rfl, rfl⟩, hfirst, hmem⟩
    · exact ⟨1, "d2", ⟨_, rfl, rfl⟩, hsecond, hmem⟩

end FlowTrace
