import FlowTrace.Dataflow.Run
import Mathlib.Order.Bounds.Basic
import Mathlib.Order.Monotone.Basic

/-!
# Systems of dataflow equations

Each node has a merged and a flowed value in some ordered type.  The merged value is the least upper
bound of the node's boundary value and the flowed values of its sources; the flowed value is the
effect of the node on the merged one.

Half steps raise one value of one node at a time.  Three facts hold however they are mixed: the
merged values never exceed what their equations ask, neither do the flowed values, and all values
stay below every family that is closed under the equations.  A half step that changes nothing shows
that its equation holds, so values with no half step left are the least solution.
-/

namespace FlowTrace

variable {β : Type} {half : Half} {n : NodeId}

/-- Equations for two values of each node. -/
structure System (β : Type) where
  nodes : Set NodeId
  boundary : NodeId → β
  sources : NodeId → Set NodeId
  effect : NodeId → β → β

/-- Two values for each node. -/
@[ext] structure Family (β : Type) where
  merged : NodeId → β
  flowed : NodeId → β

namespace System

variable [PartialOrder β] {S : System β} {x y z : Family β}

/-- Values that are not below what the equations ask. -/
structure Closed (S : System β) (x : Family β) : Prop where
  boundary_le : ∀ n ∈ S.nodes, S.boundary n ≤ x.merged n
  source_le : ∀ n ∈ S.nodes, ∀ s ∈ S.sources n, x.flowed s ≤ x.merged n
  effect_le : ∀ n ∈ S.nodes, S.effect n (x.merged n) ≤ x.flowed n

/-- The equation of the merged value of a node. -/
def Merges (S : System β) (x : Family β) (n : NodeId) : Prop :=
  IsLUB (insert (S.boundary n) (x.flowed '' S.sources n)) (x.merged n)

/-- The equation of the flowed value of a node. -/
def Flows (S : System β) (x : Family β) (n : NodeId) : Prop :=
  x.flowed n = S.effect n (x.merged n)

/-- All equations hold. -/
def Solves (S : System β) (x : Family β) : Prop := ∀ n ∈ S.nodes, S.Merges x n ∧ S.Flows x n

/-- One family is below another at every node of the system. -/
def Below (S : System β) (x y : Family β) : Prop :=
  ∀ n ∈ S.nodes, x.merged n ≤ y.merged n ∧ x.flowed n ≤ y.flowed n

/-- A solution that is below every closed family. -/
structure LeastSolution (S : System β) (x : Family β) : Prop where
  solves : S.Solves x
  below : ∀ y, S.Closed y → S.Below x y

theorem Merges.iff : S.Merges x n ↔
    S.boundary n ≤ x.merged n ∧ (∀ s ∈ S.sources n, x.flowed s ≤ x.merged n) ∧
      ∀ u, S.boundary n ≤ u → (∀ s ∈ S.sources n, x.flowed s ≤ u) → x.merged n ≤ u := by
  simp only [Merges, IsLUB, IsLeast, upperBounds, lowerBounds, Set.mem_ofPred_eq,
    Set.mem_insert_iff, Set.mem_image, forall_eq_or_imp, forall_exists_index, and_imp,
    forall_apply_eq_imp_iff₂, and_assoc]

theorem Solves.closed (h : S.Solves x) : S.Closed x where
  boundary_le n hn := (Merges.iff.mp (h n hn).1).1
  source_le n hn := (Merges.iff.mp (h n hn).1).2.1
  effect_le n hn := (h n hn).2.ge

/-- There is one least solution on the nodes. -/
theorem LeastSolution.unique (hx : S.LeastSolution x) (hy : S.LeastSolution y) :
    ∀ n ∈ S.nodes, x.merged n = y.merged n ∧ x.flowed n = y.flowed n := by
  intro n hn
  have hxy := hx.below y hy.solves.closed n hn
  have hyx := hy.below x hx.solves.closed n hn
  exact ⟨le_antisymm hxy.1 hyx.1, le_antisymm hxy.2 hyx.2⟩

/-! ## Half steps -/

/-- A half of a visit to a node.  What a transfer makes of a flowed value that is not below the
effect is left open. -/
inductive HalfStep (S : System β) (n : NodeId) (x : Family β) : Half → Family β → Prop where
  | merge {v : β} (hv : IsLUB (insert (x.merged n) (x.flowed '' S.sources n)) v) :
      HalfStep S n x .merge { x with merged := Function.update x.merged n v }
  | transfer {v : β} (hv : x.flowed n ≤ S.effect n (x.merged n) → v = S.effect n (x.merged n)) :
      HalfStep S n x .transfer { x with flowed := Function.update x.flowed n v }

/-- What half steps keep: no value exceeds what its equation asks. -/
structure Sound (S : System β) (x : Family β) : Prop where
  boundary_le : ∀ n ∈ S.nodes, S.boundary n ≤ x.merged n
  merged_le : ∀ n ∈ S.nodes, ∀ u, S.boundary n ≤ u → (∀ s ∈ S.sources n, x.flowed s ≤ u) →
    x.merged n ≤ u
  flowed_le : ∀ n ∈ S.nodes, x.flowed n ≤ S.effect n (x.merged n)

/-- The value that a merge puts in. -/
theorem merged_le_of_isLUB {v : β} (hv : IsLUB (insert (x.merged n) (x.flowed '' S.sources n)) v) :
    x.merged n ≤ v ∧ (∀ s ∈ S.sources n, x.flowed s ≤ v) ∧
      ∀ u, x.merged n ≤ u → (∀ s ∈ S.sources n, x.flowed s ≤ u) → v ≤ u := by
  refine ⟨hv.1 (Set.mem_insert _ _), ?_, ?_⟩
  · intro s hs
    exact hv.1 (Set.mem_insert_of_mem _ ⟨s, hs, rfl⟩)
  · intro u hm hf
    apply hv.2
    rintro _ (rfl | ⟨s, hs, rfl⟩)
    · exact hm
    · exact hf s hs

namespace Sound

/-- A half step only raises values. -/
theorem le_of_halfStep (hx : S.Sound x) (hn : n ∈ S.nodes) (h : S.HalfStep n x half y) :
    x.merged ≤ y.merged ∧ x.flowed ≤ y.flowed := by
  cases h with
  | merge hv =>
    refine ⟨fun m => ?_, le_rfl⟩
    by_cases hm : m = n
    · subst hm
      simpa using (merged_le_of_isLUB hv).1
    · simp [Function.update_of_ne hm]
  | transfer hv =>
    refine ⟨le_rfl, fun m => ?_⟩
    by_cases hm : m = n
    · subst hm
      simpa [hv (hx.flowed_le m hn)] using hx.flowed_le m hn
    · simp [Function.update_of_ne hm]

theorem halfStep (hx : S.Sound x) (hmono : ∀ n, Monotone (S.effect n)) (hn : n ∈ S.nodes)
    (h : S.HalfStep n x half y) : S.Sound y := by
  obtain ⟨hmerged, hflowed⟩ := hx.le_of_halfStep hn h
  refine ⟨fun m hm => (hx.boundary_le m hm).trans (hmerged m), ?_, ?_⟩
  · intro m hm u hb hs
    cases h with
    | merge hv =>
      by_cases hmn : m = n
      · subst hmn
        have hold : x.merged m ≤ u := hx.merged_le m hm u hb hs
        simpa using (merged_le_of_isLUB hv).2.2 u hold hs
      · simpa [Function.update_of_ne hmn] using hx.merged_le m hm u hb hs
    | transfer hv =>
      -- The flowed values have risen, so the bound on them was one before.
      exact hx.merged_le m hm u hb fun s hsm => (hflowed s).trans (hs s hsm)
  · intro m hm
    cases h with
    | merge hv => exact (hx.flowed_le m hm).trans (hmono m (hmerged m))
    | transfer hv =>
      by_cases hmn : m = n
      · subst hmn
        simp [hv (hx.flowed_le m hm)]
      · simpa [Function.update_of_ne hmn] using hx.flowed_le m hm

/-- Values below a closed family stay below it. -/
theorem below_halfStep (hx : S.Sound x) (hmono : ∀ n, Monotone (S.effect n))
    (hsrc : ∀ n ∈ S.nodes, S.sources n ⊆ S.nodes) (hz : S.Closed z) (hxz : S.Below x z)
    (hn : n ∈ S.nodes) (h : S.HalfStep n x half y) : S.Below y z := by
  intro m hm
  cases h with
  | merge hv =>
    refine ⟨?_, (hxz m hm).2⟩
    by_cases hmn : m = n
    · subst hmn
      have hle := (merged_le_of_isLUB hv).2.2 (z.merged m) (hxz m hm).1
        fun s hs => (hxz s (hsrc m hm hs)).2.trans (hz.source_le m hm s hs)
      simpa using hle
    · simpa [Function.update_of_ne hmn] using (hxz m hm).1
  | transfer hv =>
    refine ⟨(hxz m hm).1, ?_⟩
    by_cases hmn : m = n
    · subst hmn
      have hle := (hmono m (hxz m hm).1).trans (hz.effect_le m hm)
      simpa [hv (hx.flowed_le m hm)] using hle
    · simpa [Function.update_of_ne hmn] using (hxz m hm).2

/-- A merge that changes nothing shows that its equation holds. -/
theorem merges_of_halfStep (hx : S.Sound x) (hn : n ∈ S.nodes) (h : S.HalfStep n x .merge y)
    (hxy : y = x) : S.Merges x n := by
  rw [Merges.iff]
  refine ⟨hx.boundary_le n hn, ?_, hx.merged_le n hn⟩
  cases h with
  | @merge v hv =>
    have hv' : v = x.merged n := by simpa using congrFun (congrArg Family.merged hxy) n
    rw [hv'] at hv
    exact (merged_le_of_isLUB hv).2.1

/-- A transfer that changes nothing shows that its equation holds. -/
theorem flows_of_halfStep (hx : S.Sound x) (hn : n ∈ S.nodes) (h : S.HalfStep n x .transfer y)
    (hxy : y = x) : S.Flows x n := by
  cases h with
  | @transfer v hv =>
    have hv' : v = x.flowed n := by simpa using congrFun (congrArg Family.flowed hxy) n
    exact hv'.symm.trans (hv (hx.flowed_le n hn))

end Sound

end System

end FlowTrace
