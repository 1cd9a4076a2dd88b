import FlowTrace.Proofs.Dataflow.System
import Mathlib.Data.List.Induction
import Mathlib.Order.BoundedOrder.Basic

/-!
# Granularity

One system of equations refines another if each node of the coarse one stands for a chain of nodes
of the fine one: control passes along a chain and enters it at its head only.  The effect of a
coarse node is that of its chain, one node after the other.  Then the least solution of the coarse
system, carried along the chains, is the least solution of the fine one.
-/

namespace FlowTrace.System

variable {β : Type} {C F : System β} {chain : NodeId → List NodeId} {x y z : Family β}
  {n i j l : NodeId} {pre post : List NodeId}

/-- The effects of some nodes, one after the other. -/
def along (F : System β) (l : List NodeId) (v : β) : β := l.foldl (fun v i => F.effect i v) v

@[simp] theorem along_nil (F : System β) (v : β) : F.along [] v = v := rfl

theorem along_append (F : System β) (l l' : List NodeId) (v : β) :
    F.along (l ++ l') v = F.along l' (F.along l v) := List.foldl_append

theorem along_snoc (F : System β) (l : List NodeId) (v : β) :
    F.along (l ++ [i]) v = F.effect i (F.along l v) := along_append F l [i] v

/-- Values of the fine system that are those of the coarse one, carried along the chains. -/
structure Extends (C F : System β) (chain : NodeId → List NodeId) (x z : Family β) : Prop where
  merged_eq : ∀ {n pre j post}, n ∈ C.nodes → chain n = pre ++ j :: post →
    z.merged j = F.along pre (x.merged n)
  flowed_eq : ∀ j, z.flowed j = F.effect j (z.merged j)

/-- A value that comes to a coarse node comes to the head of its chain. -/
theorem Extends.merged_head (hz : Extends C F chain x z) (hn : n ∈ C.nodes) {f : NodeId}
    {rest : List NodeId} (hf : chain n = f :: rest) : z.merged f = x.merged n := by
  have hsplit : chain n = [] ++ f :: rest := hf
  exact hz.merged_eq hn hsplit

variable [PartialOrder β]

theorem along_mono (hmono : ∀ i, Monotone (F.effect i)) (l : List NodeId) :
    Monotone (F.along l) := by
  induction l with
  | nil => exact monotone_id
  | cons i l ih => exact fun v w h => ih (hmono i h)

variable [OrderBot β]

/-- The nodes of the coarse system stand for chains of the fine one. -/
structure Refines (C F : System β) (chain : NodeId → List NodeId) : Prop where
  sources_mem : ∀ {n s}, n ∈ C.nodes → s ∈ C.sources n → s ∈ C.nodes
  ne_nil : ∀ {n}, n ∈ C.nodes → chain n ≠ []
  mem_iff : ∀ {j}, j ∈ F.nodes ↔ ∃ n ∈ C.nodes, j ∈ chain n
  /-- No fine node has two places. -/
  place_unique : ∀ {n n' pre pre' post post' j}, n ∈ C.nodes → n' ∈ C.nodes →
    chain n = pre ++ j :: post → chain n' = pre' ++ j :: post' → n = n' ∧ pre = pre'
  effect_mono : ∀ i, Monotone (F.effect i)
  effect_eq : ∀ {n}, n ∈ C.nodes → ∀ v, C.effect n v = F.along (chain n) v
  /-- What comes to the head of a chain comes from the ends of chains. -/
  head : ∀ {n f rest}, n ∈ C.nodes → chain n = f :: rest → F.boundary f = C.boundary n ∧
    ∀ a, a ∈ F.sources f ↔ ∃ s ∈ C.sources n, (chain s).getLast? = some a
  /-- What comes to another node of a chain comes from the node before. -/
  inner : ∀ {n pre i j post}, n ∈ C.nodes → chain n = pre ++ i :: j :: post →
    F.boundary j = ⊥ ∧ F.sources j = {i}

namespace Refines

/-- Where a fine node stands. -/
theorem exists_place (h : Refines C F chain) (hj : j ∈ F.nodes) :
    ∃ n pre post, n ∈ C.nodes ∧ chain n = pre ++ j :: post := by
  obtain ⟨n, hn, hmem⟩ := h.mem_iff.mp hj
  obtain ⟨pre, post, hsplit⟩ := List.append_of_mem hmem
  exact ⟨n, pre, post, hn, hsplit⟩

theorem exists_extends (h : Refines C F chain) (x : Family β) : ∃ z, Extends C F chain x z := by
  have hvalue : ∀ j, ∃ v, ∀ n pre post, n ∈ C.nodes → chain n = pre ++ j :: post →
      v = F.along pre (x.merged n) := by
    intro j
    by_cases hj : j ∈ F.nodes
    · obtain ⟨n, pre, post, hn, hsplit⟩ := h.exists_place hj
      refine ⟨F.along pre (x.merged n), fun n' pre' post' hn' hsplit' => ?_⟩
      obtain ⟨rfl, rfl⟩ := h.place_unique hn hn' hsplit hsplit'
      rfl
    · refine ⟨⊥, fun n pre post hn hsplit => absurd (h.mem_iff.mpr ⟨n, hn, ?_⟩) hj⟩
      simp [hsplit]
  choose value hvalue using hvalue
  exact ⟨⟨value, fun j => F.effect j (value j)⟩, fun hn hsplit => hvalue _ _ _ _ hn hsplit,
    fun _ => rfl⟩

/-- Values that are closed under the fine equations grow along a chain. -/
theorem along_le (h : Refines C F chain) (hy : F.Closed y) (hn : n ∈ C.nodes) {f : NodeId}
    {rest : List NodeId} (hf : chain n = f :: rest) (hsplit : chain n = pre ++ j :: post) :
    F.along pre (y.merged f) ≤ y.merged j := by
  -- From the right, since the equation of a node names the node before it.
  induction pre using List.reverseRecOn generalizing j post with
  | nil =>
    rw [hf] at hsplit
    rw [along_nil, (List.cons.inj hsplit).1]
  | append_singleton pre i ih =>
    have hsplit' : chain n = pre ++ i :: j :: post := by simpa using hsplit
    have hi : i ∈ F.nodes := h.mem_iff.mpr ⟨n, hn, by simp [hsplit']⟩
    have hj : j ∈ F.nodes := h.mem_iff.mpr ⟨n, hn, by simp [hsplit]⟩
    have hsource : i ∈ F.sources j := by
      rw [(h.inner hn hsplit').2]
      rfl
    rw [along_snoc]
    calc F.effect i (F.along pre (y.merged f)) ≤ F.effect i (y.merged i) :=
          h.effect_mono i (ih hsplit')
      _ ≤ y.flowed i := hy.effect_le i hi
      _ ≤ y.merged j := hy.source_le j hj i hsource

/-- Values of the coarse system: those at the two ends of the chains. -/
def ends (chain : NodeId → List NodeId) (y : Family β) : Family β where
  merged n := (chain n).head?.elim ⊥ y.merged
  flowed n := (chain n).getLast?.elim ⊥ y.flowed

theorem merged_ends (y : Family β) {f : NodeId} {rest : List NodeId} (hf : chain n = f :: rest) :
    (ends chain y).merged n = y.merged f := by
  simp [ends, hf]

theorem flowed_ends (y : Family β) (hl : (chain n).getLast? = some l) :
    (ends chain y).flowed n = y.flowed l := by
  simp [ends, hl]

theorem closed_ends (h : Refines C F chain) (hy : F.Closed y) : C.Closed (ends chain y) := by
  refine ⟨fun n hn => ?_, fun n hn s hs => ?_, fun n hn => ?_⟩
  · obtain ⟨f, rest, hf⟩ := List.exists_cons_of_ne_nil (h.ne_nil hn)
    have hmem : f ∈ F.nodes := h.mem_iff.mpr ⟨n, hn, by simp [hf]⟩
    rw [merged_ends y hf, ← (h.head hn hf).1]
    exact hy.boundary_le f hmem
  · obtain ⟨f, rest, hf⟩ := List.exists_cons_of_ne_nil (h.ne_nil hn)
    have hmem : f ∈ F.nodes := h.mem_iff.mpr ⟨n, hn, by simp [hf]⟩
    have hlast := List.getLast?_eq_some_getLast (h.ne_nil (h.sources_mem hn hs))
    have hsource := ((h.head hn hf).2 _).mpr ⟨s, hs, hlast⟩
    rw [merged_ends y hf, flowed_ends y hlast]
    exact hy.source_le f hmem _ hsource
  · obtain ⟨f, rest, hf⟩ := List.exists_cons_of_ne_nil (h.ne_nil hn)
    have hlast := List.getLast?_eq_some_getLast (h.ne_nil hn)
    obtain ⟨pre, hpre⟩ := List.getLast?_eq_some_iff.mp hlast
    have hmem := h.mem_iff.mpr ⟨n, hn, List.getLast_mem (h.ne_nil hn)⟩
    have hle := (h.effect_mono _ (h.along_le hy hn hf hpre)).trans (hy.effect_le _ hmem)
    rw [← along_snoc, ← hpre, ← h.effect_eq hn] at hle
    rw [merged_ends y hf, flowed_ends y hlast]
    exact hle

end Refines

namespace Extends

/-- A value that leaves a coarse node leaves the last node of its chain. -/
theorem flowed_last (hz : Extends C F chain x z) (h : Refines C F chain) (hx : C.Flows x n)
    (hn : n ∈ C.nodes) (hl : (chain n).getLast? = some l) : z.flowed l = x.flowed n := by
  obtain ⟨pre, hpre⟩ := List.getLast?_eq_some_iff.mp hl
  rw [hz.flowed_eq, hz.merged_eq hn hpre, ← along_snoc, ← hpre, ← h.effect_eq hn]
  exact hx.symm

theorem merges_head (hz : Extends C F chain x z) (h : Refines C F chain) (hx : C.Solves x)
    (hn : n ∈ C.nodes) {f : NodeId} {rest : List NodeId} (hf : chain n = f :: rest) :
    F.Merges z f := by
  obtain ⟨hboundary, hsources⟩ := h.head hn hf
  have himage : z.flowed '' F.sources f = x.flowed '' C.sources n := by
    ext v
    constructor
    · rintro ⟨a, ha, rfl⟩
      obtain ⟨s, hs, hlast⟩ := (hsources a).mp ha
      have hsmem := h.sources_mem hn hs
      exact ⟨s, hs, (hz.flowed_last h (hx s hsmem).2 hsmem hlast).symm⟩
    · rintro ⟨s, hs, rfl⟩
      have hsmem := h.sources_mem hn hs
      have hlast := List.getLast?_eq_some_getLast (h.ne_nil hsmem)
      exact ⟨_, (hsources _).mpr ⟨s, hs, hlast⟩, hz.flowed_last h (hx s hsmem).2 hsmem hlast⟩
  rw [Merges, hboundary, himage, hz.merged_head hn hf]
  exact (hx n hn).1

theorem merges_inner (hz : Extends C F chain x z) (h : Refines C F chain) (hn : n ∈ C.nodes)
    (hsplit : chain n = pre ++ i :: j :: post) : F.Merges z j := by
  obtain ⟨hboundary, hsources⟩ := h.inner hn hsplit
  have hsnoc : chain n = (pre ++ [i]) ++ j :: post := by simpa using hsplit
  have hj : z.merged j = z.flowed i := by
    rw [hz.flowed_eq, hz.merged_eq hn hsplit, ← along_snoc]
    exact hz.merged_eq hn hsnoc
  rw [Merges, hboundary, hsources, Set.image_singleton, hj]
  constructor
  · rintro v (rfl | rfl)
    · exact bot_le
    · exact le_rfl
  · exact fun u hu => hu (Set.mem_insert_of_mem _ rfl)

/-- The least solution of the coarse system, carried along the chains, is the least solution of the
fine system. -/
theorem leastSolution (hz : Extends C F chain x z) (h : Refines C F chain)
    (hx : C.LeastSolution x) : F.LeastSolution z := by
  refine ⟨fun j hj => ⟨?_, hz.flowed_eq j⟩, fun y hy => ?_⟩
  · obtain ⟨n, pre, post, hn, hsplit⟩ := h.exists_place hj
    rcases List.eq_nil_or_concat pre with rfl | ⟨pre, i, rfl⟩
    · exact hz.merges_head h hx.solves hn hsplit
    · exact hz.merges_inner h hn (by simpa using hsplit)
  · have hcoarse := hx.below _ (h.closed_ends hy)
    have hmerged : ∀ j ∈ F.nodes, z.merged j ≤ y.merged j := by
      intro j hj
      obtain ⟨n, pre, post, hn, hsplit⟩ := h.exists_place hj
      obtain ⟨f, rest, hf⟩ := List.exists_cons_of_ne_nil (h.ne_nil hn)
      have hle := (hcoarse n hn).1
      rw [Refines.merged_ends y hf] at hle
      rw [hz.merged_eq hn hsplit]
      exact (along_mono h.effect_mono pre hle).trans (h.along_le hy hn hf hsplit)
    intro j hj
    rw [hz.flowed_eq]
    exact ⟨hmerged j hj, (h.effect_mono j (hmerged j hj)).trans (hy.effect_le j hj)⟩

end Extends

/-! ## Least solutions agree -/

namespace Refines

/-- Along a chain, the least solution of the fine system is that of the coarse one, carried on. -/
theorem merged_eq (h : Refines C F chain) (hx : C.LeastSolution x) (hy : F.LeastSolution y)
    (hn : n ∈ C.nodes) (hsplit : chain n = pre ++ j :: post) :
    y.merged j = F.along pre (x.merged n) := by
  obtain ⟨z, hz⟩ := h.exists_extends x
  have hj : j ∈ F.nodes := h.mem_iff.mpr ⟨n, hn, by simp [hsplit]⟩
  rw [← (hz.leastSolution h hx).unique hy j hj |>.1, hz.merged_eq hn hsplit]

/-- The least solutions of both systems agree where a chain starts. -/
theorem merged_head_eq (h : Refines C F chain) (hx : C.LeastSolution x) (hy : F.LeastSolution y)
    (hn : n ∈ C.nodes) {f : NodeId} (hf : (chain n).head? = some f) : y.merged f = x.merged n := by
  obtain ⟨rest, hrest⟩ := List.head?_eq_some_iff.mp hf
  have hsplit : chain n = [] ++ f :: rest := hrest
  exact h.merged_eq hx hy hn hsplit

/-- The least solutions of both systems agree where a chain ends. -/
theorem flowed_last_eq (h : Refines C F chain) (hx : C.LeastSolution x) (hy : F.LeastSolution y)
    (hn : n ∈ C.nodes) (hl : (chain n).getLast? = some l) : y.flowed l = x.flowed n := by
  obtain ⟨z, hz⟩ := h.exists_extends x
  have hmem : l ∈ F.nodes := h.mem_iff.mpr ⟨n, hn, List.mem_of_mem_getLast? hl⟩
  rw [← (hz.leastSolution h hx).unique hy l hmem |>.2, hz.flowed_last h (hx.solves n hn).2 hn hl]

end Refines

end FlowTrace.System
