import FlowTrace.Proofs.Dataflow.Reading
import Mathlib.Algebra.Group.Action.Defs
import Mathlib.Algebra.Order.BigOperators.Group.List
import Mathlib.Algebra.Order.Ring.Nat
import Mathlib.Tactic.Ring

/-!
# Facts rise

The facts of a run start at the boundary and rise from there.  They are *grounded* throughout: every
node has both facts, no fact exceeds what its equation asks, and all are below every closed family.
Where the facts have a finite height, the sum of their ranks bounds the number of half visits that
change something.
-/

namespace FlowTrace.Problem.Reading

variable {α β : Type} [SemilatticeSup β] [OrderBot β] {p : Problem α} {R : p.Reading β}
  {s : Stores α} {r : Run α} {n : NodeId}

/-! ## Grounded facts -/

/-- What every half visit keeps, whenever it is made. -/
structure Grounded (R : p.Reading β) (s : Stores α) : Prop where
  total : s.Total p.graph.nodes
  sound : R.system.Sound (R.family s)
  below : ∀ z, R.system.Closed z → R.system.Below (R.family s) z

@[simp] theorem family_reset (R : p.Reading β) (s : Stores α) : R.family s.reset = R.family s :=
  Family.ext (R.reads_congr s.merged.peek?_reset) (R.reads_congr s.flowed.peek?_reset)

theorem Grounded.reset (h : R.Grounded s) : R.Grounded s.reset where
  total := ⟨h.total.total_mark Observed.peek?_reset,
    h.total.merged.of_peek?_eq s.merged.peek?_reset,
    h.total.flowed.of_peek?_eq s.flowed.peek?_reset⟩
  sound := by rw [family_reset]; exact h.sound
  below := by rw [family_reset]; exact h.below

theorem peek?_tabulate {γ : Type} {g : FlowGraph} (f : NodeId → γ) (hn : n ∈ g.nodes) :
    (Observed.ofTable (g.tabulate f)).peek? n = some (f n) := by
  rw [Observed.peek?_ofTable, FlowGraph.get?_tabulate, if_pos hn]

theorem grounded_initial (R : p.Reading β) : R.Grounded (.initial p) := by
  have hmerged : ∀ n ∈ p.graph.nodes,
      (R.family (.initial p)).merged n = R.read (p.boundary n) := fun n hn =>
    R.reads_eq (peek?_tabulate p.boundary hn)
  have hflowed : ∀ n ∈ p.graph.nodes, (R.family (.initial p)).flowed n = ⊥ := fun n hn =>
    (R.reads_eq (peek?_tabulate _ hn)).trans R.read_bottom
  refine ⟨⟨?_, ?_, ?_⟩, ⟨?_, ?_, ?_⟩, ?_⟩
  · intro side hside n hn
    obtain ⟨given, hgiven, rfl⟩ := List.mem_map.mp hside
    rw [Observed.peek?_ofTable]
    exact Table.mem_keys_iff.mp ((R.described given hgiven n).mpr hn)
  · exact fun n hn => ⟨_, peek?_tabulate _ hn⟩
  · exact fun n hn => ⟨_, peek?_tabulate _ hn⟩
  · exact fun n hn => (hmerged n hn).ge
  · intro n hn u hb _
    rw [hmerged n hn]
    exact hb
  · intro n hn
    rw [hflowed n hn]
    exact bot_le
  · intro z hz n hn
    rw [hmerged n hn, hflowed n hn]
    exact ⟨hz.boundary_le n hn, bot_le⟩

/-- Every half visit to a node succeeds and keeps the facts grounded. -/
theorem Grounded.compute (h : R.Grounded r.stores) (hg : p.graph.WellFormed)
    (hr : r.problem = p) (hn : n ∈ p.graph.nodes) (half : Half) :
    ∃ changed s', r.compute half n = .ok changed { r with stores := s' } ∧ R.Grounded s' ∧
      R.system.HalfStep n (R.family r.stores) half (R.family s') ∧
      (changed = false ↔ R.family s' = R.family r.stores) := by
  subst hr
  obtain ⟨changed, s', hs, ht, hstep, hsame⟩ := R.visit_halfStep hg h.total hn half
  refine ⟨changed, s', Run.compute_of_ok hs,
    ⟨ht, h.sound.halfStep R.effect_mono hn hstep, ?_⟩, hstep, hsame⟩
  intro z hz
  exact h.sound.below_halfStep R.effect_mono (fun _ _ _ hs => hs.mem hg) hz (h.below z hz) hn hstep

/-! ## Heights -/

/-- A bound on the facts of a problem, and ranks that grow with them. -/
structure Height (R : p.Reading β) where
  ceiling : β
  rank : β → Nat
  boundary_le : ∀ n ∈ p.graph.nodes, R.read (p.boundary n) ≤ ceiling
  effect_le : ∀ n ∈ p.graph.nodes, R.effect n ceiling ≤ ceiling
  rank_lt : ∀ {a b}, a < b → b ≤ ceiling → rank a < rank b
  rank_le : ∀ {a}, a ≤ ceiling → rank a ≤ p.height

namespace Height

/-- The same bound everywhere. -/
def top (H : R.Height) : Family β := ⟨fun _ => H.ceiling, fun _ => H.ceiling⟩

@[simp] theorem top_merged (H : R.Height) (n : NodeId) : H.top.merged n = H.ceiling := rfl

@[simp] theorem top_flowed (H : R.Height) (n : NodeId) : H.top.flowed n = H.ceiling := rfl

theorem closed_top (H : R.Height) : R.system.Closed H.top where
  boundary_le := H.boundary_le
  source_le _ _ _ _ := le_rfl
  effect_le := H.effect_le

/-- The ranks of all facts together. -/
def potential (H : R.Height) (x : Family β) : Nat :=
  (p.graph.nodes.map fun n => H.rank (x.merged n) + H.rank (x.flowed n)).sum

theorem potential_le (H : R.Height) (h : R.Grounded s) :
    H.potential (R.family s) ≤ 2 * p.graph.nodes.length * p.height := by
  have hbelow := h.below H.top H.closed_top
  have hsum := List.sum_le_card_nsmul
    (p.graph.nodes.map fun n => H.rank ((R.family s).merged n) + H.rank ((R.family s).flowed n))
    (p.height + p.height) (by
      intro k hk
      obtain ⟨n, hn, rfl⟩ := List.mem_map.mp hk
      exact Nat.add_le_add (H.rank_le (hbelow n hn).1) (H.rank_le (hbelow n hn).2))
  rw [List.length_map, smul_eq_mul] at hsum
  calc H.potential (R.family s) ≤ p.graph.nodes.length * (p.height + p.height) := hsum
    _ = 2 * p.graph.nodes.length * p.height := by ring

/-- Ranks do not fall where values do not. -/
theorem rank_mono (H : R.Height) {a b : β} (hab : a ≤ b) (hb : b ≤ H.ceiling) :
    H.rank a ≤ H.rank b := by
  rcases hab.eq_or_lt with rfl | hlt
  · exact le_rfl
  · exact (H.rank_lt hlt hb).le

/-- A half step that changes something raises the potential. -/
theorem potential_lt (H : R.Height) {x y : Family β} {half : Half}
    (hx : R.system.Sound x) (hy : R.system.Below y H.top) (hn : n ∈ p.graph.nodes)
    (hstep : R.system.HalfStep n x half y) (hne : y ≠ x) : H.potential x < H.potential y := by
  obtain ⟨hmerged, hflowed⟩ := hx.le_of_halfStep hn hstep
  apply List.sum_lt_sum
  · intro m hm
    exact Nat.add_le_add (H.rank_mono (hmerged m) (hy m hm).1) (H.rank_mono (hflowed m) (hy m hm).2)
  · refine ⟨n, hn, ?_⟩
    -- The two families differ at the visited node only.
    cases hstep with
    | @merge v hv =>
      have hlt : x.merged n < v := by
        refine lt_of_le_of_ne (by simpa using hmerged n) ?_
        rintro rfl
        exact hne (by simp)
      have hrank := H.rank_lt hlt (by simpa using (hy n hn).1)
      simpa using hrank
    | @transfer v hv =>
      have hlt : x.flowed n < v := by
        refine lt_of_le_of_ne (by simpa using hflowed n) ?_
        rintro rfl
        exact hne (by simp)
      have hrank := H.rank_lt hlt (by simpa using (hy n hn).2)
      simpa using hrank

end Height

end FlowTrace.Problem.Reading
