import FlowTrace.Proofs.Dataflow.LeastSolution
import FlowTrace.Proofs.Dataflow.Transfer

/-!
# Live variables are those read on some path

In the graph of single instructions, a variable is live before a node if and only if a path from
there leads to an instruction that reads it, or to the exit where it was said to be live, and no
instruction on the way writes it.  One half follows the path from its end; for the other half, the
variables with such a path are closed under the equations, and the facts are below whatever is.
-/

namespace FlowTrace.Liveness

variable {p : Program} {liveOut : NameSet} {rule : Option Bool} {n : NodeId} {x : String}

/-- A path to a place where the variable is wanted, on which it is not written before. -/
def LivePath (p : Program) (liveOut : NameSet) (n : NodeId) (x : String) : Prop :=
  ∃ path k, (p.graph .single).Path n path k ∧ (∀ j ∈ path, ¬ p.Writes j x) ∧
    (p.Reads k x ∨ (k = (p.graph .single).exit ∧ x ∈ liveOut))

/-- The variables that have such paths, before and after each node. -/
def livePaths (p : Program) (liveOut : NameSet) : Family (Set String) where
  merged n := {x | (n = (p.graph .single).exit ∧ x ∈ liveOut) ∨
    ∃ s, (p.graph .single).hasEdge n s = true ∧ LivePath p liveOut s x}
  flowed n := {x | LivePath p liveOut n x}

theorem LivePath.cons {a b : NodeId} (hab : (p.graph .single).hasEdge a b = true)
    (hwrites : ¬ p.Writes a x) (h : LivePath p liveOut b x) : LivePath p liveOut a x := by
  obtain ⟨path, k, hpath, hclean, hend⟩ := h
  refine ⟨a :: path, k, .cons hab hpath, ?_, hend⟩
  intro j hj
  rcases List.mem_cons.mp hj with rfl | hj
  · exact hwrites
  · exact hclean j hj

theorem closed_livePaths (hp : p.WellFormed) :
    (gainLoss (p.graph .single) liveOut rule).reading.system.Closed (livePaths p liveOut) where
  boundary_le n hn := by
    rw [boundary_eq]
    exact fun x hx => .inl hx
  source_le n hn s hs x hx := .inr ⟨s, hs, hx⟩
  effect_le n hn x hx := by
    rcases (mem_liveBefore_single hp rule n _ x).mp hx with hread | ⟨hlive, hwrites⟩
    · exact ⟨[], n, .nil n, by simp, .inl hread⟩
    · rcases hlive with ⟨rfl, hout⟩ | ⟨s, hs, hpath⟩
      · exact ⟨[], _, .nil _, by simp, .inr ⟨rfl, hout⟩⟩
      · exact hpath.cons hs hwrites

/-- A path makes a variable live in all facts that are closed under the equations. -/
theorem LivePath.mem_flowed (hp : p.WellFormed) {y : Family (Set String)}
    (hy : (gainLoss (p.graph .single) liveOut rule).reading.system.Closed y)
    (hn : n ∈ (p.graph .single).nodes) (h : LivePath p liveOut n x) : x ∈ y.flowed n := by
  obtain ⟨path, k, hpath, hclean, hend⟩ := h
  have hflow : ∀ m ∈ (p.graph .single).nodes, p.Reads m x ∨ (x ∈ y.merged m ∧ ¬ p.Writes m x) →
      x ∈ y.flowed m := fun m hm hx =>
    hy.effect_le m hm ((mem_liveBefore_single hp rule m _ x).mpr hx)
  -- From the end of the path back to its start: what is live after a node lives through it.
  induction hpath with
  | nil k =>
    rcases hend with hread | ⟨rfl, hout⟩
    · exact hflow k hn (.inl hread)
    · have hboundary := hy.boundary_le _ hn
      rw [boundary_eq] at hboundary
      exact hflow _ hn (.inr ⟨hboundary ⟨rfl, hout⟩,
        hp.not_writes_of_notMem hp.graph_exit_notMem x⟩)
  | @cons a b c rest hab _ ih =>
    have hb := ((hp.graph .single).mem_of_hasEdge hab).2
    have hmem := ih hb (fun j hj => hclean j (List.mem_cons_of_mem _ hj)) hend
    exact hflow a hn (.inr ⟨hy.source_le a hn b hab hmem, hclean a List.mem_cons_self⟩)

end FlowTrace.Liveness

namespace FlowTrace

/-- A variable is live before a node of the graph of single instructions if and only if it is read
on some path before it is written, or lives at the exit and no instruction of some path to the exit
writes it. -/
theorem Program.Verified.live_iff_read_on_path {p : Program} (hp : p.Verified) (liveOut : NameSet)
    (rule : Option Bool) :
    (Liveness.problem (p.graph .single) liveOut rule).EndsWith fun ins outs =>
      (∀ i ∈ (p.graph .single).nodes, ∀ x, x ∈ ins i ↔
        ∃ path k, (p.graph .single).Path i path k ∧ (∀ j ∈ path, ¬ p.Writes j x) ∧
          (p.Reads k x ∨ (k = (p.graph .single).exit ∧ x ∈ liveOut))) ∧
      (∀ i ∈ (p.graph .single).nodes, i ≠ (p.graph .single).exit → ∀ x,
        x ∈ outs i ↔ ∃ s, (p.graph .single).hasEdge i s = true ∧ x ∈ ins s) ∧
      outs (p.graph .single).exit = liveOut := by
  have hw := hp.wellFormed
  refine (Liveness.ends (hw.graph .single) liveOut rule).imp fun ins outs h => ?_
  have heq := (Liveness.solves_iff (hw.graph .single)).mp h.solves
  refine ⟨fun i hi x => ⟨fun hx => ?_, fun hx => ?_⟩, heq.out_eq, heq.out_exit⟩
  · exact (h.below _ (Liveness.closed_livePaths hw) i hi).2 hx
  · exact Liveness.LivePath.mem_flowed hw h.solves.closed hi hx

/-- The counter is live where the loop starts, and not before it is set. -/
theorem Program.countdown_live_iff_read_on_path :
    countdown.Verified ∧ (Liveness.problem (countdown.graph .single) ∅ none).EndsWith
      fun ins _ => "n" ∈ ins 1 ∧ "n" ∉ ins 0 := by
  refine ⟨verified_countdown,
    (verified_countdown.live_iff_read_on_path ∅ none).imp fun ins _ h => ⟨?_, fun hn => ?_⟩⟩
  · exact (h.1 1 (by decide) "n").mpr ⟨[], 1, .nil 1, by simp, .inl ⟨_, rfl, by decide⟩⟩
  · obtain ⟨path, k, hpath, hclean, hend⟩ := (h.1 0 (by decide) "n").mp hn
    cases hpath with
    | nil =>
      rcases hend with ⟨instr, hinstr, hread⟩ | ⟨hexit, -⟩
      · obtain rfl := Option.some.inj hinstr
        revert hread
        decide
      · revert hexit
        decide
    | cons => exact hclean 0 List.mem_cons_self ⟨_, rfl, rfl⟩

end FlowTrace
