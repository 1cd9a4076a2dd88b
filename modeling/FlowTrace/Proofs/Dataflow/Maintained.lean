import FlowTrace.Proofs.Dataflow.Chaotic

/-!
# What all facts of a run have in common

A property of facts that a problem starts from, and that its operations keep, holds of every fact
that a run ever shows.  Nothing is asked of the graph, and the run may be driven in any order.
-/

namespace FlowTrace

variable {α : Type}

/-- A problem starts from facts with a property and keeps to them. -/
structure Problem.Keeps (p : Problem α) (Q : α → Prop) : Prop where
  bottom : Q p.lattice.bottom
  sides : ∀ side ∈ p.sides, ∀ n v, side.2.get? n = some v → Q v
  boundary : ∀ n, Q (p.boundary n)
  join : ∀ a b, Q a → Q b → Q (p.lattice.join a b)
  transfer : ∀ n a, Q a → Q (p.transfer n a)
  absorb : ∀ a b, Q a → Q b → Q (p.absorb a b)

/-! ## Tables of facts -/

/-- A table over the nodes has no other facts than those that it is made of. -/
theorem FlowGraph.of_get?_tabulate {g : FlowGraph} {f : NodeId → α} {Q : α → Prop}
    (h : ∀ n, Q (f n)) (n : NodeId) (v : α) (hv : (g.tabulate f).get? n = some v) : Q v := by
  rw [get?_tabulate] at hv
  split at hv
  · exact Option.some.inj hv ▸ h n
  · cases hv

/-- All facts have a property. -/
def Observed.All (Q : α → Prop) (s : Observed α) : Prop := ∀ n v, s.peek? n = some v → Q v

namespace Observed.All

variable {Q : α → Prop} {s s' : Observed α} {n : NodeId}

theorem of_peek?_eq (hs : s.All Q) (h : ∀ m, s'.peek? m = s.peek? m) : s'.All Q := by
  intro m v hv
  rw [h] at hv
  exact hs m v hv

theorem look (hs : s.All Q) (n : NodeId) : (s.look n).All Q := hs.of_peek?_eq (peek?_look s n)

theorem reset (hs : s.All Q) : s.reset.All Q := hs.of_peek?_eq (peek?_reset s)

theorem of_tabulate {g : FlowGraph} {f : NodeId → α} (h : ∀ n, Q (f n)) :
    (ofTable (g.tabulate f)).All Q := by
  intro n v hv
  rw [peek?_ofTable] at hv
  exact FlowGraph.of_get?_tabulate h n v hv

theorem put {old v : α} (hs : s.All Q) (hold : s.peek? n = some old) (hv : Q v) (isNew : Bool) :
    (s.put n v isNew).All Q := by
  intro m w hw
  rw [peek?_put hold] at hw
  split at hw
  · exact Option.some.inj hw ▸ hv
  · exact hs m w hw

end Observed.All

/-! ## Runs -/

/-- The facts of a problem, all of which have a property. -/
structure Stores.Within (p : Problem α) (Q : α → Prop) (s : Stores α) : Prop where
  sideNames_eq : s.sides.map (·.1) = p.sideNames
  sides : ∀ side ∈ s.sides, side.2.All Q
  merged : s.merged.All Q
  flowed : s.flowed.All Q

/-- A snapshot of a problem, all facts of which have a property. -/
structure Snapshot.Within (p : Problem α) (Q : α → Prop) (s : Snapshot α) : Prop where
  sideNames_eq : s.sides.map (·.1) = p.sideNames
  facts : ∀ fact ∈ s.facts, fact.2.All Q

/-- A run of a problem, all facts of which have a property. -/
structure Run.Within (p : Problem α) (Q : α → Prop) (r : Run α) : Prop where
  problem_eq : r.problem = p
  stores : r.stores.Within p Q

variable {p : Problem α} {Q : α → Prop}

namespace Stores.Within

variable {s : Stores α}

theorem initial (hp : p.Keeps Q) : (Stores.initial p).Within p Q where
  sideNames_eq := by simp [Stores.initial, Problem.sideNames]
  sides := by
    intro side hside
    obtain ⟨given, hgiven, rfl⟩ := List.mem_map.mp hside
    intro n v hv
    rw [Observed.peek?_ofTable] at hv
    exact hp.sides given hgiven n v hv
  merged := .of_tabulate hp.boundary
  flowed := .of_tabulate fun _ => hp.bottom

/-- The facts that describe the nodes count without their marks. -/
theorem of_sides (h : s.Within p Q) {sides : List (String × Observed α)}
    {merged flowed : Observed α} (hsides : sides.map (fun side => (side.1, side.2.peek?)) =
      s.sides.map fun side => (side.1, side.2.peek?))
    (hmerged : merged.All Q) (hflowed : flowed.All Q) :
    Stores.Within p Q ⟨sides, merged, flowed⟩ where
  sideNames_eq := by
    rw [← h.sideNames_eq]
    simpa [Function.comp_def] using congrArg (List.map Prod.fst) hsides
  sides := by
    intro side hside
    have hmem : (side.1, side.2.peek?) ∈ s.sides.map fun side => (side.1, side.2.peek?) := by
      rw [← hsides]
      exact List.mem_map_of_mem hside
    obtain ⟨given, hgiven, heq⟩ := List.mem_map.mp hmem
    exact (h.sides given hgiven).of_peek?_eq fun m => (congrFun (congrArg Prod.snd heq) m).symm
  merged := hmerged
  flowed := hflowed

theorem lookThrough (h : s.Within p Q) (n : NodeId) :
    Stores.Within p Q ⟨(Action.lookThrough n s.sides).2, s.merged, s.flowed⟩ := by
  refine h.of_sides (Action.map_lookThrough (fun name facts => ?_) s.sides) h.merged h.flowed
  rw [funext (facts.peek?_look n)]

theorem reset (h : s.Within p Q) : s.reset.Within p Q :=
  h.of_sides (by simp [Function.comp_def, funext (Observed.peek?_reset _)])
    h.merged.reset h.flowed.reset

end Stores.Within

/-- A half visit keeps to facts with the property, also where it fails. -/
theorem Problem.Keeps.preserves_within (hp : p.Keeps Q) (half : Half) (n : NodeId) :
    (p.visit half n).Preserves (Stores.Within p Q) fun _ => True := by
  refine preserves_visit (Q := Q) ?_ ?_ ?_ ?_ ?_ half n
  · intro s n hs
    exact hs.lookThrough n
  · intro s n v hs hv
    exact ⟨hs.merged n v hv, { hs with merged := hs.merged.look n }⟩
  · intro s n v hs hv
    exact ⟨hs.flowed n v hv, { hs with flowed := hs.flowed.look n }⟩
  · intro s n old values isNew hs hold hvalues
    refine { hs with merged := hs.merged.put hold ?_ isNew }
    exact List.foldlRecOn values _ (hs.merged n old hold) fun a ha v hv =>
      hp.join a v ha (hvalues v hv)
  · intro s n old value isNew hs hold hvalue
    refine { hs with flowed := hs.flowed.put hold ?_ isNew }
    exact hp.absorb _ _ (hs.flowed n old hold) (hp.transfer n value hvalue)

namespace Run

variable {r r' : Run α} {n : NodeId} {half : Half} {s : Snapshot α}

namespace Within

/-- A direct call keeps to facts with the property, also where it fails. -/
theorem compute (hp : p.Keeps Q) (h : r.Within p Q) (half : Half) (n : NodeId) :
    (reply (r.compute half n)).2.Within p Q := by
  obtain ⟨rfl, hs⟩ := h
  obtain ⟨st, hst, hwithin⟩ := exists_stores_reply (hp.preserves_within half n) hs
  rw [hst]
  exact ⟨rfl, hwithin⟩

theorem visitHalf (hp : p.Keeps Q) (h : r.Within p Q) (half : Half) (n : NodeId) :
    (r.visitHalf half n).Within p Q := by
  have hreply := h.compute hp half n
  rw [Run.visitHalf]
  cases hc : r.compute half n with
  | ok changed r' =>
    rw [hc] at hreply
    exact ⟨hreply.problem_eq, hreply.stores⟩
  | error m r' =>
    rw [hc] at hreply
    exact hreply

theorem pause (h : r.Within p Q) (phase : Phase) (current : Option NodeId) :
    (r.pause phase current).1.Within p Q ∧ (r.pause phase current).2.Within p Q := by
  refine ⟨⟨h.stores.sideNames_eq, List.forall_mem_append.mpr ⟨h.stores.sides, ?_⟩⟩, h.problem_eq,
    h.stores.reset⟩
  have hboth : ∀ d : Direction, (r.stores.ins d).All Q ∧ (r.stores.outs d).All Q
    | .forward => ⟨h.stores.merged, h.stores.flowed⟩
    | .backward => ⟨h.stores.flowed, h.stores.merged⟩
  simpa [Run.pause] using hboth r.problem.direction

theorem next? (hp : p.Keeps Q) (h : r.Within p Q) (hs : r.next? = some (s, r')) :
    s.Within p Q ∧ r'.Within p Q := by
  -- Only the facts matter, so a run may be at any stage.
  have hstage : ∀ {r : Run α}, r.Within p Q → ∀ stage dirty sweeps,
      Run.Within p Q ⟨r.problem, r.stores, stage, dirty, sweeps⟩ :=
    fun h _ _ _ => ⟨h.problem_eq, h.stores⟩
  suffices ∃ q : Run α, q.Within p Q ∧ ∃ phase current, q.pause phase current = (s, r') by
    obtain ⟨q, hq, phase, current, hpause⟩ := this
    have hboth := hq.pause phase current
    rwa [hpause] at hboth
  unfold Run.next? at hs
  split at hs
  · exact ⟨_, hstage h _ _ _, _, _, Option.some.inj hs⟩
  · next m rest _ => exact ⟨_, hstage (h.visitHalf hp .merge m) _ _ _, _, _, Option.some.inj hs⟩
  · next m rest _ =>
    refine ⟨_, ?_, _, _, Option.some.inj hs⟩
    cases rest with
    | nil => exact hstage (h.visitHalf hp .transfer m) _ _ _
    | cons _ _ => exact hstage (h.visitHalf hp .transfer m) _ _ _
  · exact ⟨_, hstage h _ _ _, _, _, Option.some.inj hs⟩
  · cases hs

theorem ask (hp : p.Keeps Q) (h : r.Within p Q) (c : Request) :
    (∀ s, (r.ask c).1 = .shown s → s.Within p Q) ∧ (r.ask c).2.Within p Q := by
  have hdirect : ∀ half n, (∀ s, (reply (r.compute half n)).1 = .shown s → s.Within p Q) ∧
      (reply (r.compute half n)).2.Within p Q := by
    intro half n
    refine ⟨fun s hs => ?_, h.compute hp half n⟩
    have hnone := snapshot?_reply (r.compute half n)
    rw [hs] at hnone
    cases hnone
  cases c with
  | next =>
    rw [Run.ask]
    cases hs : r.next? with
    | none => exact ⟨(fun _ hs => by cases hs), h⟩
    | some e =>
      obtain ⟨hshown, hrest⟩ := h.next? hp hs
      refine ⟨fun s hs => ?_, hrest⟩
      cases hs
      exact hshown
  | computeIn n => exact hdirect r.inHalf n
  | computeOut n => exact hdirect r.outHalf n

theorem drive (hp : p.Keeps Q) (h : r.Within p Q) (cs : List Request)
    (hs : .shown s ∈ (r.drive cs).1) : s.Within p Q := by
  induction cs generalizing r with
  | nil => cases hs
  | cons c cs ih =>
    obtain ⟨hshown, hrest⟩ := h.ask hp c
    rcases List.mem_cons.mp hs with hs | hs
    · exact hshown s hs.symm
    · exact ih hrest hs

end Within

/-- A run that is left to itself is asked for nothing but the next pause. -/
theorem shown_of_mem_collect {fuel : Nat} (h : s ∈ (collect fuel r).1) :
    .shown s ∈ (r.drive (List.replicate fuel .next)).1 := by
  induction fuel generalizing r with
  | zero => cases h
  | succ fuel ih =>
    rw [collect] at h
    rw [List.replicate_succ, drive, ask]
    cases hn : r.next? with
    | none =>
      rw [hn] at h
      cases h
    | some e =>
      rw [hn] at h
      rcases List.mem_cons.mp h with rfl | h
      · exact List.mem_cons_self
      · exact List.mem_cons_of_mem _ (ih h)

end Run

/-- A snapshot that a run of a problem can show: the run is left to itself, or else it is driven in
any order. -/
def Problem.Shows (p : Problem α) (s : Snapshot α) : Prop :=
  s ∈ p.trace ∨ ∃ calls, .shown s ∈ ((Run.start p).drive calls).1

/-- What a problem keeps holds of all facts that its runs show. -/
theorem Problem.Keeps.shows (hp : p.Keeps Q) {s : Snapshot α} (h : p.Shows s) : s.Within p Q := by
  have hstart : (Run.start p).Within p Q := ⟨rfl, .initial hp⟩
  rcases h with h | ⟨calls, h⟩
  · exact hstart.drive hp _ (Run.shown_of_mem_collect h)
  · exact hstart.drive hp calls h

end FlowTrace
