import FlowTrace.Dataflow.Run
import FlowTrace.Proofs.Table
import Mathlib.Data.List.Forall2

/-!
# Actions on the facts

What a half of a visit does to the facts, step by step.  At a node of the graph it succeeds, with
the marks that it has made.  At an id without facts it fails before it has made any mark.  What the
parts of a half visit keep, the visit keeps as a whole, also where it fails on the way.
-/

namespace FlowTrace

variable {α β : Type}

/-! ## Marks do not change facts -/

namespace Observed

@[simp] theorem peek?_ofTable (t : Table NodeId α) (n : NodeId) :
    (ofTable t).peek? n = t.get? n := by
  simp [peek?, ofTable, Function.comp_def, Cell.fresh]

@[simp] theorem peek?_look (s : Observed α) (m n : NodeId) : (s.look m).peek? n = s.peek? n := by
  rw [peek?, look, Table.get?_modify]
  split
  · simp [peek?, Function.comp_def]
  · rfl

@[simp] theorem peek?_reset (s : Observed α) (n : NodeId) : s.reset.peek? n = s.peek? n := by
  simp [peek?, reset, Function.comp_def, Cell.fresh]

@[simp] theorem peek?_foldl_look (s : Observed α) (ns : List NodeId) (n : NodeId) :
    (ns.foldl look s).peek? n = s.peek? n := by
  induction ns generalizing s with
  | nil => rfl
  | cons m ns ih => rw [List.foldl_cons, ih, peek?_look]

theorem read?_eq {s : Observed α} {n : NodeId} {v : α} (h : s.peek? n = some v) :
    s.read? n = some (v, s.look n) := by
  rw [read?, h]; rfl

theorem of_read?_eq_some {s s' : Observed α} {n : NodeId} {v : α}
    (h : s.read? n = some (v, s')) : s.peek? n = some v ∧ s' = s.look n := by
  obtain ⟨v, hpeek, heq⟩ := Option.map_eq_some_iff.mp h
  obtain ⟨rfl, rfl⟩ := Prod.mk.inj heq
  exact ⟨hpeek, rfl⟩

/-- Put another fact under a node, and mark it if it is new. -/
def put (s : Observed α) (n : NodeId) (v : α) (isNew : Bool) : Observed α :=
  s.modify n fun c => { c with value := v, changed := c.changed || isNew }

theorem replace?_eq (same : α → α → Bool) {s : Observed α} {n : NodeId} {old : α} (f : α → α)
    (h : s.peek? n = some old) :
    s.replace? same n f = some (!same old (f old), s.put n (f old) (!same old (f old))) := by
  rw [replace?, h]; rfl

theorem of_replace?_eq_some {same : α → α → Bool} {s s' : Observed α} {n : NodeId} {f : α → α}
    {isNew : Bool} (h : s.replace? same n f = some (isNew, s')) :
    ∃ old, s.peek? n = some old ∧ s' = s.put n (f old) isNew := by
  obtain ⟨old, hold, heq⟩ := Option.map_eq_some_iff.mp h
  obtain ⟨rfl, rfl⟩ := Prod.mk.inj heq
  exact ⟨old, hold, rfl⟩

theorem peek?_put {s : Observed α} {n : NodeId} {old : α} (h : s.peek? n = some old) (v : α)
    (isNew : Bool) (m : NodeId) :
    (s.put n v isNew).peek? m = if m = n then some v else s.peek? m := by
  rw [peek?, put, Table.get?_modify]
  split
  · next hm =>
    subst hm
    rw [peek?, Option.map_eq_some_iff] at h
    obtain ⟨c, hc, -⟩ := h
    simp [hc]
  · rfl

/-- The facts without their marks. -/
def facts (s : Observed α) : Table NodeId α := s.mapEntries fun _ c => c.value

@[simp] theorem facts_ofTable (t : Table NodeId α) : (ofTable t).facts = t := by
  ext1
  simp [facts, ofTable, Table.mapEntries, Cell.fresh, Function.comp_def]

@[simp] theorem facts_look (s : Observed α) (n : NodeId) : (s.look n).facts = s.facts := by
  ext1
  simp only [facts, look, Table.modify, Table.mapEntries, List.map_map]
  refine List.map_congr_left fun e _ => ?_
  simp only [Function.comp_apply]
  split <;> rfl

@[simp] theorem facts_reset (s : Observed α) : s.reset.facts = s.facts := by
  ext1
  simp [facts, reset, Table.mapEntries, Cell.fresh]

@[simp] theorem keys_look (s : Observed α) (n : NodeId) : (s.look n).keys = s.keys :=
  Table.keys_modify s n _

@[simp] theorem keys_reset (s : Observed α) : s.reset.keys = s.keys := Table.keys_mapEntries s _

theorem mem_keys_of_peek? {s : Observed α} {n : NodeId} {v : α} (h : s.peek? n = some v) :
    n ∈ s.keys := by
  obtain ⟨c, hc, -⟩ := Option.map_eq_some_iff.mp h
  exact Table.mem_keys_iff.mpr ⟨c, hc⟩

theorem peek?_eq_none {s : Observed α} {n : NodeId} (h : n ∉ s.keys) : s.peek? n = none := by
  cases hv : s.peek? n with
  | none => rfl
  | some v => exact absurd (mem_keys_of_peek? hv) h

@[simp] theorem keys_put (s : Observed α) (n : NodeId) (v : α) (isNew : Bool) :
    (s.put n v isNew).keys = s.keys :=
  Table.keys_modify s n _

end Observed

/-! ## What actions do -/

namespace Action

variable {γ : Type} {s s' : Stores α} {n : NodeId}

theorem run_bind_of_ok {x : Action α β} {b : β} (h : x.run s = .ok b s') (f : β → Action α γ) :
    (x >>= f).run s = (f b).run s' := by
  rw [EStateM.run_bind, h]

theorem run_bind_of_error {x : Action α β} {m : NodeId} (h : x.run s = .error m s')
    (f : β → Action α γ) : (x >>= f).run s = .error m s' := by
  rw [EStateM.run_bind, h]

theorem run_onMerged {f : Observed α → Option (β × Observed α)} {b : β} {merged : Observed α}
    (h : f s.merged = some (b, merged)) :
    (onMerged n f).run s = .ok b { s with merged := merged } := by
  simp only [EStateM.run, onMerged, h]

theorem run_onFlowed {f : Observed α → Option (β × Observed α)} {b : β} {flowed : Observed α}
    (h : f s.flowed = some (b, flowed)) :
    (onFlowed n f).run s = .ok b { s with flowed := flowed } := by
  simp only [EStateM.run, onFlowed, h]

theorem run_readAll {f : NodeId → α} {ns : List NodeId}
    (h : ∀ n ∈ ns, s.flowed.peek? n = some (f n)) :
    (readAll ns).run s = .ok (ns.map f) { s with flowed := ns.foldl Observed.look s.flowed } := by
  induction ns generalizing s with
  | nil => rfl
  | cons n ns ih =>
    have hn : (onFlowed n (·.read? n)).run s = .ok (f n) { s with flowed := s.flowed.look n } :=
      run_onFlowed (Observed.read?_eq (h n List.mem_cons_self))
    have hns := @ih { s with flowed := s.flowed.look n } fun m hm =>
      (Observed.peek?_look s.flowed n m).trans (h m (List.mem_cons_of_mem _ hm))
    rw [readAll, run_bind_of_ok hn, run_bind_of_ok hns]
    rfl

theorem lookThrough_eq {sides : List (String × Observed α)}
    (h : ∀ side ∈ sides, ∃ v, side.2.peek? n = some v) :
    lookThrough n sides = (true, sides.map fun side => (side.1, side.2.look n)) := by
  induction sides with
  | nil => rfl
  | cons side sides ih =>
    obtain ⟨v, hv⟩ := h side List.mem_cons_self
    rw [lookThrough, Observed.read?_eq hv, ih fun e he => h e (List.mem_cons_of_mem _ he)]
    rfl

theorem run_readSides (h : ∀ side ∈ s.sides, ∃ v, side.2.peek? n = some v) :
    (readSides n).run s =
      .ok () { s with sides := s.sides.map fun side => (side.1, side.2.look n) } := by
  simp only [EStateM.run, readSides, lookThrough_eq h, if_true]

end Action

namespace Problem

variable {p : Problem α} {s : Stores α} {n : NodeId} {old : α}

/-- What a merge does to the facts: the sources are looked at and their facts are joined to the old
one. -/
theorem run_merge {ss : List NodeId} {f : NodeId → α} (hss : p.sources? n = some ss)
    (hf : ∀ m ∈ ss, s.flowed.peek? m = some (f m)) (hold : s.merged.peek? n = some old) :
    let new := (ss.map f).foldl p.lattice.join old
    let isNew := !p.lattice.eq old new
    (p.visit .merge n).run s = .ok isNew { s with
      flowed := ss.foldl Observed.look s.flowed
      merged := s.merged.put n new isNew } := by
  have hread := Action.run_readAll hf
  simp only [visit, merge, hss, EStateM.run_bind, EStateM.run_get, hold, Option.isNone_some,
    Bool.false_eq_true, if_false, hread]
  exact Action.run_onMerged (Observed.replace?_eq p.lattice.eq _ hold)

/-- What a transfer does to the facts: the merged fact and those that describe the node are looked
at, and the effect is put over the old fact. -/
theorem run_flow {value : α} (hsides : ∀ side ∈ s.sides, ∃ v, side.2.peek? n = some v)
    (hvalue : s.merged.peek? n = some value) (hold : s.flowed.peek? n = some old) :
    let new := p.absorb old (p.transfer n value)
    let isNew := !p.lattice.eq old new
    (p.visit .transfer n).run s = .ok isNew {
      sides := s.sides.map fun side => (side.1, side.2.look n)
      merged := s.merged.look n
      flowed := s.flowed.put n new isNew } := by
  rw [visit, flow, Action.run_bind_of_ok (Action.run_readSides hsides),
    Action.run_bind_of_ok (Action.run_onMerged (Observed.read?_eq hvalue))]
  exact Action.run_onFlowed (Observed.replace?_eq p.lattice.eq _ hold)

end Problem

namespace Run

variable {r : Run α} {half : Half} {n : NodeId} {changed : Bool} {st : Stores α}

/-- A half visit acts on the facts alone. -/
theorem compute_of_ok (h : (r.problem.visit half n).run r.stores = .ok changed st) :
    r.compute half n = .ok changed { r with stores := st } := by
  rw [compute, h]

theorem compute_of_error {m : NodeId}
    (h : (r.problem.visit half n).run r.stores = .error m st) :
    r.compute half n = .error m { r with stores := st } := by
  rw [compute, h]

end Run

/-! ## What actions keep -/

namespace Action

variable {γ : Type} {P : Stores α → Prop} {Q : β → Prop} {Q' : γ → Prop} {n : NodeId}

/-- An action that starts from facts with a property leaves such facts, whether it succeeds or
fails; what it gives has a property too. -/
def Preserves (P : Stores α → Prop) (Q : β → Prop) (x : Action α β) : Prop :=
  ∀ s, P s → match x.run s with
    | .ok b s' => Q b ∧ P s'
    | .error _ s' => P s'

namespace Preserves

theorem pure {b : β} (h : Q b) : (Pure.pure b : Action α β).Preserves P Q := fun _ hs => ⟨h, hs⟩

theorem throw (n : NodeId) : (MonadExcept.throw n : Action α β).Preserves P Q := fun _ hs => hs

theorem get : (MonadState.get : Action α (Stores α)).Preserves P P := fun _ hs => ⟨hs, hs⟩

theorem bind {x : Action α β} {f : β → Action α γ} (hx : x.Preserves P Q)
    (hf : ∀ b, Q b → (f b).Preserves P Q') : (x >>= f).Preserves P Q' := by
  intro s hs
  have h := hx s hs
  rw [EStateM.run_bind]
  cases hrun : x.run s with
  | ok b s' =>
    rw [hrun] at h
    exact hf b h.1 s' h.2
  | error m s' =>
    rw [hrun] at h
    exact h

theorem onMerged {f : Observed α → Option (β × Observed α)}
    (h : ∀ s, P s → ∀ b merged, f s.merged = some (b, merged) →
      Q b ∧ P { s with merged := merged }) : (Action.onMerged n f).Preserves P Q := by
  intro s hs
  simp only [EStateM.run, Action.onMerged]
  cases hf : f s.merged with
  | none => exact hs
  | some e => exact h s hs e.1 e.2 hf

theorem onFlowed {f : Observed α → Option (β × Observed α)}
    (h : ∀ s, P s → ∀ b flowed, f s.flowed = some (b, flowed) →
      Q b ∧ P { s with flowed := flowed }) : (Action.onFlowed n f).Preserves P Q := by
  intro s hs
  simp only [EStateM.run, Action.onFlowed]
  cases hf : f s.flowed with
  | none => exact hs
  | some e => exact h s hs e.1 e.2 hf

theorem readAll {Q : α → Prop} (h : ∀ n, (Action.onFlowed n (·.read? n)).Preserves P Q)
    (ns : List NodeId) : (Action.readAll ns).Preserves P fun vs => ∀ v ∈ vs, Q v := by
  induction ns with
  | nil => exact .pure (List.forall_mem_nil _)
  | cons n ns ih =>
    exact .bind (h n) fun v hv => .bind ih fun vs hvs => .pure (List.forall_mem_cons.mpr ⟨hv, hvs⟩)

theorem readSides (h : ∀ s, P s → P { s with sides := (lookThrough n s.sides).2 }) :
    (Action.readSides n).Preserves P fun _ => True := by
  intro s hs
  simp only [EStateM.run, Action.readSides]
  split
  · next heq =>
    split at heq
    · obtain ⟨-, rfl⟩ := EStateM.Result.ok.inj heq
      exact ⟨trivial, h s hs⟩
    · cases heq
  · next heq =>
    split at heq
    · cases heq
    · obtain ⟨-, rfl⟩ := EStateM.Result.error.inj heq
      exact h s hs

end Preserves

/-- To look at a node in some tables changes only marks. -/
theorem map_lookThrough {f : String × Observed α → γ}
    (hf : ∀ name facts, f (name, facts.look n) = f (name, facts))
    (sides : List (String × Observed α)) : (lookThrough n sides).2.map f = sides.map f := by
  induction sides with
  | nil => rfl
  | cons side sides ih =>
    rw [lookThrough]
    cases hread : side.2.read? n with
    | none => rfl
    | some e =>
      obtain ⟨-, hlook⟩ := Observed.of_read?_eq_some hread
      simp only [List.map_cons, hlook, hf, ih]

theorem lookThrough_of_unknown {sides : List (String × Observed α)}
    (h : ∀ side ∈ sides, side.2.peek? n = none) : lookThrough n sides = (sides.isEmpty, sides) := by
  cases sides with
  | nil => rfl
  | cons side sides =>
    have hread : side.2.read? n = none := by rw [Observed.read?, h side List.mem_cons_self]; rfl
    rw [lookThrough, hread]
    rfl

end Action

namespace Problem

variable {p : Problem α} {n : NodeId}

section Preserves

variable {P : Stores α → Prop} {Q : α → Prop}
  (hsides : ∀ s n, P s → P { s with sides := (Action.lookThrough n s.sides).2 })
  (hmerged : ∀ s n v, P s → s.merged.peek? n = some v →
    Q v ∧ P { s with merged := s.merged.look n })
  (hflowed : ∀ s n v, P s → s.flowed.peek? n = some v →
    Q v ∧ P { s with flowed := s.flowed.look n })
  (hjoin : ∀ s n old (values : List α) isNew, P s → s.merged.peek? n = some old →
    (∀ v ∈ values, Q v) →
    P { s with merged := s.merged.put n (values.foldl p.lattice.join old) isNew })
  (htransfer : ∀ s n old value isNew, P s → s.flowed.peek? n = some old → Q value →
    P { s with flowed := s.flowed.put n (p.absorb old (p.transfer n value)) isNew })

include hflowed hjoin in
theorem preserves_merge (n : NodeId) : (p.merge n).Preserves P fun _ => True := by
  have hread : ∀ m, (Action.onFlowed m (·.read? m)).Preserves P Q := fun m =>
    .onFlowed fun s hs v flowed hv => by
      obtain ⟨hpeek, rfl⟩ := Observed.of_read?_eq_some hv
      exact hflowed s m v hs hpeek
  have hrest : ∀ sources, (do
      let values ← Action.readAll sources
      Action.onMerged n (·.replace? p.lattice.eq n fun old => values.foldl p.lattice.join old)
      : Action α Bool).Preserves P fun _ => True := fun sources =>
    .bind (.readAll hread sources) fun values hvalues => .onMerged fun s hs b merged hb => by
      obtain ⟨old, hold, rfl⟩ := Observed.of_replace?_eq_some hb
      exact ⟨trivial, hjoin s n old values b hs hold hvalues⟩
  rw [merge]
  cases p.sources? n with
  | none => exact .throw n
  | some sources =>
    refine .bind .get fun s _ => ?_
    split
    · exact .bind (Q := fun _ => True) (.throw n) fun _ _ => hrest sources
    · exact hrest sources

include hsides hmerged htransfer in
theorem preserves_flow (n : NodeId) : (p.flow n).Preserves P fun _ => True := by
  refine .bind (.readSides fun s hs => hsides s n hs) fun _ _ => .bind (Q := Q) ?_ ?_
  · refine .onMerged fun s hs v merged hv => ?_
    obtain ⟨hpeek, rfl⟩ := Observed.of_read?_eq_some hv
    exact hmerged s n v hs hpeek
  · refine fun value hvalue => .onFlowed fun s hs b flowed hb => ?_
    obtain ⟨old, hold, rfl⟩ := Observed.of_replace?_eq_some hb
    exact ⟨trivial, htransfer s n old value b hs hold hvalue⟩

include hsides hmerged hflowed hjoin htransfer in
/-- What a half visit keeps: it is enough to look at its parts. -/
theorem preserves_visit (half : Half) (n : NodeId) :
    (p.visit half n).Preserves P fun _ => True := by
  cases half with
  | merge => exact preserves_merge hflowed hjoin n
  | transfer => exact preserves_flow hsides hmerged htransfer n

end Preserves

/-- A half visit to what has no facts fails, and leaves all marks as they are. -/
theorem run_visit_of_unknown {s : Stores α} (hsides : ∀ side ∈ s.sides, side.2.peek? n = none)
    (hmerged : s.merged.peek? n = none) (half : Half) : (p.visit half n).run s = .error n s := by
  cases half with
  | merge =>
    cases hss : p.sources? n with
    | none =>
      simp only [visit, merge, hss]
      rfl
    | some ss => simp [visit, merge, hss, hmerged]
  | transfer =>
    have hlook := Action.lookThrough_of_unknown hsides
    have hread : s.merged.read? n = none := by rw [Observed.read?, hmerged]; rfl
    have hmerge : (Action.onMerged n (·.read? n)).run s = .error n s := by
      simp only [EStateM.run, Action.onMerged, hread]
    rw [visit, flow]
    cases hempty : s.sides.isEmpty with
    | true =>
      have hnone : (Action.readSides n).run s = .ok () s := by
        simp only [EStateM.run, Action.readSides, hlook, hempty, if_true]
      rw [Action.run_bind_of_ok hnone, Action.run_bind_of_error hmerge]
    | false =>
      have hfail : (Action.readSides n).run s = .error n s := by
        simp only [EStateM.run, Action.readSides, hlook, hempty, Bool.false_eq_true, if_false]
      exact Action.run_bind_of_error hfail _

end Problem

end FlowTrace
