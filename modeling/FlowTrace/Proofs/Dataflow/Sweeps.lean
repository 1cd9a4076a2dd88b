import FlowTrace.Proofs.Dataflow.Marks

/-!
# The shape of a trace

A trace is a first snapshot, two snapshots for each visit of each sweep, and a last snapshot.  All
sweeps but the last one change a fact and say so.  The last one changes none, so that from the end
of the sweep before it on all snapshots show the same facts.
-/

namespace FlowTrace

variable {α β : Type}

/-! ## Parts of a run -/

namespace Run

variable {r r' r'' : Run α} {l l' : List (Snapshot α)} {s : Snapshot α}

/-- Driving a run gives these snapshots one after the other, and leads to another run. -/
inductive Leads : Run α → List (Snapshot α) → Run α → Prop where
  | refl (r : Run α) : Leads r [] r
  | next {r r' r'' : Run α} {s : Snapshot α} {rest : List (Snapshot α)}
      (h : r.next? = some (s, r')) (hrest : Leads r' rest r'') : Leads r (s :: rest) r''

theorem Leads.append (h : Leads r l r') (h' : Leads r' l' r'') : Leads r (l ++ l') r'' := by
  induction h with
  | refl r => exact h'
  | next hs _ ih => exact .next hs (ih h')

theorem Leads.yields (h : Leads r l r') (hdone : r'.next? = none) : r.Yields l := by
  induction h with
  | refl r => exact .done hdone
  | next hs _ ih => exact .next hs (ih hdone)

/-- Asking for the next snapshot again and again. -/
theorem Leads.drive_append (h : Leads r l r') (cs : List Request) :
    r.drive (List.replicate l.length .next ++ cs) =
      (l.map .shown ++ (r'.drive cs).1, (r'.drive cs).2) := by
  induction h with
  | refl r => rfl
  | next hs _ ih =>
    rw [List.length_cons, List.replicate_succ, List.cons_append, drive, ask, hs, ih]
    rfl

/-- Nothing comes after the end. -/
theorem drive_replicate_of_next?_eq_none (h : r.next? = none) (k : Nat) :
    r.drive (List.replicate k .next) = (List.replicate k .exhausted, r) := by
  induction k with
  | zero => rfl
  | succ k ih => rw [List.replicate_succ, drive, ask, h, ih, List.replicate_succ]

end Run

/-! ## Changes that a snapshot shows -/

/-- Some fact is marked as changed. -/
def Observed.HasChange (s : Observed α) : Prop := ∃ n c, s.get? n = some c ∧ c.changed = true

namespace Snapshot

/-- The phase and the node of a snapshot. -/
def place (s : Snapshot α) : Phase × Option NodeId := (s.phase, s.current)

/-- Some fact is marked as changed. -/
def HasChange (s : Snapshot α) : Prop := ∃ f ∈ s.facts, f.2.HasChange

theorem Unmarked.not_hasChange {s : Snapshot α} (h : s.Unmarked) : ¬ s.HasChange := by
  rintro ⟨f, hf, n, c, hc, hchanged⟩
  rw [(h f hf n c hc).2] at hchanged
  cases hchanged

end Snapshot

theorem Observed.Marks.not_hasChange {same : α → α → Bool} {looked : NodeId → Prop}
    {s s' : Observed α} (h : s.Marks same looked (fun _ => False) s') : ¬ s'.HasChange := by
  rintro ⟨n, c, hc, hchanged⟩
  exact h.recomputed_of_changed hc hchanged

/-- If only one fact was computed, it alone decides. -/
theorem Observed.Marks.hasChange_iff {same : α → α → Bool} {looked : NodeId → Prop}
    {s s' : Observed α} {n : NodeId} {c : Cell α} (h : s.Marks same looked (· = n) s')
    (hc : s'.get? n = some c) : s'.HasChange ↔ c.changed = true := by
  constructor
  · rintro ⟨m, c', hc', hchanged⟩
    obtain rfl := h.recomputed_of_changed hc' hchanged
    obtain rfl := Option.some.inj (hc.symm.trans hc')
    exact hchanged
  · exact fun hchanged => ⟨n, c, hc, hchanged⟩

theorem Run.not_exists_hasChange {f : Observed α → Observed α} (hf : ∀ t, ¬ (f t).HasChange)
    (sides : List (String × Observed α)) :
    ¬ ∃ side ∈ sides.map fun side => (side.1, f side.2), side.2.HasChange := by
  rintro ⟨_, hside, hchange⟩
  obtain ⟨side, -, rfl⟩ := List.mem_map.mp hside
  exact hf side.2 hchange

theorem Run.hasChange_pause_iff (q : Run α) (phase : Phase) (current : Option NodeId) :
    (q.pause phase current).1.HasChange ↔ (∃ side ∈ q.stores.sides, side.2.HasChange) ∨
      q.stores.merged.HasChange ∨ q.stores.flowed.HasChange := by
  have hfacts : (q.pause phase current).1.HasChange ↔
      (∃ side ∈ q.stores.sides, side.2.HasChange) ∨
        (q.stores.ins q.problem.direction).HasChange ∨
          (q.stores.outs q.problem.direction).HasChange := by
    simp [Snapshot.HasChange, Snapshot.facts, pause, or_and_right, exists_or]
  rw [hfacts]
  cases q.problem.direction with
  | forward => exact Iff.rfl
  | backward => exact or_congr_right or_comm

/-! ## One sweep -/

variable [SemilatticeSup β] [OrderBot β] {p : Problem α} {R : p.Reading β} {H : R.Height}
  {r r' : Run α} {s : Snapshot α} {n : NodeId} {half : Half} {changed : Bool} {st : Stores α}
  {rest : List NodeId}

namespace Run

/-- A run on its course, just after a pause. -/
structure Paused (H : R.Height) (r : Run α) : Prop extends OnCourse H r where
  unmarked : ∃ st : Stores α, r.stores = st.reset

theorem paused_start (H : R.Height) : Paused H (Run.start p) where
  toOnCourse := onCourse_start H
  unmarked := ⟨.initial p, (Stores.reset_initial p).symm⟩

theorem Paused.next (h : Paused H r) (hg : p.graph.WellFormed) (hs : r.next? = some (s, r')) :
    Paused H r' where
  toOnCourse := h.toOnCourse.next hg hs
  unmarked := by
    obtain ⟨phase, current, q, -, hpause⟩ := h.advance hg hs
    obtain rfl := congrArg Prod.snd hpause
    exact ⟨q.stores, rfl⟩

/-- A half visit shows the change that it reports. -/
theorem Paused.hasChange_iff (h : Paused H r) (hg : p.graph.WellFormed) (hn : n ∈ p.graph.nodes)
    (hv : R.Visit r half n changed st) {q : Run α} (hq : q.stores = st) (phase : Phase)
    (current : Option NodeId) : (q.pause phase current).1.HasChange ↔ changed = true := by
  obtain ⟨st₀, hr⟩ := h.unmarked
  have hproblem := h.problem_eq
  subst hproblem hq
  rw [hasChange_pause_iff]
  cases half with
  | merge =>
    obtain ⟨hsides, hmerged, hflowed, c, hc, rfl⟩ :=
      marks_of_merge hr R.eq_refl h.grounded.total hg hn hv.computed
    have hquiet : ¬ ∃ side ∈ q.stores.sides, side.2.HasChange := by
      rw [hsides]
      exact not_exists_hasChange (fun t => (Observed.marks_reset R.eq_refl t).not_hasChange) _
    rw [or_iff_right hquiet, or_iff_left hflowed.not_hasChange, hmerged.hasChange_iff hc]
  | transfer =>
    obtain ⟨hsides, hmerged, hflowed, c, hc, rfl⟩ :=
      marks_of_transfer hr R.eq_refl h.grounded.total hn hv.computed
    have hquiet : ¬ ∃ side ∈ q.stores.sides, side.2.HasChange := by
      rw [hsides]
      exact not_exists_hasChange (fun t => (Observed.marks_look R.eq_refl t n).not_hasChange) _
    rw [or_iff_right hquiet, or_iff_right hmerged.not_hasChange, hflowed.hasChange_iff hc]

/-! The pauses of a visit, with the run that each leads to. -/

theorem next?_of_merge (hstage : r.stage = .visit n .merge rest)
    (hv : R.Visit r .merge n changed st) :
    r.next? = some ((Problem.Reading.after r st changed (.visit n .transfer rest)).pause
      (Half.merge.phase r.problem.direction) (some n)) := by
  simp only [next?, hstage, visitHalf, hv.computed]
  rfl

theorem next?_of_transfer {m : NodeId} (hstage : r.stage = .visit n .transfer (m :: rest))
    (hv : R.Visit r .transfer n changed st) :
    r.next? = some ((Problem.Reading.after r st changed (.visit m .merge rest)).pause
      (Half.transfer.phase r.problem.direction) (some n)) := by
  simp only [next?, hstage, visitHalf, hv.computed]
  rfl

theorem next?_of_last (hstage : r.stage = .visit n .transfer [])
    (hv : R.Visit r .transfer n changed st) :
    r.next? = some ((Problem.Reading.swept r st
      (if r.dirty || changed then sweepStage r.problem.order else .finish)).pause
        (Half.transfer.phase r.problem.direction) (some n)) := by
  simp only [next?, hstage, visitHalf, hv.computed]
  rfl

end Run

/-- The pauses of a sweep over some nodes. -/
def Problem.places (p : Problem α) (nodes : List NodeId) : List (Phase × Option NodeId) :=
  nodes.flatMap fun n =>
    [(Half.merge.phase p.direction, some n), (Half.transfer.phase p.direction, some n)]

namespace Run

/-- A run goes through what is left of a sweep, with these pauses. -/
structure Sweeps (H : R.Height) (r : Run α) (places : List (Phase × Option NodeId))
    (l : List (Snapshot α)) (r' : Run α) : Prop where
  leads : Leads r l r'
  paused : Paused H r'
  places : l.map Snapshot.place = places
  sweeps_eq : r'.sweeps = r.sweeps + 1
  dirty_eq : r'.dirty = false
  /-- Another sweep follows if this one has changed a fact. -/
  goes_on : (r.dirty = true ∨ ∃ s ∈ l, s.HasChange) ∧ r'.stage = sweepStage p.order ∨
    (r.dirty = false ∧ ∀ s ∈ l, ¬ s.HasChange) ∧ r'.stage = .finish

/-- A pause inside a sweep comes before what is left of it. -/
theorem Sweeps.cons {r₁ : Run α} {x : Phase × Option NodeId} {places : List (Phase × Option NodeId)}
    {l : List (Snapshot α)} (hs : r.next? = some (s, r₁)) (hplace : s.place = x)
    (hdirty : r₁.dirty = true ↔ r.dirty = true ∨ s.HasChange) (hsweeps : r₁.sweeps = r.sweeps)
    (h : Sweeps H r₁ places l r') : Sweeps H r (x :: places) (s :: l) r' where
  leads := .next hs h.leads
  paused := h.paused
  places := by rw [List.map_cons, hplace, h.places]
  sweeps_eq := by rw [h.sweeps_eq, hsweeps]
  dirty_eq := h.dirty_eq
  goes_on := by
    have hgoes := h.goes_on
    rw [← Bool.not_eq_true, hdirty, not_or, or_assoc, Bool.not_eq_true] at hgoes
    simpa only [List.mem_cons, exists_eq_or_imp, forall_eq_or_imp, and_assoc] using hgoes

/-- The last pause decides whether another sweep follows. -/
theorem Sweeps.last {x : Phase × Option NodeId} {dirty : Bool} (hs : r.next? = some (s, r'))
    (h : Paused H r') (hplace : s.place = x)
    (hdirty : dirty = true ↔ r.dirty = true ∨ s.HasChange) (hsweeps : r'.sweeps = r.sweeps + 1)
    (hclean : r'.dirty = false)
    (hstage : r'.stage = if dirty then sweepStage p.order else .finish) :
    Sweeps H r [x] [s] r' where
  leads := .next hs (.refl r')
  paused := h
  places := by rw [List.map_singleton, hplace]
  sweeps_eq := hsweeps
  dirty_eq := hclean
  goes_on := by
    simp only [List.mem_singleton, exists_eq_left, forall_eq]
    cases dirty with
    | true => exact .inl ⟨hdirty.mp rfl, hstage⟩
    | false =>
      have hquiet : ¬ (r.dirty = true ∨ s.HasChange) := mt hdirty.mpr Bool.false_ne_true
      rw [not_or, Bool.not_eq_true] at hquiet
      exact .inr ⟨hquiet, hstage⟩

namespace Paused

/-- What a half visit of a sweep shows. -/
theorem pause_visit (h : Paused H r) (hg : p.graph.WellFormed)
    (hstage : r.stage = .visit n half rest) (hv : R.Visit r half n changed st) {q : Run α}
    (hq : q.stores = st) :
    let s := (q.pause (half.phase r.problem.direction) (some n)).1
    s.place = (half.phase p.direction, some n) ∧
      ((r.dirty || changed) = true ↔ r.dirty = true ∨ s.HasChange) := by
  intro s
  rw [Bool.or_eq_true, ← h.hasChange_iff hg (h.visit_mem hstage) hv hq, ← h.problem_eq]
  exact ⟨rfl, Iff.rfl⟩

/-- A half visit that does not end a sweep comes before what is left of it. -/
theorem exists_sweeps_cons (h : Paused H r) (hg : p.graph.WellFormed)
    (hstage : r.stage = .visit n half rest) {stage : Stage}
    {places : List (Phase × Option NodeId)}
    (hnext : ∀ changed st, R.Visit r half n changed st →
      r.next? = some ((Problem.Reading.after r st changed stage).pause
        (half.phase r.problem.direction) (some n)))
    (hrest : ∀ r₁ : Run α, Paused H r₁ → r₁.stage = stage → ∃ l r', Sweeps H r₁ places l r') :
    ∃ l r', Sweeps H r ((half.phase p.direction, some n) :: places) l r' := by
  obtain ⟨changed, st, hv⟩ := h.exists_visit hg (h.visit_mem hstage) half
  have hs := hnext changed st hv
  obtain ⟨hplace, hdirty⟩ := h.pause_visit hg hstage hv
    (q := Problem.Reading.after r st changed stage) rfl
  obtain ⟨l, r', hsweeps⟩ := hrest _ (h.next hg hs) rfl
  exact ⟨_, r', .cons hs hplace hdirty rfl hsweeps⟩

theorem exists_sweeps_last (h : Paused H r) (hg : p.graph.WellFormed)
    (hstage : r.stage = .visit n .transfer []) :
    ∃ l r', Sweeps H r [(Half.transfer.phase p.direction, some n)] l r' := by
  obtain ⟨changed, st, hv⟩ := h.exists_visit hg (h.visit_mem hstage) .transfer
  have hs := next?_of_last hstage hv
  rw [h.problem_eq] at hs
  obtain ⟨hplace, hdirty⟩ := h.pause_visit hg hstage hv (q := Problem.Reading.swept r st
    (if r.dirty || changed then sweepStage p.order else .finish)) rfl
  rw [h.problem_eq] at hplace hdirty
  exact ⟨_, _, .last hs (h.next hg hs) hplace hdirty rfl rfl rfl⟩

/-- A sweep visits its nodes one after the other. -/
theorem exists_sweeps (h : Paused H r) (hg : p.graph.WellFormed)
    (hstage : r.stage = .visit n .merge rest) :
    ∃ l r', Sweeps H r (p.places (n :: rest)) l r' := by
  -- by the nodes that come after `n`: two pauses for each, and the last one ends the sweep
  induction rest generalizing r n with
  | nil =>
    refine h.exists_sweeps_cons hg hstage (fun _ _ => next?_of_merge hstage) ?_
    exact fun r₁ h₁ hstage₁ => h₁.exists_sweeps_last hg hstage₁
  | cons m rest ih =>
    refine h.exists_sweeps_cons hg hstage (fun _ _ => next?_of_merge hstage) ?_
    intro r₁ h₁ hstage₁
    refine h₁.exists_sweeps_cons hg hstage₁ (fun _ _ => next?_of_transfer hstage₁) ?_
    exact fun r₂ h₂ hstage₂ => ih h₂ hstage₂

end Paused

/-! ## All sweeps -/

theorem Leads.left_add_length_le {l : List (Snapshot α)} (h : Leads r l r') (hr : OnCourse H r)
    (hg : p.graph.WellFormed) : r'.left + l.length ≤ r.left := by
  induction h with
  | refl r => exact le_rfl
  | next hs _ ih =>
    have hlt := hr.left_lt hg hs
    have hle := ih (hr.next hg hs)
    rw [List.length_cons]
    omega

/-- A run that starts a sweep goes through some sweeps, and through a last one, to its end. -/
structure Finishes (p : Problem α) (r : Run α) (earlier : List (List (Snapshot α)))
    (last : List (Snapshot α)) (final : Snapshot α) (r' : Run α) : Prop where
  leads : Leads r ((earlier ++ [last]).flatten ++ [final]) r'
  done : r'.stage = .done
  places : ∀ sweep ∈ earlier ++ [last], sweep.map Snapshot.place = p.places p.order
  change : ∀ sweep ∈ earlier, ∃ s ∈ sweep, s.HasChange
  quiet : ∀ s ∈ last, ¬ s.HasChange
  final_place : final.place = (.ended, none)
  sweeps_eq : r'.sweeps = r.sweeps + (earlier.length + 1)

/-- One more sweep, which has changed something. -/
theorem Finishes.cons {earlier : List (List (Snapshot α))} {sweep last : List (Snapshot α)}
    {final : Snapshot α} {r₁ : Run α} (h : Finishes p r₁ earlier last final r')
    (hsweep : Sweeps H r (p.places p.order) sweep r₁) (hchange : ∃ s ∈ sweep, s.HasChange) :
    Finishes p r (sweep :: earlier) last final r' where
  leads := by
    rw [List.cons_append, List.flatten_cons, List.append_assoc]
    exact hsweep.leads.append h.leads
  done := h.done
  places := List.forall_mem_cons.mpr ⟨hsweep.places, h.places⟩
  change := List.forall_mem_cons.mpr ⟨hchange, h.change⟩
  quiet := h.quiet
  final_place := h.final_place
  sweeps_eq := by
    rw [h.sweeps_eq, hsweep.sweeps_eq, List.length_cons]
    omega

/-- A sweep that has changed nothing is the last one. -/
theorem Sweeps.finishes {sweep : List (Snapshot α)} {r₁ : Run α}
    (h : Sweeps H r (p.places p.order) sweep r₁) (hquiet : ∀ s ∈ sweep, ¬ s.HasChange)
    (hstage : r₁.stage = .finish) : ∃ final r', Finishes p r [] sweep final r' := by
  have hs : r₁.next? = some ({ r₁ with stage := .done }.pause .ended none) := by
    rw [next?, hstage]
  let q := { r₁ with stage := .done }.pause .ended none
  refine ⟨q.1, q.2, ?_, rfl, ?_, List.forall_mem_nil _, hquiet, rfl, h.sweeps_eq⟩
  · rw [List.nil_append, List.flatten_singleton]
    exact h.leads.append (.next hs (.refl _))
  · exact List.forall_mem_singleton.mpr h.places

theorem Paused.exists_finishes (h : Paused H r) (hg : p.graph.WellFormed)
    (hstage : r.stage = sweepStage p.order) (hdirty : r.dirty = false) :
    ∃ earlier last final r', Finishes p r earlier last final r' := by
  induction hleft : r.left using Nat.strong_induction_on generalizing r with
  | _ k ih =>
    obtain ⟨n, rest, horder⟩ := p.order_ne_nil
    obtain ⟨sweep, r₁, hsweep⟩ : ∃ sweep r₁, Sweeps H r (p.places p.order) sweep r₁ := by
      rw [horder] at hstage ⊢
      exact h.exists_sweeps hg hstage
    rcases hsweep.goes_on with ⟨hchange, hstage₁⟩ | ⟨⟨-, hquiet⟩, hstage₁⟩
    · have hchange : ∃ s ∈ sweep, s.HasChange := by
        rw [hdirty] at hchange
        exact hchange.resolve_left Bool.false_ne_true
      -- every pause uses up one of those that are left
      have hlt : r₁.left < k := by
        have hle := hsweep.leads.left_add_length_le h.toOnCourse hg
        obtain ⟨s, hs, -⟩ := hchange
        have hpos := List.length_pos_of_mem hs
        omega
      obtain ⟨earlier, last, final, r', hrest⟩ :=
        ih r₁.left hlt hsweep.paused hstage₁ hsweep.dirty_eq rfl
      exact ⟨sweep :: earlier, last, final, r', hrest.cons hsweep hchange⟩
    · obtain ⟨final, r', hfinishes⟩ := hsweep.finishes hquiet hstage₁
      exact ⟨[], sweep, final, r', hfinishes⟩

end Run

/-! ## Facts that stay -/

/-- The nodes with a fact are the same, and so are the facts, whatever their marks. -/
structure Observed.SameFacts (same : α → α → Bool) (s s' : Observed α) : Prop where
  keys_eq : s'.keys = s.keys
  same : ∀ {n c c'}, s.get? n = some c → s'.get? n = some c' → same c.value c'.value = true

/-- All facts are the same, by their names and nodes. -/
def Snapshot.SameFacts (same : α → α → Bool) (s s' : Snapshot α) : Prop :=
  List.Forall₂ (fun f f' => f'.1 = f.1 ∧ f.2.SameFacts same f'.2) s.facts s'.facts

theorem Observed.SameFacts.trans {same : α → α → Bool}
    (hsame : ∀ a b c, same a b = true → same b c = true → same a c = true)
    {s t u : Observed α} (h : s.SameFacts same t) (h' : t.SameFacts same u) :
    s.SameFacts same u where
  keys_eq := h'.keys_eq.trans h.keys_eq
  same {n c c'} hc hc' := by
    obtain ⟨d, hd⟩ : ∃ d, t.get? n = some d := by
      rw [← Table.mem_keys_iff, h.keys_eq]
      exact Table.mem_keys_iff.mpr ⟨c, hc⟩
    exact hsame _ _ _ (h.same hc hd) (h'.same hd hc')

theorem Snapshot.SameFacts.trans {same : α → α → Bool}
    (hsame : ∀ a b c, same a b = true → same b c = true → same a c = true)
    {s t u : Snapshot α} (h : s.SameFacts same t) (h' : t.SameFacts same u) :
    s.SameFacts same u := by
  unfold Snapshot.SameFacts at h h' ⊢
  generalize s.facts = fs at h ⊢
  generalize t.facts = gs at h h'
  generalize u.facts = hs at h' ⊢
  induction h generalizing hs with
  | nil => exact h'
  | cons hf _ ih =>
    cases h' with
    | cons hg hrest => exact .cons ⟨hg.1.trans hf.1, hf.2.trans hsame hg.2⟩ (ih _ hrest)

theorem Observed.Marks.sameFacts {same : α → α → Bool} {looked recomputed : NodeId → Prop}
    {s s' : Observed α} (h : s.Marks same looked recomputed s') (hquiet : ¬ s'.HasChange) :
    s.SameFacts same s' where
  keys_eq := h.keys_eq
  same {n c c'} hc hc' := by
    by_contra hne
    rw [Bool.not_eq_true, ← h.changed_iff hc hc'] at hne
    exact hquiet ⟨n, c', hc', hne⟩

/-- A snapshot that shows no change has the facts of the one before. -/
theorem Snapshot.Tells.sameFacts {same : α → α → Bool} {looked recomputed : String → NodeId → Prop}
    {s s' : Snapshot α} (h : s.Tells same looked recomputed s') (hquiet : ¬ s'.HasChange) :
    s.SameFacts same s' := by
  have hquiet : ∀ f' ∈ s'.facts, ¬ f'.2.HasChange :=
    fun f' hf' hchange => hquiet ⟨f', hf', hchange⟩
  rw [Tells] at h
  rw [SameFacts]
  generalize s.facts = fs at h ⊢
  generalize s'.facts = fs' at h hquiet ⊢
  induction h with
  | nil => exact .nil
  | cons hf _ ih =>
    rw [List.forall_mem_cons] at hquiet
    exact .cons ⟨hf.1, hf.2.sameFacts hquiet.1⟩ (ih hquiet.2)

/-- So have all that come after it without a change. -/
theorem Problem.Reading.sameFacts_of_quiet (R : p.Reading β) {s : Snapshot α}
    {l : List (Snapshot α)}
    (h : (s :: l).IsChain fun s s' => s.Tells p.lattice.eq (p.Consulted s') s'.Recomputed s')
    (hquiet : ∀ t ∈ l, ¬ t.HasChange) : ∀ t ∈ l, s.SameFacts p.lattice.eq t := by
  have htrans : ∀ a b c, p.lattice.eq a b = true → p.lattice.eq b c = true →
      p.lattice.eq a c = true := by
    intro a b c
    rw [R.eq_iff, R.eq_iff, R.eq_iff]
    exact Eq.trans
  induction l generalizing s with
  | nil => exact List.forall_mem_nil _
  | cons s' l ih =>
    rw [List.isChain_cons_cons] at h
    rw [List.forall_mem_cons] at hquiet ⊢
    have hsame := h.1.sameFacts hquiet.1
    exact ⟨hsame, fun t ht => hsame.trans htrans (ih h.2 hquiet.2 t ht)⟩

/-! ## The traces of the analyses -/

namespace Analysis

/-- The pauses of one sweep: going backward the nodes come in the reverse order, and `out` before
`in`. -/
def sweepPlaces (g : FlowGraph) : Analysis → List (Phase × Option NodeId)
  | liveness _ _ =>
    g.nodes.reverse.flatMap fun n => [(.outComputed, some n), (.inComputed, some n)]
  | reaching | constants =>
    g.nodes.flatMap fun n => [(.inComputed, some n), (.outComputed, some n)]

theorem places_order (a : Analysis) (g : FlowGraph) :
    (a.problem g).places (a.problem g).order = a.sweepPlaces g := by
  cases a <;> rfl

theorem length_sweepPlaces (a : Analysis) (g : FlowGraph) :
    (a.sweepPlaces g).length = 2 * g.nodes.length := by
  cases a <;> simp [sweepPlaces, List.length_flatMap, Nat.mul_comm]

/-- The parts of a trace: the first snapshot, those of the sweeps before the last one, those of the
last sweep, and the last snapshot. -/
structure TraceParts (a : Analysis) (g : FlowGraph) (first : Snapshot a.Fact)
    (earlier : List (List (Snapshot a.Fact))) (last : List (Snapshot a.Fact))
    (final : Snapshot a.Fact) : Prop where
  trace_eq : (a.problem g).trace = first :: ((earlier ++ [last]).flatten ++ [final])
  first_place : first.place = (.initialized, none)
  sweep_places : ∀ sweep ∈ earlier ++ [last], sweep.map Snapshot.place = a.sweepPlaces g
  final_place : final.place = (.ended, none)
  change : ∀ sweep ∈ earlier, ∃ s ∈ sweep, s.HasChange
  quiet : ∀ s ∈ last, ¬ s.HasChange
  /-- The facts stay from the end of the sweep before the last one on, or from the start. -/
  settled : ∀ s ∈ last ++ [final], ((first :: earlier.flatten).getLast
    (List.cons_ne_nil _ _)).SameFacts (a.problem g).lattice.eq s

variable {a : Analysis} {g : FlowGraph} {first final : Snapshot a.Fact}
  {earlier : List (List (Snapshot a.Fact))} {last : List (Snapshot a.Fact)}

theorem TraceParts.length_trace (h : a.TraceParts g first earlier last final) :
    (a.problem g).trace.length = 2 + 2 * g.nodes.length * (earlier.length + 1) := by
  have hlength : ∀ sweep ∈ earlier ++ [last], sweep.length = 2 * g.nodes.length := by
    intro sweep hsweep
    rw [← List.length_map Snapshot.place, h.sweep_places sweep hsweep, length_sweepPlaces]
  have hsum : (earlier ++ [last]).flatten.length = (earlier.length + 1) * (2 * g.nodes.length) := by
    rw [List.length_flatten, List.sum_eq_card_nsmul _ (2 * g.nodes.length)]
    · simp
    · exact List.forall_mem_map.mpr hlength
  rw [h.trace_eq, List.length_cons, List.length_append, hsum]
  simp only [List.length_singleton]
  ring

/-- The parts that a run goes through are those of its trace. -/
theorem traceParts (hg : g.WellFormed) {r r' : Run a.Fact}
    (hs : (Run.start (a.problem g)).next? = some (first, r))
    (h : Run.Finishes (a.problem g) r earlier last final r') :
    a.TraceParts g first earlier last final := by
  have hg' := a.wellFormed_graph hg
  have hyields := (Run.Leads.next hs h.leads).yields (Run.next?_of_done h.done)
  have htrace := ((a.reading g).yields_trace (a.height g) hg').unique hyields
  have hchain := ((a.reading g).isChain_tells (a.height g) hg' (a.nodup_factNames g)).tail
  have hne : first :: earlier.flatten ≠ [] := List.cons_ne_nil _ _
  have hparts : (a.problem g).trace = (first :: earlier.flatten).dropLast ++
      (first :: earlier.flatten).getLast hne :: (last ++ [final]) := by
    rw [htrace, List.append_cons (first :: earlier.flatten).dropLast,
      List.dropLast_append_getLast hne]
    simp
  refine ⟨htrace, congrArg (·.1.place) (Option.some.inj hs).symm, ?_, h.final_place, h.change,
    h.quiet, ?_⟩
  · rw [← a.places_order g]
    exact h.places
  · rw [List.tail_cons, hparts] at hchain
    apply (a.reading g).sameFacts_of_quiet hchain.right_of_append
    have hfinal : final ∈ (a.problem g).trace := by simp [htrace]
    have hunmarked := (a.reading g).unmarked_of_mem (a.height g) hg' (a.nodup_factNames g) final
      hfinal (.inr (congrArg Prod.fst h.final_place))
    exact List.forall_mem_append.mpr
      ⟨h.quiet, List.forall_mem_singleton.mpr hunmarked.not_hasChange⟩

end Analysis

/-- **The shape of a trace.**  A run that is asked for one snapshot after the other gives the first
one, those of its sweeps, and the last one, and then nothing any more.  A sweep has two snapshots
for each node.  Each sweep but the last one shows a change; the last one shows none, and the facts
are those at its start.  The run counts its sweeps. -/
theorem Program.Verified.trace_in_sweeps {p : Program} (hp : p.Verified) (kind : GraphKind)
    (a : Analysis) :
    let g := p.graph kind
    let problem := a.problem g
    ∃ first earlier last final r, a.TraceParts g first earlier last final ∧
      r.sweeps = earlier.length + 1 ∧
      problem.trace.length = 2 + 2 * g.nodes.length * r.sweeps ∧
      ∀ m, (Run.start problem).drive (List.replicate (problem.trace.length + m) .next) =
        (problem.trace.map .shown ++ List.replicate m .exhausted, r) := by
  intro g problem
  have hg : g.WellFormed := hp.wellFormed.graph kind
  have hg' := a.wellFormed_graph hg
  let q := { Run.start problem with stage := Run.sweepStage problem.order }
  have hs : (Run.start problem).next? = some (q.pause .initialized none) := rfl
  obtain ⟨earlier, last, final, r, h⟩ :=
    ((Run.paused_start (a.height g)).next hg' hs).exists_finishes hg' rfl rfl
  have hparts := Analysis.traceParts hg hs h
  have hsweeps : r.sweeps = earlier.length + 1 := by
    rw [h.sweeps_eq]
    exact Nat.zero_add _
  refine ⟨_, earlier, last, final, r, hparts, hsweeps, ?_, fun m => ?_⟩
  · rw [hsweeps]
    exact hparts.length_trace
  · have hleads : Run.Leads (Run.start problem) problem.trace r := by
      rw [hparts.trace_eq]
      exact .next hs h.leads
    rw [List.replicate_add, hleads.drive_append,
      Run.drive_replicate_of_next?_eq_none (Run.next?_of_done h.done)]

/-- Live variables of a loop, found in two sweeps and confirmed in a third. -/
theorem Program.countdown_trace_in_sweeps :
    let a := Analysis.liveness ∅ none
    let g := countdown.graph .blocks
    countdown.Verified ∧ (a.problem g).trace.length = 26 ∧
      ∃ first earlier last final, a.TraceParts g first earlier last final ∧
        earlier.length = 2 := by
  intro a g
  obtain ⟨first, earlier, last, final, r, hparts, hsweeps, hlength, -⟩ :=
    verified_countdown.trace_in_sweeps .blocks a
  have htrace : (a.problem g).trace.length = 26 := by decide +kernel
  have hnodes : g.nodes.length = 4 := by decide +kernel
  rw [htrace, hnodes, hsweeps] at hlength
  exact ⟨verified_countdown, htrace, first, earlier, last, final, hparts, by omega⟩

end FlowTrace
