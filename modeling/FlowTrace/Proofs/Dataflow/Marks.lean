import FlowTrace.Proofs.Dataflow.Chaotic

/-!
# What the marks of a snapshot tell

A pause takes all marks away, so the marks of a snapshot are those of the one step before it.  A
fact is marked as changed exactly if it differs from the one in the snapshot before, which only the
fact that the step computed can do; and exactly the facts that went into its computation are marked
as looked at.
-/

namespace FlowTrace

variable {α β : Type}

/-! ## The marks of one table -/

namespace Observed

@[simp] theorem get?_reset (s : Observed α) (n : NodeId) :
    s.reset.get? n = (s.get? n).map fun c => .fresh c.value :=
  Table.get?_mapEntries s _ n

theorem get?_foldl_look (s : Observed α) (ns : List NodeId) (n : NodeId) :
    (ns.foldl look s).get? n =
      (s.get? n).map fun c => { c with lookedAt := c.lookedAt || decide (n ∈ ns) } := by
  induction ns generalizing s with
  | nil => simp
  | cons m ns ih =>
    rw [List.foldl_cons, ih, look, Table.get?_modify]
    by_cases h : n = m
    · simp [h, Function.comp_def]
    · simp [h]

@[simp] theorem keys_foldl_look (s : Observed α) (ns : List NodeId) :
    (ns.foldl look s).keys = s.keys := by
  induction ns generalizing s with
  | nil => rfl
  | cons m ns ih => rw [List.foldl_cons, ih, keys_look]

/-- What a step does to a table of facts, as the marks tell that it leaves. -/
structure Marks (same : α → α → Bool) (looked recomputed : NodeId → Prop) (s s' : Observed α) :
    Prop where
  keys_eq : s'.keys = s.keys
  lookedAt_iff : ∀ {n c'}, s'.get? n = some c' → (c'.lookedAt = true ↔ looked n)
  /-- A fact is marked as changed if it is not the same as before. -/
  changed_iff : ∀ {n c c'}, s.get? n = some c → s'.get? n = some c' →
    (c'.changed = true ↔ same c.value c'.value = false)
  recomputed_of_changed : ∀ {n c'}, s'.get? n = some c' → c'.changed = true → recomputed n
  /-- All other facts stay as they are. -/
  value_eq : ∀ {n c c'}, s.get? n = some c → s'.get? n = some c' → ¬ recomputed n →
    c'.value = c.value

variable {same : α → α → Bool} {looked looked' recomputed recomputed' : NodeId → Prop}
  {s s' : Observed α} {n : NodeId} {old : α}

theorem Marks.congr (h : s.Marks same looked recomputed s') (hl : ∀ n, looked n ↔ looked' n)
    (hr : ∀ n, recomputed n → recomputed' n) : s.Marks same looked' recomputed' s' where
  keys_eq := h.keys_eq
  lookedAt_iff hc' := (h.lookedAt_iff hc').trans (hl _)
  changed_iff := h.changed_iff
  recomputed_of_changed hc' hchanged := hr _ (h.recomputed_of_changed hc' hchanged)
  value_eq hc hc' hn := h.value_eq hc hc' (mt (hr _) hn)

/-- A step that works on each fact by itself. -/
theorem marks_of_get? {f : NodeId → α → Cell α} (hsame : ∀ v, same v v = true)
    (hkeys : s'.keys = s.keys) (hget : ∀ n, s'.get? n = (s.get? n).map fun c => f n c.value)
    (hlooked : ∀ n v, (f n v).lookedAt = true ↔ looked n)
    (hchanged : ∀ n v, (f n v).changed = true ↔ same v (f n v).value = false)
    (hvalue : ∀ n v, ¬ recomputed n → (f n v).value = v) : s.Marks same looked recomputed s' := by
  have hcell : ∀ {n c'}, s'.get? n = some c' → ∃ c, s.get? n = some c ∧ f n c.value = c' := by
    intro n c' hc'
    rw [hget] at hc'
    exact Option.map_eq_some_iff.mp hc'
  have heq : ∀ {n c c'}, s.get? n = some c → s'.get? n = some c' → f n c.value = c' := by
    intro n c c' hc hc'
    rw [hget, hc] at hc'
    exact Option.some.inj hc'
  refine ⟨hkeys, @fun n c' hc' => ?_, @fun n c c' hc hc' => ?_, @fun n c' hc' h => ?_,
    @fun n c c' hc hc' hn => ?_⟩
  · obtain ⟨c, -, rfl⟩ := hcell hc'
    exact hlooked n _
  · obtain rfl := heq hc hc'
    exact hchanged n _
  · obtain ⟨c, -, rfl⟩ := hcell hc'
    by_contra hn
    rw [hchanged, hvalue n _ hn, hsame] at h
    cases h
  · obtain rfl := heq hc hc'
    exact hvalue n _ hn

/-- Looking at facts changes none. -/
theorem marks_foldl_look (hsame : ∀ v, same v v = true) (s : Observed α) (ns : List NodeId) :
    s.Marks same (· ∈ ns) (fun _ => False) (ns.foldl look s.reset) := by
  apply marks_of_get? (f := fun n v => ⟨v, decide (n ∈ ns), false⟩) hsame
  · rw [keys_foldl_look, keys_reset]
  · intro n
    rw [get?_foldl_look, get?_reset, Option.map_map]
    rfl
  · exact fun n v => decide_eq_true_iff
  · simp [hsame]
  · exact fun n v _ => rfl

theorem marks_look (hsame : ∀ v, same v v = true) (s : Observed α) (n : NodeId) :
    s.Marks same (· = n) (fun _ => False) (s.reset.look n) :=
  (marks_foldl_look hsame s [n]).congr (fun _ => List.mem_singleton) fun _ => id

theorem marks_reset (hsame : ∀ v, same v v = true) (s : Observed α) :
    s.Marks same (fun _ => False) (fun _ => False) s.reset :=
  (marks_foldl_look hsame s []).congr (fun _ => by simp) fun _ => id

theorem get?_put_self (hold : s.reset.peek? n = some old) (new : α) (isNew : Bool) :
    (s.reset.put n new isNew).get? n = some ⟨new, false, isNew⟩ := by
  rw [peek?_reset] at hold
  obtain ⟨c, hc, -⟩ := Option.map_eq_some_iff.mp hold
  simp [put, hc, Cell.fresh]

/-- A fact that is put in place of another one is marked if they differ. -/
theorem marks_put (hsame : ∀ v, same v v = true) (hold : s.reset.peek? n = some old) (new : α) :
    s.Marks same (fun _ => False) (· = n) (s.reset.put n new (!same old new)) := by
  apply marks_of_get?
    (f := fun m v => if m = n then ⟨new, false, !same v new⟩ else .fresh v) hsame
  · rw [put, Table.keys_modify, keys_reset]
  · intro m
    rw [put, Table.get?_modify, get?_reset]
    split
    · next hm =>
      subst hm
      rw [peek?_reset] at hold
      obtain ⟨c, hc, rfl⟩ := Option.map_eq_some_iff.mp hold
      simp [hc, Cell.fresh]
    · rfl
  · intro m v
    split <;> simp [Cell.fresh]
  · intro m v
    split <;> simp [Cell.fresh, hsame]
  · intro m v hm
    rw [if_neg hm]
    rfl

end Observed

/-! ## The marks of a snapshot -/

/-- Of lists that are related item by item, each item of the second stands for one of the first. -/
theorem exists_related_of_mem {R : α → β → Prop} {l : List α} {l' : List β}
    (h : List.Forall₂ R l l') {b : β} (hb : b ∈ l') : ∃ a ∈ l, R a b := by
  induction h with
  | nil => cases hb
  | cons hR _ ih =>
    rcases List.mem_cons.mp hb with rfl | hmem
    · exact ⟨_, List.mem_cons_self, hR⟩
    · obtain ⟨a, hmem, ha⟩ := ih hmem
      exact ⟨a, List.mem_cons_of_mem _ hmem, ha⟩

namespace Snapshot

/-- The marks of a snapshot tell what one step did to the facts of the snapshot before it. -/
def Tells (same : α → α → Bool) (looked recomputed : String → NodeId → Prop)
    (s s' : Snapshot α) : Prop :=
  List.Forall₂ (fun f f' => f'.1 = f.1 ∧ f.2.Marks same (looked f.1) (recomputed f.1) f'.2)
    s.facts s'.facts

/-- No fact is marked. -/
def Unmarked (s : Snapshot α) : Prop :=
  ∀ f ∈ s.facts, ∀ n c, f.2.get? n = some c → c.lookedAt = false ∧ c.changed = false

/-- The fact that was computed just before a snapshot. -/
def Recomputed (s : Snapshot α) (name : String) (n : NodeId) : Prop :=
  s.current = some n ∧ (s.phase = .inComputed ∧ name = "in" ∨ s.phase = .outComputed ∧ name = "out")

end Snapshot

namespace Problem

def mergedName (p : Problem α) : String :=
  match p.direction with
  | .forward => "in"
  | .backward => "out"

def flowedName (p : Problem α) : String :=
  match p.direction with
  | .forward => "out"
  | .backward => "in"

/-- What goes into the fact that was computed just before a snapshot: the flowed facts of the
neighbours, or the merged fact of the node itself with the facts that describe it. -/
def Consulted (p : Problem α) (s : Snapshot α) (name : String) (n : NodeId) : Prop :=
  ∃ m, s.current = some m ∧
    (s.phase = Half.merge.phase p.direction ∧ name = p.flowedName ∧ p.Sends n m ∨
      s.phase = Half.transfer.phase p.direction ∧ n = m ∧
        (name ∈ p.sideNames ∨ name = p.mergedName))

variable {p : Problem α} {s : Snapshot α} {m n : NodeId} {name : String}

theorem consulted_merge_iff (hphase : s.phase = Half.merge.phase p.direction)
    (hcurrent : s.current = some m) :
    p.Consulted s name n ↔ name = p.flowedName ∧ p.Sends n m := by
  rw [Consulted, hphase, hcurrent]
  cases p.direction <;> simp [Half.phase]

theorem consulted_transfer_iff (hphase : s.phase = Half.transfer.phase p.direction)
    (hcurrent : s.current = some m) :
    p.Consulted s name n ↔ n = m ∧ (name ∈ p.sideNames ∨ name = p.mergedName) := by
  rw [Consulted, hphase, hcurrent]
  cases p.direction <;> simp [Half.phase]

theorem not_consulted (hcurrent : s.current = none) : ¬ p.Consulted s name n := by
  rintro ⟨m, hm, -⟩
  rw [hcurrent] at hm
  cases hm

/-- The flowed facts have a name of their own. -/
theorem names_of_nodup (hp : p.factNames.Nodup) :
    p.mergedName ≠ p.flowedName ∧ p.flowedName ∉ p.sideNames := by
  obtain ⟨-, -, hdisjoint⟩ := List.nodup_append.mp hp
  have hin : "in" ∉ p.sideNames := fun h => hdisjoint _ h _ (by simp) rfl
  have hout : "out" ∉ p.sideNames := fun h => hdisjoint _ h _ (by simp) rfl
  unfold mergedName flowedName
  cases p.direction with
  | forward => exact ⟨by decide, hout⟩
  | backward => exact ⟨by decide, hin⟩

theorem recomputed_merge (hphase : s.phase = Half.merge.phase p.direction)
    (hcurrent : s.current = some n) : s.Recomputed p.mergedName n := by
  rw [Snapshot.Recomputed, hphase, mergedName]
  cases p.direction <;> simp [Half.phase, hcurrent]

theorem recomputed_transfer (hphase : s.phase = Half.transfer.phase p.direction)
    (hcurrent : s.current = some n) : s.Recomputed p.flowedName n := by
  rw [Snapshot.Recomputed, hphase, flowedName]
  cases p.direction <;> simp [Half.phase, hcurrent]

end Problem

/-! ## The marks of one step -/

namespace Run

variable {r r' : Run α} {n : NodeId} {changed : Bool} {st : Stores α}

/-- A merge looks at the flowed facts of the neighbours. -/
theorem marks_of_merge (hr : r.stores = st.reset) (hsame : ∀ v, r.problem.lattice.eq v v = true)
    (ht : r.stores.Total r.problem.graph.nodes) (hg : r.problem.graph.WellFormed)
    (hn : n ∈ r.problem.graph.nodes) (h : r.compute .merge n = .ok changed r') :
    r'.stores.sides = st.reset.sides ∧
      st.merged.Marks r.problem.lattice.eq (fun _ => False) (· = n) r'.stores.merged ∧
      st.flowed.Marks r.problem.lattice.eq (r.problem.Sends · n) (fun _ => False)
        r'.stores.flowed ∧
      ∃ c, r'.stores.merged.get? n = some c ∧ c.changed = changed := by
  obtain ⟨ss, f, old, hss, hmem, hf, hold⟩ := ht.exists_merge hg hn
  rw [compute_of_ok (Problem.run_merge hss hf hold)] at h
  obtain ⟨rfl, rfl⟩ := EStateM.Result.ok.inj h
  rw [hr] at hold ⊢
  refine ⟨rfl, Observed.marks_put hsame hold _, ?_, ?_⟩
  · exact (Observed.marks_foldl_look hsame st.flowed ss).congr hmem fun _ => id
  · exact ⟨_, Observed.get?_put_self hold _ _, rfl⟩

/-- A transfer looks at the merged fact of the node and at the facts that describe it. -/
theorem marks_of_transfer (hr : r.stores = st.reset)
    (hsame : ∀ v, r.problem.lattice.eq v v = true) (ht : r.stores.Total r.problem.graph.nodes)
    (hn : n ∈ r.problem.graph.nodes) (h : r.compute .transfer n = .ok changed r') :
    r'.stores.sides = st.sides.map (fun side => (side.1, side.2.reset.look n)) ∧
      st.merged.Marks r.problem.lattice.eq (· = n) (fun _ => False) r'.stores.merged ∧
      st.flowed.Marks r.problem.lattice.eq (fun _ => False) (· = n) r'.stores.flowed ∧
      ∃ c, r'.stores.flowed.get? n = some c ∧ c.changed = changed := by
  obtain ⟨value, hvalue⟩ := ht.merged n hn
  obtain ⟨old, hold⟩ := ht.flowed n hn
  rw [compute_of_ok (Problem.run_flow (ht.exists_side hn) hvalue hold)] at h
  obtain ⟨rfl, rfl⟩ := EStateM.Result.ok.inj h
  rw [hr] at hold ⊢
  refine ⟨?_, Observed.marks_look hsame _ n, Observed.marks_put hsame hold _, ?_⟩
  · simp [Stores.reset, Function.comp_def]
  · exact ⟨_, Observed.get?_put_self hold _ _, rfl⟩

end Run

variable [SemilatticeSup β] [OrderBot β] {p : Problem α} {R : p.Reading β} {H : R.Height}
  {q q' : Run α} {n : NodeId} {half : Half} {changed : Bool} {st : Stores α}
  {phase phase' : Phase} {current current' : Option NodeId}

/-- The tables of two snapshots, one by one. -/
theorem Run.tells_pause {same : α → α → Bool} {looked recomputed : String → NodeId → Prop}
    (hq : q.problem = p) (hq' : q'.problem = p)
    (hsides : List.Forall₂
      (fun f f' => f'.1 = f.1 ∧ f.2.Marks same (looked f.1) (recomputed f.1) f'.2)
      q.stores.sides q'.stores.sides)
    (hmerged : q.stores.merged.Marks same (looked p.mergedName) (recomputed p.mergedName)
      q'.stores.merged)
    (hflowed : q.stores.flowed.Marks same (looked p.flowedName) (recomputed p.flowedName)
      q'.stores.flowed) :
    (q.pause phase current).1.Tells same looked recomputed (q'.pause phase' current').1 := by
  refine List.rel_append hsides ?_
  rw [Problem.mergedName] at hmerged
  rw [Problem.flowedName] at hflowed
  simp only [pause, hq, hq']
  cases hd : p.direction with
  | forward =>
    rw [hd] at hmerged hflowed
    exact .cons ⟨rfl, hmerged⟩ (.cons ⟨rfl, hflowed⟩ .nil)
  | backward =>
    rw [hd] at hmerged hflowed
    exact .cons ⟨rfl, hflowed⟩ (.cons ⟨rfl, hmerged⟩ .nil)

namespace Problem.Reading

theorem eq_refl (R : p.Reading β) (v : α) : p.lattice.eq v v = true := (R.eq_iff v v).mpr rfl

/-- What one step can have done to the facts that describe the nodes. -/
theorem forall₂_marks {f : Observed α → Observed α} {looked : NodeId → Prop}
    {consulted recomputed : String → NodeId → Prop} {sides : List (String × Observed α)}
    (h : ∀ t : Observed α, t.Marks p.lattice.eq looked (fun _ => False) (f t))
    (hlooked : ∀ side ∈ sides, ∀ n, looked n ↔ consulted side.1 n) :
    List.Forall₂ (fun g g' => g'.1 = g.1 ∧
        g.2.Marks p.lattice.eq (consulted g.1) (recomputed g.1) g'.2)
      sides (sides.map fun side => (side.1, f side.2)) := by
  rw [List.forall₂_map_right_iff, List.forall₂_same]
  intro side hside
  exact ⟨rfl, (h side.2).congr (hlooked side hside) fun _ => False.elim⟩

/-- A half visit looks at what goes into its fact, and changes no other. -/
theorem Visit.tells (hv : R.Visit (q.pause phase current).2 half n changed st)
    (hq : q.problem = p) (ht : q.stores.reset.Total p.graph.nodes) (hg : p.graph.WellFormed)
    (hn : n ∈ p.graph.nodes) (hnames : p.factNames.Nodup)
    (hsides : ∀ side ∈ q.stores.sides, side.1 ∈ p.sideNames) (hq' : q'.problem = p)
    (hst : q'.stores = st) :
    let s' := (q'.pause (half.phase p.direction) (some n)).1
    (q.pause phase current).1.Tells p.lattice.eq (p.Consulted s') s'.Recomputed s' := by
  intro s'
  obtain ⟨hne, hflowedName⟩ := Problem.names_of_nodup hnames
  subst hq hst
  cases half with
  | merge =>
    have hiff : ∀ name m, q.problem.Consulted s' name m ↔
        name = q.problem.flowedName ∧ q.problem.Sends m n :=
      fun name m => Problem.consulted_merge_iff rfl rfl
    obtain ⟨hs, hmerged, hflowed, -⟩ :=
      Run.marks_of_merge (r := (q.pause phase current).2) rfl R.eq_refl ht hg hn hv.computed
    refine Run.tells_pause rfl hq' ?_ (hmerged.congr ?_ ?_) (hflowed.congr ?_ ?_)
    · rw [hs]
      refine forall₂_marks (f := Observed.reset) (Observed.marks_reset R.eq_refl) ?_
      intro side hside m
      rw [hiff, false_iff]
      rintro ⟨hname, -⟩
      exact hflowedName (hname ▸ hsides side hside)
    · intro m
      rw [hiff, false_iff]
      exact fun h => hne h.1
    · rintro m rfl
      exact Problem.recomputed_merge rfl rfl
    · intro m
      rw [hiff]
      exact (and_iff_right rfl).symm
    · exact fun m => False.elim
  | transfer =>
    have hiff : ∀ name m, q.problem.Consulted s' name m ↔
        m = n ∧ (name ∈ q.problem.sideNames ∨ name = q.problem.mergedName) :=
      fun name m => Problem.consulted_transfer_iff rfl rfl
    obtain ⟨hs, hmerged, hflowed, -⟩ :=
      Run.marks_of_transfer (r := (q.pause phase current).2) rfl R.eq_refl ht hn hv.computed
    refine Run.tells_pause rfl hq' ?_ (hmerged.congr ?_ ?_) (hflowed.congr ?_ ?_)
    · rw [hs]
      refine forall₂_marks (f := fun t => t.reset.look n)
        (Observed.marks_look R.eq_refl · n) ?_
      intro side hside m
      rw [hiff]
      exact (and_iff_left (.inl (hsides side hside))).symm
    · intro m
      rw [hiff]
      exact (and_iff_left (.inr rfl)).symm
    · exact fun m => False.elim
    · intro m
      rw [hiff, false_iff]
      rintro ⟨-, hname | hname⟩
      · exact hflowedName hname
      · exact hne hname.symm
    · rintro m rfl
      exact Problem.recomputed_transfer rfl rfl

/-- Where nothing is computed nothing is looked at. -/
theorem tells_idle (R : p.Reading β) (hq : q.problem = p) (hq' : q'.problem = p)
    (hst : q'.stores = q.stores.reset) :
    let s' := (q'.pause phase' none).1
    (q.pause phase current).1.Tells p.lattice.eq (p.Consulted s') s'.Recomputed s' := by
  intro s'
  have hiff : ∀ name m, False ↔ p.Consulted s' name m :=
    fun name m => (iff_false_intro (Problem.not_consulted rfl)).symm
  refine Run.tells_pause hq hq' ?_ ?_ ?_
  · rw [hst]
    exact forall₂_marks (f := Observed.reset) (Observed.marks_reset R.eq_refl)
      fun side _ => hiff side.1
  · rw [hst]
    exact (Observed.marks_reset R.eq_refl _).congr (hiff _) fun _ => False.elim
  · rw [hst]
    exact (Observed.marks_reset R.eq_refl _).congr (hiff _) fun _ => False.elim

end Problem.Reading

namespace Run

variable {r r' : Run α} {s' : Snapshot α}

theorem Guarded.next (h : Guarded H r) (hg : p.graph.WellFormed)
    (hs : r.next? = some (s', r')) : Guarded H r' where
  toOnCourse := h.toOnCourse.next hg hs
  frame_eq := (h.climbs_next hg hs).frame_eq.trans h.frame_eq

theorem Guarded.map_fst_sides (h : Guarded H r) : r.stores.sides.map Prod.fst = p.sideNames := by
  have hframe := congrArg (List.map Prod.fst) (Prod.mk.inj h.frame_eq).1
  simpa [Stores.initial, Problem.sideNames, Function.comp_def] using hframe

/-- After a pause, the next snapshot tells what was done since. -/
theorem Guarded.tells (h : Guarded H (q.pause phase current).2) (hg : p.graph.WellFormed)
    (hnames : p.factNames.Nodup) (hs : (q.pause phase current).2.next? = some (s', r')) :
    (q.pause phase current).1.Tells p.lattice.eq (p.Consulted s') s'.Recomputed s' := by
  obtain ⟨phase', current', q', hq', hpause⟩ := h.advance hg hs
  obtain rfl := congrArg Prod.fst hpause
  have hproblem : q.problem = p := h.problem_eq
  have hsides : ∀ side ∈ q.stores.sides, side.1 ∈ p.sideNames := by
    intro side hside
    rw [← h.map_fst_sides]
    simpa [pause, Stores.reset] using ⟨_, hside⟩
  have hdirection : (q.pause phase current).2.problem.direction = p.direction := by
    rw [h.problem_eq]
  -- the half visits are told alike, whatever the sweep does after them
  have hvisit : ∀ {half n changed st} {q' : Run α}, q'.problem = q.problem → n ∈ p.graph.nodes →
      R.Visit (q.pause phase current).2 half n changed st → q'.stores = st →
      let s' := (q'.pause (half.phase (q.pause phase current).2.problem.direction) (some n)).1
      (q.pause phase current).1.Tells p.lattice.eq (p.Consulted s') s'.Recomputed s' := by
    intro half n changed st q' hq' hn hv hst
    rw [hdirection]
    exact hv.tells hproblem h.grounded.total hg hn hnames hsides (hq'.trans hproblem) hst
  cases hq' with
  | start => exact R.tells_idle hproblem hproblem rfl
  | merge hstage hv => exact hvisit rfl (h.visit_mem hstage) hv rfl
  | transfer hstage hv => exact hvisit rfl (h.visit_mem hstage) hv rfl
  | lap hstage hv => exact hvisit rfl (h.visit_mem hstage) hv rfl
  | settle hstage hv => exact hvisit rfl (h.visit_mem hstage) hv rfl
  | finish => exact R.tells_idle hproblem hproblem rfl

/-- So do all snapshots that are left. -/
theorem Guarded.isChain_tells (h : Guarded H (q.pause phase current).2) (hg : p.graph.WellFormed)
    (hnames : p.factNames.Nodup) {l : List (Snapshot α)}
    (hl : (q.pause phase current).2.Yields l) :
    ((q.pause phase current).1 :: l).IsChain fun s s' =>
      s.Tells p.lattice.eq (p.Consulted s') s'.Recomputed s' := by
  -- each run on the way is one that a pause has left, so it starts its step without marks
  induction l generalizing q phase current with
  | nil => exact .singleton _
  | cons s' l ih =>
    cases hl with
    | next hs hrest =>
      have htells := h.tells hg hnames hs
      have h' := h.next hg hs
      obtain ⟨phase', current', q', -, hpause⟩ := h.advance hg hs
      obtain ⟨rfl, rfl⟩ := Prod.mk.inj hpause
      exact .cons_cons htells (ih h' hrest)

end Run

@[simp] theorem Stores.reset_initial (p : Problem α) : (Stores.initial p).reset = .initial p := by
  have hreset : ∀ t : Table NodeId α, (Observed.ofTable t).reset = .ofTable t := by
    intro t
    ext1
    simp [Observed.reset, Observed.ofTable, Table.mapEntries, Cell.fresh]
  simp [initial, reset, hreset]

/-- A run starts without marks, as if it came from a pause. -/
theorem Problem.Reading.isChain_tells (R : p.Reading β) (H : R.Height) (hg : p.graph.WellFormed)
    (hnames : p.factNames.Nodup) :
    (((Run.start p).pause .initialized none).1 :: p.trace).IsChain fun s s' =>
      s.Tells p.lattice.eq (p.Consulted s') s'.Recomputed s' := by
  have hstart : ((Run.start p).pause .initialized none).2 = Run.start p := by
    simp [Run.pause, Run.start]
  have hguarded := Run.guarded_start H
  have hyields := R.yields_trace H hg
  rw [← hstart] at hguarded hyields
  exact hguarded.isChain_tells hg hnames hyields

/-! ## The marks of the analyses -/

theorem FlowGraph.keys_tabulate {g : FlowGraph} (hg : g.nodes.Nodup) (f : NodeId → α) :
    (g.tabulate f).keys = g.nodes := by
  have hmap : (g.nodes.map fun n => (n, f n)).map Prod.fst = g.nodes := by
    simp [Function.comp_def]
  rw [tabulate, Table.keys, Table.entries_ofList (by rwa [hmap]), hmap]

namespace Snapshot

/-- The names of the facts, each with the nodes that have one. -/
def outline (s : Snapshot α) : List (String × List NodeId) := s.facts.map fun f => (f.1, f.2.keys)

variable {same : α → α → Bool} {looked recomputed : String → NodeId → Prop} {s s' : Snapshot α}

theorem Tells.outline_eq (h : s.Tells same looked recomputed s') : s'.outline = s.outline := by
  have heq : List.Forall₂ (fun f f' => ((f.1, f.2.keys) : String × List NodeId) = (f'.1, f'.2.keys))
      s.facts s'.facts := h.imp fun f f' hf => by rw [hf.1, hf.2.keys_eq]
  rw [outline, outline, ← List.forall₂_eq_eq_eq, List.forall₂_map_left_iff,
    List.forall₂_map_right_iff]
  exact heq.flip.imp fun _ _ => Eq.symm

/-- Every fact stands for one of the snapshot before. -/
theorem Tells.exists_marks (h : s.Tells same looked recomputed s') {f' : String × Observed α}
    (hf' : f' ∈ s'.facts) :
    ∃ f ∈ s.facts, f'.1 = f.1 ∧ f.2.Marks same (looked f.1) (recomputed f.1) f'.2 :=
  exists_related_of_mem h hf'

/-- The snapshots at both ends come after no computation. -/
theorem Tells.unmarked (h : s.Tells same (p.Consulted s') s'.Recomputed s')
    (hphase : s'.phase = .initialized ∨ s'.phase = .ended) : s'.Unmarked := by
  have hconsulted : ∀ name n, ¬ p.Consulted s' name n := by
    rintro name n ⟨m, -, ⟨h, -⟩ | ⟨h, -⟩⟩
    · rw [h] at hphase
      cases hd : p.direction <;> simp [hd, Half.phase] at hphase
    · rw [h] at hphase
      cases hd : p.direction <;> simp [hd, Half.phase] at hphase
  have hrecomputed : ∀ name n, ¬ s'.Recomputed name n := by
    rintro name n ⟨-, ⟨h, -⟩ | ⟨h, -⟩⟩
    · simp [h] at hphase
    · simp [h] at hphase
  intro f' hf' n c hc
  obtain ⟨f, -, -, hmarks⟩ := h.exists_marks hf'
  exact ⟨Bool.eq_false_iff.mpr (mt (hmarks.lookedAt_iff hc).mp (hconsulted _ n)),
    Bool.eq_false_iff.mpr (mt (hmarks.recomputed_of_changed hc) (hrecomputed _ n))⟩

end Snapshot

theorem Problem.Reading.unmarked_start (R : p.Reading β) :
    ((Run.start p).pause .initialized none).1.Unmarked := by
  let s := ((Run.start p).pause .initialized none).1
  have hidle : s.Tells p.lattice.eq (p.Consulted s) s.Recomputed s :=
    R.tells_idle rfl rfl (Stores.reset_initial p).symm
  exact hidle.unmarked (.inl rfl)

theorem Problem.Reading.unmarked_of_mem (R : p.Reading β) (H : R.Height) (hg : p.graph.WellFormed)
    (hnames : p.factNames.Nodup) :
    ∀ s ∈ p.trace, s.phase = .initialized ∨ s.phase = .ended → s.Unmarked :=
  (R.isChain_tells H hg hnames).cons_induction (fun s => s.phase = _ ∨ s.phase = _ → s.Unmarked) _
    (fun _ _ h _ => h.unmarked) fun _ => R.unmarked_start

namespace Analysis

/-- What an analysis looks at to compute a fact of the node `m`. -/
def LooksAt (g : FlowGraph) (m : NodeId) : Analysis → Phase → String → NodeId → Prop
  | liveness _ _, .outComputed, name, n => name = "in" ∧ g.hasEdge m n = true
  | liveness _ _, .inComputed, name, n => n = m ∧ name ∈ ["use", "def", "out"]
  | reaching, .inComputed, name, n => name = "out" ∧ g.hasEdge n m = true
  | reaching, .outComputed, name, n => n = m ∧ name ∈ ["gen", "kill", "in"]
  | constants, .inComputed, name, n => name = "out" ∧ g.hasEdge n m = true
  | constants, .outComputed, name, n => n = m ∧ name = "in"
  | _, .initialized, _, _ | _, .ended, _, _ => False

/-- What an analysis has looked at just before a snapshot. -/
def Consulted (a : Analysis) (g : FlowGraph) (s : Snapshot a.Fact) (name : String) (n : NodeId) :
    Prop :=
  ∃ m, s.current = some m ∧ LooksAt g m a s.phase name n

variable {a : Analysis} {g : FlowGraph} {s : Snapshot a.Fact}

theorem consulted_problem (a : Analysis) (g : FlowGraph) :
    (a.problem g).Consulted = a.Consulted g := by
  funext s name n
  apply propext
  refine exists_congr fun m => and_congr_right fun _ => ?_
  cases a with
  | liveness _ _ => cases s.phase <;> simp [LooksAt, Half.phase, problem, Liveness.problem,
      Problem.flowedName, Problem.mergedName, Problem.sideNames, Problem.Sends, or_assoc]
  | reaching => cases s.phase <;> simp [LooksAt, Half.phase, problem, Reaching.problem,
      Problem.flowedName, Problem.mergedName, Problem.sideNames, Problem.Sends, or_assoc]
  | constants => cases s.phase <;> simp [LooksAt, Half.phase, problem, Constants.problem,
      Problem.flowedName, Problem.mergedName, Problem.sideNames, Problem.Sends]

theorem nodup_factNames (a : Analysis) (g : FlowGraph) : (a.problem g).factNames.Nodup := by
  cases a with
  | liveness _ _ => exact (by decide : ["use", "def", "in", "out"].Nodup)
  | reaching => exact (by decide : ["gen", "kill", "in", "out"].Nodup)
  | constants => exact (by decide : ["in", "out"].Nodup)

theorem keys_sides (a : Analysis) (hg : g.nodes.Nodup) :
    ∀ side ∈ (a.problem g).sides, side.2.keys = g.nodes := by
  cases a with
  | liveness _ _ =>
    simp [problem, Liveness.problem, FlowGraph.keys_tabulate hg]
  | reaching => simp [problem, Reaching.problem, FlowGraph.keys_tabulate hg]
  | constants => simp [problem, Constants.problem]

/-- At the start all nodes have all facts. -/
theorem outline_start (a : Analysis) (hg : g.nodes.Nodup) :
    ((Run.start (a.problem g)).pause .initialized none).1.outline =
      (a.problem g).factNames.map (·, g.nodes) := by
  have hkeys : ∀ f : NodeId → a.Fact, (g.tabulate f).keys = g.nodes := FlowGraph.keys_tabulate hg
  have hsides : ∀ side ∈ (a.problem g).sides, (side.1, side.2.keys) = (side.1, g.nodes) :=
    fun side hside => by rw [a.keys_sides hg side hside]
  have hfacts : ∀ d, ((Stores.initial (a.problem g)).ins d).keys = g.nodes ∧
      ((Stores.initial (a.problem g)).outs d).keys = g.nodes := by
    intro d
    cases d <;> simp [Stores.ins, Stores.outs, Stores.initial, Observed.ofTable, hkeys]
  simp only [Snapshot.outline, Snapshot.facts, Run.pause, Run.start, Problem.factNames,
    Problem.sideNames, List.map_append, List.map_cons, List.map_nil, hfacts]
  congr 1
  simpa [Stores.initial, Observed.ofTable, Function.comp_def] using hsides

/-- All snapshots of a run have all facts for all nodes. -/
theorem outline_of_mem_trace (a : Analysis) (hg : g.WellFormed) :
    ∀ s ∈ (a.problem g).trace, s.outline = (a.problem g).factNames.map (·, g.nodes) := by
  have hchain := (a.reading g).isChain_tells (a.height g) (a.wellFormed_graph hg)
    (a.nodup_factNames g)
  exact hchain.cons_induction (·.outline = _) _ (fun _ _ h hs => h.outline_eq.trans hs)
    (a.outline_start hg.nodes_nodup)

end Analysis

/-- **Marks tell exactly what one step did.**  All snapshots of a run have the same facts for all
nodes.  The first one and the last carry no mark.  Every other one carries those of the step from
the snapshot before: a fact is marked as changed exactly if the lattice tells it from the one
before, which can only be the fact that was computed for the current node, and no other fact is
replaced; exactly the facts that the computation is made from are marked as looked at. -/
theorem Program.Verified.marks_tell_one_step {p : Program} (hp : p.Verified) (kind : GraphKind)
    (a : Analysis) :
    let g := p.graph kind
    let problem := a.problem g
    (Run.start problem).Yields problem.trace ∧
    (∃ first rest, problem.trace = first :: rest ∧ first.phase = .initialized) ∧
    (∀ s ∈ problem.trace, s.outline = problem.factNames.map (·, g.nodes)) ∧
    (∀ s ∈ problem.trace, s.phase = .initialized ∨ s.phase = .ended → s.Unmarked) ∧
    problem.trace.IsChain fun s s' =>
      s.Tells problem.lattice.eq (a.Consulted g s') s'.Recomputed s' := by
  intro g problem
  have hg : g.WellFormed := hp.wellFormed.graph kind
  have hyields := (a.reading g).yields_trace (a.height g) (a.wellFormed_graph hg)
  have hchain := (a.reading g).isChain_tells (a.height g) (a.wellFormed_graph hg)
    (a.nodup_factNames g)
  refine ⟨hyields, ?_, ?_, ?_, ?_⟩
  · obtain ⟨s, r, hs⟩ := (Run.start problem).exists_next (by simp [Run.start])
    generalize problem.trace = l at hyields
    cases hyields with
    | done hnone =>
      rw [hs] at hnone
      cases hnone
    | next hs' _ => exact ⟨_, _, rfl, congrArg (·.1.phase) (Option.some.inj hs').symm⟩
  · exact a.outline_of_mem_trace hg
  · exact (a.reading g).unmarked_of_mem (a.height g) (a.wellFormed_graph hg) (a.nodup_factNames g)
  · rw [a.consulted_problem g] at hchain
    exact hchain.tail

/-- A loop: the first step of a run, told by the marks of the snapshot after it. -/
theorem Program.countdown_marks_tell_one_step :
    let g := countdown.graph .blocks
    let problem := Reaching.problem g
    countdown.Verified ∧ ∃ s s' rest, problem.trace = s :: s' :: rest ∧ s.Unmarked ∧
      s'.outline = ["gen", "kill", "in", "out"].map (·, g.nodes) ∧
      s.Tells problem.lattice.eq (Analysis.reaching.Consulted g s') s'.Recomputed s' := by
  intro g problem
  obtain ⟨-, ⟨first, rest, htrace, hphase⟩, houtline, hunmarked, hchain⟩ :=
    verified_countdown.marks_tell_one_step .blocks .reaching
  have hlength : 2 ≤ problem.trace.length := by decide +kernel
  change problem.trace = _ at htrace
  obtain ⟨s', rest', rfl⟩ : ∃ s' rest', rest = s' :: rest' := by
    apply List.exists_cons_of_ne_nil
    rintro rfl
    rw [htrace] at hlength
    cases hlength with
    | step h => cases h
  refine ⟨verified_countdown, first, s', rest', htrace, hunmarked first ?_ (.inl hphase),
    houtline s' ?_, ?_⟩
  · exact htrace ▸ List.mem_cons_self
  · exact htrace ▸ List.mem_cons_of_mem _ List.mem_cons_self
  · change problem.trace.IsChain _ at hchain
    rw [htrace, List.isChain_cons_cons] at hchain
    exact hchain.1

end FlowTrace
