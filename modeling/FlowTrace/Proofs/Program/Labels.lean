import FlowTrace.Proofs.Graph.Builds
import FlowTrace.Proofs.Program.Renaming

/-!
# Labels

A list of instructions is accepted exactly if no label is carried twice and every jump goes to a
label that is carried.  Otherwise all that is wrong is reported: first the instructions whose label
an earlier one carries, then the jumps whose target none carries.  The table of labels is filled
from the first instruction on, and a label that is there already stays where it is; so the first
instruction that carries a label counts, whatever comes after it.
-/

namespace FlowTrace

/-- The labels that some instructions carry. -/
def Instr.labelsOf (instrs : List Instr) : List String := instrs.filterMap (·.label)

theorem Instr.mem_labelsOf {instrs : List Instr} {label : String} :
    label ∈ labelsOf instrs ↔ ∃ i ∈ instrs, i.label = some label := List.mem_filterMap

namespace Program

/-! ## What is asked of labels, and what is reported -/

/-- No two instructions carry the same label. -/
def LabelsDiffer (instrs : List Instr) : Prop :=
  instrs.Pairwise fun i j => ∀ label, i.label = some label → j.label ≠ some label

/-- Every jump goes to a label that some instruction carries. -/
def TargetsCarried (instrs : List Instr) : Prop :=
  ∀ i ∈ instrs, ∀ label, i.target? = some label → ∃ j ∈ instrs, j.label = some label

/-- What is wrong with the label of an instruction at a place: one of those before it carries it. -/
def repeatedAt (instrs : List Instr) (e : Instr × Nat) : Option Fault := do
  let label ← e.1.label
  guard (label ∈ Instr.labelsOf (instrs.take e.2))
  return ⟨.repeatedLabel label, e.1.line⟩

/-- What is wrong with the target of an instruction: none of them all carries it. -/
def undefinedAt (instrs : List Instr) (i : Instr) : Option Fault := do
  let label ← i.target?
  guard (label ∉ Instr.labelsOf instrs)
  return ⟨.undefinedLabel label, i.line⟩

/-- All that is wrong with the labels of some instructions. -/
def labelFaults (instrs : List Instr) : List Fault :=
  instrs.zipIdx.filterMap (repeatedAt instrs) ++ instrs.filterMap (undefinedAt instrs)

variable {instrs before : List Instr} {labels : Table String NodeId}
  {code : List (NodeId × Instr)} {p : Program}

theorem repeatedAt_eq_none_iff {e : Instr × Nat} : repeatedAt instrs e = none ↔
    ∀ label, e.1.label = some label → label ∉ Instr.labelsOf (instrs.take e.2) := by
  cases h : e.1.label with
  | none => simp [repeatedAt, h]
  | some label => simp [repeatedAt, h, guard]

theorem undefinedAt_eq_none_iff {i : Instr} : undefinedAt instrs i = none ↔
    ∀ label, i.target? = some label → label ∈ Instr.labelsOf instrs := by
  cases h : i.target? with
  | none => simp [undefinedAt, h]
  | some label => simp [undefinedAt, h, guard]

/-- Nothing is wrong with the labels if each one differs from those before it. -/
theorem repeated_eq_nil_iff :
    instrs.zipIdx.filterMap (repeatedAt instrs) = [] ↔ LabelsDiffer instrs := by
  rw [List.filterMap_eq_nil_iff, LabelsDiffer, List.pairwise_iff_getElem]
  simp only [repeatedAt_eq_none_iff, Instr.mem_labelsOf, Prod.forall,
    List.mem_zipIdx_iff_getElem?]
  constructor
  · intro h m n hm hn hmn label hi hj
    refine h instrs[n] n (List.getElem?_eq_getElem hn) label hj ⟨instrs[m], ?_, hi⟩
    exact List.mem_take_iff_getElem.mpr ⟨m, by omega, rfl⟩
  · rintro h i n hmem label hi ⟨j, hj, hlabel⟩
    obtain ⟨hn, rfl⟩ := List.getElem?_eq_some_iff.mp hmem
    obtain ⟨m, hm, rfl⟩ := List.mem_take_iff_getElem.mp hj
    exact h m n (by omega) hn (by omega) label hlabel hi

theorem undefined_eq_nil_iff :
    instrs.filterMap (undefinedAt instrs) = [] ↔ TargetsCarried instrs := by
  simp only [List.filterMap_eq_nil_iff, undefinedAt_eq_none_iff, Instr.mem_labelsOf]
  rfl

theorem labelFaults_eq_nil_iff :
    labelFaults instrs = [] ↔ LabelsDiffer instrs ∧ TargetsCarried instrs := by
  rw [labelFaults, List.append_eq_nil_iff, repeated_eq_nil_iff, undefined_eq_nil_iff]

/-! ## Filling the table -/

/-- The first instruction that carries a label counts, unless the label was there before. -/
theorem get?_enterLabels (labels : Table String NodeId) (code : List (NodeId × Instr))
    (label : String) : (enterLabels labels code).1.get? label = (labels.get? label).or
      ((code.find? fun e => e.2.label == some label).map Prod.fst) := by
  fun_induction enterLabels labels code with
  | case1 labels => simp
  | case2 labels i instr code hl ih => simpa [hl] using ih
  | case3 labels i instr code l hl hc labels' faults hrest ih =>
    rw [hrest] at ih
    by_cases h : l = label
    · obtain ⟨j, hj⟩ := Table.mem_keys_iff.mp (Table.contains_iff.mp hc)
      subst h
      rw [hj, Option.some_or] at ih ⊢
      exact ih
    · simpa [hl, h] using ih
  | case4 labels i instr code l hl hc ih =>
    rw [ih, Table.get?_insert]
    by_cases h : label = l
    · have hnone : labels.get? l = none := by simpa [Table.contains] using hc
      simp [hl, h, hnone]
    · have h' : ¬ l = label := fun e => h e.symm
      simp [hl, h, h']

theorem contains_enterLabels (labels : Table String NodeId) (code : List (NodeId × Instr))
    (label : String) : (enterLabels labels code).1.contains label = true ↔
      labels.contains label = true ∨ label ∈ Instr.labelsOf (code.map (·.2)) := by
  simp only [Table.contains, get?_enterLabels, Instr.mem_labelsOf, Option.isSome_or,
    Option.isSome_map, Bool.or_eq_true, List.find?_isSome, beq_iff_eq, List.mem_map,
    exists_exists_and_eq_and]

/-- Instructions are entered one after the other. -/
theorem enterLabels_cons (labels : Table String NodeId) (e : NodeId × Instr)
    (code : List (NodeId × Instr)) :
    (enterLabels labels (e :: code)).2 = (enterLabels labels [e]).2 ++
      (enterLabels (enterLabels labels [e]).1 code).2 := by
  obtain ⟨i, instr⟩ := e
  simp only [enterLabels]
  cases instr.label with
  | none => rfl
  | some label =>
    simp only
    split <;> rfl

/-- While the table has the labels of the instructions before, those that come again are found. -/
theorem faults_enterLabels
    (h : ∀ label, labels.contains label = true ↔ label ∈ Instr.labelsOf before) :
    (enterLabels labels code).2 = ((code.map (·.2)).zipIdx before.length).filterMap
      (repeatedAt (before ++ code.map (·.2))) := by
  induction code generalizing before labels with
  | nil => rfl
  | cons e code ih =>
    have hhere : (enterLabels labels [e]).2 =
        (repeatedAt (before ++ e.2 :: code.map (·.2)) (e.2, before.length)).toList := by
      simp only [enterLabels, repeatedAt, List.take_left]
      cases e.2.label with
      | none => rfl
      | some label =>
        by_cases hc : label ∈ Instr.labelsOf before <;> simp [guard, h, hc]
    have hentered : ∀ label, (enterLabels labels [e]).1.contains label = true ↔
        label ∈ Instr.labelsOf (before ++ [e.2]) := by
      intro label
      rw [contains_enterLabels, h]
      simp [Instr.labelsOf]
    have hrest := ih hentered
    rw [List.length_append, List.append_assoc] at hrest
    rw [enterLabels_cons, hhere, hrest, List.map_cons, List.zipIdx_cons, List.filterMap_cons]
    cases repeatedAt (before ++ e.2 :: code.map (·.2)) (e.2, before.length) <;> rfl

/-- The table of some code has the labels that the instructions carry. -/
theorem contains_enterLabels_empty (code : List (NodeId × Instr)) (label : String) :
    (enterLabels .empty code).1.contains label = true ↔
      label ∈ Instr.labelsOf (code.map (·.2)) := by
  rw [contains_enterLabels]
  exact or_iff_right Bool.false_ne_true

theorem undefinedTargets_eq (code : List (NodeId × Instr)) :
    undefinedTargets (enterLabels .empty code).1 code =
      (code.map (·.2)).filterMap (undefinedAt (code.map (·.2))) := by
  rw [undefinedTargets, List.filterMap_map]
  refine List.filterMap_congr fun e _ => ?_
  simp only [Function.comp_apply, undefinedAt, contains_enterLabels_empty]
  cases e.2.target? with
  | none => rfl
  | some label => by_cases hc : label ∈ Instr.labelsOf (code.map (·.2)) <;> simp [guard, hc]

/-- Verification accepts instructions if nothing is wrong with their labels, and reports all that is
wrong otherwise. -/
theorem ofInstrs_eq (hne : instrs ≠ []) (supply : Supply) :
    (labelFaults instrs = [] → ∃ p, ofInstrs instrs supply = .ok p) ∧
      (labelFaults instrs ≠ [] → ofInstrs instrs supply = .error ⟨labelFaults instrs⟩) := by
  have hmap := map_snd_number supply instrs
  have hcode : (supply.number instrs).1 ≠ [] := by
    intro h
    rw [h] at hmap
    exact hne hmap.symm
  have hempty : ∀ label, (Table.empty : Table String NodeId).contains label = true ↔
      label ∈ Instr.labelsOf [] := by
    simp [Table.contains, Instr.labelsOf]
  have hfaults : (enterLabels .empty (supply.number instrs).1).2 ++
      undefinedTargets (enterLabels .empty (supply.number instrs).1).1 (supply.number instrs).1 =
        labelFaults instrs := by
    rw [faults_enterLabels hempty, undefinedTargets_eq, hmap]
    rfl
  simp only [ofInstrs, ofCode?, dif_pos hcode, hfaults, List.isEmpty_iff]
  constructor
  · intro h
    exact ⟨_, if_pos h⟩
  · exact fun h => if_neg h

/-! ## Where control goes -/

/-- An instruction jumps to the one that carries its target. -/
def JumpsTo (p : Program) (e : NodeId × Instr) (j : NodeId) : Prop :=
  ∃ label instr, e.2.target? = some label ∧ (j, instr) ∈ p.code ∧ instr.label = some label

/-- One instruction stands right after another. -/
def Follows (p : Program) (i j : NodeId) : Prop :=
  ∃ before after, p.ids = before ++ i :: j :: after

/-- Where control may go from an instruction: all places are in the program, and none is named
twice. -/
structure Navigable (p : Program) (e : NodeId × Instr) : Prop where
  target_mem : ∀ o ∈ p.jumpTargets e.1, ∃ j ∈ p.ids, o = some j
  target_nodup : (p.jumpTargets e.1).Nodup
  target_iff : ∀ j, some j ∈ p.jumpTargets e.1 ↔ p.JumpsTo e j
  after_mem : ∀ o ∈ p.executedAfter e.1, ∃ j ∈ p.ids, o = some j
  after_nodup : (p.executedAfter e.1).Nodup
  /-- Control goes on to what follows, unless the instruction always jumps, and to a target. -/
  after_iff : ∀ j, some j ∈ p.executedAfter e.1 ↔
    ((∀ label, e.2.body ≠ .jump (some label)) ∧ p.Follows e.1 j) ∨ p.JumpsTo e j

/-- What holds of a program whose labels were verified. -/
structure Resolved (p : Program) : Prop where
  /-- A label stands where it is carried. -/
  labelled_iff : ∀ label i,
    p.labelled? label = some i ↔ ∃ instr, (i, instr) ∈ p.code ∧ instr.label = some label
  /-- It is carried by one instruction only. -/
  carrier_unique : ∀ label, ∀ e ∈ p.code, ∀ f ∈ p.code, e.2.label = some label →
    f.2.label = some label → e = f
  navigable : ∀ e ∈ p.code, p.Navigable e

variable {i : NodeId} {instr : Instr}

theorem jumpTargets_nodup (p : Program) (i : NodeId) : (p.jumpTargets i).Nodup := by
  rw [jumpTargets]
  cases (p.instr? i).bind (·.target?) <;> simp

theorem executedAfter_nodup (p : Program) (i : NodeId) : (p.executedAfter i).Nodup := by
  rw [executedAfter]
  refine List.nodup_append.mpr ⟨?_, (p.jumpTargets_nodup i).filter _, ?_⟩
  · split
    · cases p.following? i <;> simp
    · exact List.nodup_nil
  · rintro o ho _ ho' rfl
    simpa [ho] using List.of_mem_filter ho'

/-- Only an unconditional jump keeps control from going on. -/
theorem fallsThrough_iff (hi : p.instr? i = some instr) :
    p.fallsThrough i = true ↔ ∀ label, instr.body ≠ .jump (some label) := by
  obtain ⟨line, label, body⟩ := instr
  cases body with
  | jump target => cases target <;> simp [fallsThrough, hi, Instr.isJump, Instr.isConditional,
      Instr.target?, Instr.Body.target?, Instr.Body.isConditional]
  | branch _ _ _ _ | branchIf _ _ | branchUnless _ _ | copy _ _ | unary _ _ _ | binary _ _ _ _ =>
    simp [fallsThrough, hi, Instr.isJump, Instr.isConditional, Instr.target?, Instr.Body.target?,
      Instr.Body.isConditional]

/-- The label of an instruction is carried by no other one. -/
theorem LabelsDiffer.unique (h : LabelsDiffer (p.code.map (·.2))) {label : String}
    {e f : NodeId × Instr} (he : e ∈ p.code) (hf : f ∈ p.code) (hle : e.2.label = some label)
    (hlf : f.2.label = some label) : e = f := by
  rw [LabelsDiffer, List.pairwise_map] at h
  by_contra hne
  have hsymm : Std.Symm fun e f : NodeId × Instr =>
      ∀ label, e.2.label = some label → f.2.label ≠ some label :=
    ⟨fun _ _ h label hf he => h label he hf⟩
  exact h.forall he hf hne label hle hlf

/-- A label stands where it is carried, if it is carried once. -/
theorem labelled?_eq_some_iff (hlabels : p.labels = (enterLabels .empty p.code).1)
    (hdiffer : LabelsDiffer (p.code.map (·.2))) {label : String} : p.labelled? label = some i ↔
      ∃ instr, (i, instr) ∈ p.code ∧ instr.label = some label := by
  rw [labelled?, hlabels, get?_enterLabels, Table.get?_empty, Option.none_or,
    Option.map_eq_some_iff]
  constructor
  · rintro ⟨e, he, rfl⟩
    exact ⟨e.2, List.mem_of_find?_eq_some he, by simpa using List.find?_some he⟩
  · rintro ⟨instr, hmem, hlabel⟩
    cases hf : p.code.find? fun e => e.2.label == some label with
    | none => simpa [hlabel] using List.find?_eq_none.mp hf _ hmem
    | some f =>
      have hunique := hdiffer.unique hmem (List.mem_of_find?_eq_some hf) hlabel
        (by simpa using List.find?_some hf)
      exact ⟨f, rfl, congrArg Prod.fst hunique.symm⟩

theorem resolved_of_differ (hp : p.WellFormed) (hlabels : p.labels = (enterLabels .empty p.code).1)
    (hdiffer : LabelsDiffer (p.code.map (·.2))) : p.Resolved := by
  refine ⟨fun _ _ => labelled?_eq_some_iff hlabels hdiffer,
    fun _ e he f hf => hdiffer.unique he hf, fun e he => ?_⟩
  have hinstr : p.instr? e.1 = some e.2 := hp.instr?_eq_some_iff.mpr he
  have htarget : ∀ j, some j ∈ p.jumpTargets e.1 ↔ p.JumpsTo e j := by
    intro j
    simp only [some_mem_jumpTargets_iff, hinstr, Option.some.injEq,
      labelled?_eq_some_iff hlabels hdiffer, JumpsTo, exists_and_left, exists_eq_left']
  refine
    { target_mem := fun o => hp.exists_jumpTargets
      target_nodup := p.jumpTargets_nodup e.1
      target_iff := htarget
      after_mem := fun o => hp.exists_executedAfter
      after_nodup := p.executedAfter_nodup e.1
      after_iff := fun j => ?_ }
  have hsuccessor : some j ∈ p.executedAfter e.1 ↔ j ∈ p.successors e.1 := by
    simp only [successors, List.mem_filterMap, id, exists_eq_right]
  rw [hsuccessor, mem_successors_iff, fallsThrough_iff hinstr, hp.following?_eq_some_iff, htarget]
  rfl

/-- Verification accepts instructions exactly if no label is carried twice and every target is
carried.  It reports all that is wrong otherwise, and what it accepts is a program in which every
label and every jump has its place. -/
theorem ofInstrs_verifies_labels (hne : instrs ≠ []) (supply : Supply) :
    ((∃ p, ofInstrs instrs supply = .ok p) ↔ LabelsDiffer instrs ∧ TargetsCarried instrs) ∧
      (¬ (LabelsDiffer instrs ∧ TargetsCarried instrs) →
        ofInstrs instrs supply = .error ⟨labelFaults instrs⟩) ∧
      (supply.Distinct → ∀ p, ofInstrs instrs supply = .ok p →
        p.code = (supply.number instrs).1 ∧ p.Resolved) := by
  obtain ⟨haccept, hreject⟩ := ofInstrs_eq hne supply
  have hnone : ∀ p, ofInstrs instrs supply = .ok p → labelFaults instrs = [] := by
    intro p hp
    by_contra hfaults
    rw [hreject hfaults] at hp
    cases hp
  rw [← labelFaults_eq_nil_iff]
  refine ⟨⟨fun ⟨p, hp⟩ => hnone p hp, haccept⟩, hreject, ?_⟩
  intro hs p hp
  obtain ⟨hcode, -, hlabels, -, -⟩ := ofInstrs_eq_ok hp
  refine ⟨hcode, resolved_of_differ (wellFormed_ofInstrs hs hp) hlabels ?_⟩
  rw [hcode, map_snd_number]
  exact (labelFaults_eq_nil_iff.mp (hnone p hp)).1

/-- `L: a = 1; L: b = 2; goto M; if a < b goto N; L: c = 3` -/
def muddledBody : List Instr :=
  [⟨1, some "L", .copy "a" (.lit 1)⟩,
   ⟨2, some "L", .copy "b" (.lit 2)⟩,
   ⟨3, none, .jump (some "M")⟩,
   ⟨4, none, .branch (.var "a") .lt (.var "b") (some "N")⟩,
   ⟨5, some "L", .copy "c" (.lit 3)⟩]

/-- The loop is accepted.  Of the other instructions the second and the last are reported, and then
both jumps. -/
theorem ofInstrs_verifies_countdown_and_muddled :
    countdown.Resolved ∧ ofInstrs muddledBody (.countFrom 0) =
      .error ⟨[⟨.repeatedLabel "L", 2⟩, ⟨.repeatedLabel "L", 5⟩, ⟨.undefinedLabel "M", 3⟩,
        ⟨.undefinedLabel "N", 4⟩]⟩ := by
  have hcountdown : countdownBody ≠ [] := List.cons_ne_nil _ _
  have hmuddled : muddledBody ≠ [] := List.cons_ne_nil _ _
  have hfaults : labelFaults muddledBody = [⟨.repeatedLabel "L", 2⟩, ⟨.repeatedLabel "L", 5⟩,
      ⟨.undefinedLabel "M", 3⟩, ⟨.undefinedLabel "N", 4⟩] := by decide
  constructor
  · exact ((ofInstrs_verifies_labels hcountdown (.countFrom 0)).2.2
      (Supply.distinct_countFrom 0) countdown rfl).2
  · rw [← hfaults]
    refine (ofInstrs_verifies_labels hmuddled (.countFrom 0)).2.1 fun h => ?_
    rw [← labelFaults_eq_nil_iff, hfaults] at h
    cases h

end Program

end FlowTrace
