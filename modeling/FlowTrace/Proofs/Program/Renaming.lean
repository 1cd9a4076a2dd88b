import FlowTrace.Proofs.Graph.Blocks
import Mathlib.GroupTheory.GroupAction.MultipleTransitivity

/-!
# Programs under other ids

The same instructions can be numbered from different supplies.  A renaming of the ids carries one
program to the other, and with it all that a program says about its instructions: their places, what
follows them, where they jump, and the blocks that they make up.  Whether a list of instructions is
accepted does not depend on the ids at all.
-/

namespace FlowTrace

/-- Between two lists of as many ids without repetition there is a renaming. -/
theorem exists_perm_map_eq {l l' : List NodeId} (h : l.Nodup) (h' : l'.Nodup)
    (hlength : l.length = l'.length) : ∃ σ : Equiv.Perm NodeId, l' = l.map σ := by
  let x : Fin l.length ↪ NodeId := ⟨l.get, List.nodup_iff_injective_get.mp h⟩
  let y : Fin l.length ↪ NodeId := ⟨fun i => l'.get (i.cast hlength),
    (List.nodup_iff_injective_get.mp h').comp (Fin.cast_injective hlength)⟩
  have := Equiv.Perm.isMultiplyPretransitive NodeId l.length
  obtain ⟨σ, hσ⟩ := MulAction.exists_smul_eq (Equiv.Perm NodeId) x y
  refine ⟨σ, List.ext_get (by rw [List.length_map, hlength]) fun i hi hi' => ?_⟩
  rw [List.length_map] at hi'
  have hat : σ • x ⟨i, hi'⟩ = y ⟨i, hi'⟩ := DFunLike.congr_fun hσ ⟨i, hi'⟩
  simpa [x, y] using hat.symm

namespace Program

/-- One program is the other with its ids renamed. -/
structure Renamed (σ : Equiv.Perm NodeId) (p q : Program) : Prop where
  code_eq : q.code = p.code.map (Prod.map σ id)
  labelled?_eq : ∀ label, q.labelled? label = (p.labelled? label).map σ

namespace Renamed

variable {σ : Equiv.Perm NodeId} {p q : Program} {i j : NodeId}

theorem ids_eq (h : p.Renamed σ q) : q.ids = p.ids.map σ := by
  rw [ids, ids, h.code_eq, List.map_map, List.map_map]
  rfl

theorem first_eq (h : p.Renamed σ q) : q.first = σ p.first := by
  have hq := q.ids_eq_first_cons
  rw [h.ids_eq, p.ids_eq_first_cons, List.map_cons] at hq
  exact (List.cons.inj hq).1.symm

theorem last_eq (h : p.Renamed σ q) : q.last = σ p.last := by
  have hq := q.ids_eq_append_last
  rw [h.ids_eq, p.ids_eq_append_last, List.map_append] at hq
  exact (List.singleton_inj.mp (List.append_inj' hq rfl).2).symm

theorem instr?_eq (h : p.Renamed σ q) (i : NodeId) : q.instr? (σ i) = p.instr? i := by
  rw [instr?, h.code_eq, ← List.map_reverse, Table.lookup_rename σ.injective, Option.map_id]
  rfl

theorem position?_eq (h : p.Renamed σ q) (i : NodeId) : q.position? (σ i) = p.position? i := by
  rw [position?, h.ids_eq, List.zipIdx_map, ← List.map_reverse, Table.lookup_rename σ.injective,
    Option.map_id]
  rfl

theorem isBefore_eq (h : p.Renamed σ q) (i j : NodeId) :
    q.isBefore (σ i) (σ j) = p.isBefore i j := by
  rw [isBefore, isBefore, h.position?_eq, h.position?_eq]

theorem following?_eq (h : p.Renamed σ q) (i : NodeId) :
    q.following? (σ i) = (p.following? i).map σ := by
  simp only [following?, h.position?_eq, h.ids_eq, bind, List.getElem?_map]
  cases p.position? i <;> rfl

theorem jumpTargets_eq (h : p.Renamed σ q) (i : NodeId) :
    q.jumpTargets (σ i) = (p.jumpTargets i).map (Option.map σ) := by
  rw [jumpTargets, jumpTargets, h.instr?_eq, List.map_map]
  exact List.map_congr_left fun label _ => h.labelled?_eq label

theorem fallsThrough_eq (h : p.Renamed σ q) (i : NodeId) :
    q.fallsThrough (σ i) = p.fallsThrough i := by
  rw [fallsThrough, fallsThrough, h.instr?_eq]

theorem following?_eq_some_iff (h : p.Renamed σ q) :
    q.following? (σ i) = some (σ j) ↔ p.following? i = some j := by
  rw [h.following?_eq, Option.map_eq_some_iff]
  simp [σ.injective.eq_iff]

theorem mem_jumpTargets_iff (h : p.Renamed σ q) :
    some (σ j) ∈ q.jumpTargets (σ i) ↔ some j ∈ p.jumpTargets i := by
  rw [h.jumpTargets_eq]
  exact List.mem_map_of_injective (Option.map_injective σ.injective) (a := some j)

/-- Control goes on to the same places. -/
theorem mem_successors_iff (h : p.Renamed σ q) :
    σ j ∈ q.successors (σ i) ↔ j ∈ p.successors i := by
  rw [Program.mem_successors_iff, Program.mem_successors_iff, h.fallsThrough_eq,
    h.following?_eq_some_iff, h.mem_jumpTargets_iff]

/-! ## Blocks -/

theorem mem_blockStarts_iff (h : p.Renamed σ q) : σ j ∈ q.blockStarts ↔ j ∈ p.blockStarts := by
  have hat : ∀ i, σ j ∈ q.blockStartsAt (σ i) ↔ j ∈ p.blockStartsAt i := by
    intro i
    rw [mem_blockStartsAt_iff, mem_blockStartsAt_iff, h.mem_jumpTargets_iff,
      h.following?_eq_some_iff, h.jumpTargets_eq, ne_eq, List.map_eq_nil_iff]
  simp only [blockStarts, List.mem_cons, List.mem_flatMap, h.first_eq, σ.injective.eq_iff, h.ids_eq,
    List.mem_map, exists_exists_and_eq_and, hat]

theorem leaders_eq (h : p.Renamed σ q) : q.leaders = p.leaders.map σ := by
  rw [leaders, leaders, h.ids_eq, List.filter_map]
  congr 1
  refine List.filter_congr fun i _ => ?_
  rw [Function.comp_apply, Bool.eq_iff_iff, List.contains_iff_mem, List.contains_iff_mem]
  exact h.mem_blockStarts_iff

theorem range?_eq (h : p.Renamed σ q) (i : NodeId) (stop : Option NodeId) :
    q.range? (σ i) (stop.map σ) = (p.range? i stop).map (List.map σ) := by
  cases stop with
  | none =>
    simp only [range?, h.position?_eq, h.ids_eq, Option.map_none, bind, List.length_map]
    cases p.position? i with
    | none => rfl
    | some lo => simp
  | some j =>
    simp only [range?, h.position?_eq, h.ids_eq, Option.map_some, bind]
    cases p.position? i with
    | none => rfl
    | some lo =>
      cases p.position? j with
      | none => rfl
      | some hi => simp

theorem basicBlocks_eq (h : p.Renamed σ q) :
    q.basicBlocks.entries = p.basicBlocks.entries.map (Prod.map σ (List.map σ)) := by
  rw [basicBlocks, basicBlocks, ← Table.entries_ofList_rename σ.injective, h.leaders_eq]
  congr 2
  have hstops : (p.leaders.map σ).tail.map some ++ [none] =
      (p.leaders.tail.map some ++ [none]).map (Option.map σ) := by
    simp [Function.comp_def]
  rw [hstops, List.zip_map, List.map_map, List.map_map]
  refine List.map_congr_left fun e _ => ?_
  simp only [Function.comp_apply, Prod.map, h.range?_eq]
  cases p.range? e.1 e.2 <;> rfl

theorem singletons_eq (h : p.Renamed σ q) :
    q.singletons.entries = p.singletons.entries.map (Prod.map σ (List.map σ)) := by
  rw [singletons, singletons, ← Table.entries_ofList_rename σ.injective, h.ids_eq, List.map_map,
    List.map_map]
  rfl

end Renamed

/-! ## Acceptance -/

variable {σ : Equiv.Perm NodeId} {p q : Program}

/-- Labels are entered at the renamed ids, and the same ones are found twice. -/
theorem enterLabels_rename {labels labels' : Table String NodeId}
    (h : ∀ label, labels'.get? label = (labels.get? label).map σ) (code : List (NodeId × Instr)) :
    (∀ label, (enterLabels labels' (code.map (Prod.map σ id))).1.get? label =
      ((enterLabels labels code).1.get? label).map σ) ∧
    (enterLabels labels' (code.map (Prod.map σ id))).2 = (enterLabels labels code).2 := by
  induction code generalizing labels labels' with
  | nil => exact ⟨h, rfl⟩
  | cons e code ih =>
    obtain ⟨i, instr⟩ := e
    have hcontains : ∀ label, labels'.contains label = labels.contains label := by
      intro label
      rw [Table.contains, h, Option.isSome_map, Table.contains]
    simp only [List.map_cons, Prod.map, id, enterLabels]
    cases instr.label with
    | none => exact ih h
    | some label =>
      simp only [hcontains]
      split
      · exact ⟨(ih h).1, congrArg (⟨.repeatedLabel label, instr.line⟩ :: ·) (ih h).2⟩
      · refine ih fun label' => ?_
        rw [Table.get?_insert, Table.get?_insert, h]
        split <;> rfl

theorem undefinedTargets_rename {labels labels' : Table String NodeId}
    (h : ∀ label, labels'.get? label = (labels.get? label).map σ) (code : List (NodeId × Instr)) :
    undefinedTargets labels' (code.map (Prod.map σ id)) = undefinedTargets labels code := by
  have hcontains : ∀ label, labels'.contains label = labels.contains label := by
    intro label
    rw [Table.contains, h, Option.isSome_map, Table.contains]
  rw [undefinedTargets, undefinedTargets, List.filterMap_map]
  refine List.filterMap_congr fun e _ => ?_
  simp only [Function.comp_apply, Prod.map, id, hcontains]

/-- The same instructions under any two choices of ids, with some other ids beside them. -/
theorem exists_rename_code {code code' : List (NodeId × Instr)} {l l' : List NodeId}
    (hcode : code'.map Prod.snd = code.map Prod.snd) (hlength : l.length = l'.length)
    (h : (l ++ code.map Prod.fst).Nodup) (h' : (l' ++ code'.map Prod.fst).Nodup) :
    ∃ σ : Equiv.Perm NodeId, l' = l.map σ ∧ code' = code.map (Prod.map σ id) := by
  have hsize : code.length = code'.length := by
    simpa using (congrArg List.length hcode).symm
  obtain ⟨σ, hσ⟩ := exists_perm_map_eq h h' (by simp [hlength, hsize])
  rw [List.map_append] at hσ
  obtain ⟨hl, hids⟩ := List.append_inj hσ (by rw [List.length_map, hlength])
  refine ⟨σ, hl, ?_⟩
  rw [List.zip_of_prod hids hcode]
  refine (List.zip_of_prod ?_ ?_).symm
  · rw [List.map_map, List.map_map]
    rfl
  · rw [List.map_map]
    rfl

theorem map_snd_number {α : Type} (s : Supply) (as : List α) :
    (s.number as).1.map Prod.snd = as := by
  induction as generalizing s with
  | nil => rfl
  | cons a as ih => exact congrArg (a :: ·) (ih s.advance)

theorem Verified.labels_eq (hp : p.Verified) : p.labels = (enterLabels .empty p.code).1 := by
  induction hp with
  | ofInstrs _ h => exact (ofInstrs_eq_ok h).2.2.1
  | reserve _ ih => exact ih

/-- Verified programs of the same instructions are renamings of each other, and the renaming can be
given at ids that stand for no instruction. -/
theorem Verified.exists_renamed (hp : p.Verified) (hq : q.Verified)
    (hcode : q.code.map Prod.snd = p.code.map Prod.snd) {l l' : List NodeId}
    (hlength : l.length = l'.length) (hl : (l ++ p.ids).Nodup) (hl' : (l' ++ q.ids).Nodup) :
    ∃ σ : Equiv.Perm NodeId, l' = l.map σ ∧ p.Renamed σ q := by
  obtain ⟨σ, hσ, hcode⟩ := exists_rename_code hcode hlength hl hl'
  refine ⟨σ, hσ, hcode, ?_⟩
  simp only [labelled?, hp.labels_eq, hq.labels_eq, hcode]
  exact (enterLabels_rename (fun _ => rfl) p.code).1

/-- Whether instructions are accepted does not depend on the ids that they get. -/
theorem exists_ofInstrs {instrs : List Instr} {s s' : Supply} (hs : s.Distinct) (hs' : s'.Distinct)
    (h : ofInstrs instrs s = .ok p) : ∃ q, ofInstrs instrs s' = .ok q := by
  obtain ⟨hcode, -, hlabels, hrepeated, hundefined⟩ := ofInstrs_eq_ok h
  have hne := p.code_ne_nil
  rw [hlabels] at hundefined
  rw [hcode] at hrepeated hundefined hne
  have hnone : ([] : List NodeId).length = ([] : List NodeId).length := rfl
  obtain ⟨σ, -, hσ⟩ := exists_rename_code
    ((map_snd_number s' instrs).trans (map_snd_number s instrs).symm) hnone
    (hs.nodup_number instrs) (hs'.nodup_number instrs)
  have hne' : (s'.number instrs).1 ≠ [] := by
    rw [hσ]
    simpa using hne
  have hempty : ∀ label, (Table.empty : Table String NodeId).get? label =
      ((Table.empty : Table String NodeId).get? label).map σ := fun _ => rfl
  obtain ⟨hlabels', hrepeated'⟩ := enterLabels_rename hempty (s.number instrs).1
  have hundefined' := undefinedTargets_rename hlabels' (s.number instrs).1
  rw [← hσ] at hrepeated' hundefined'
  refine ⟨⟨(s'.number instrs).1, (enterLabels .empty (s'.number instrs).1).1, (s'.number instrs).2,
    hne'⟩, ?_⟩
  simp only [ofInstrs, ofCode?, dif_pos hne', hrepeated', hundefined', hrepeated, hundefined,
    List.append_nil, List.isEmpty_nil, if_true]

end Program

end FlowTrace
