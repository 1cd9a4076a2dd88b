import FlowTrace.Program.Verify
import FlowTrace.Proofs.Table
import Mathlib.Logic.Function.Basic

/-!
# What verification gives

A verified program is one that was accepted from a list of instructions, with ids from a supply
that hands out none twice; ids of graph nodes may have been reserved from it since.  In such a
program every id stands for one instruction, every jump has a place to go to, and the ids that are
still to come are new.
-/

namespace FlowTrace

namespace Supply

/-- The id that is handed out after `n` others. -/
def nth (s : Supply) : Nat → NodeId
  | 0 => s.peek
  | n + 1 => s.advance.nth n

/-- No id is handed out twice. -/
def Distinct (s : Supply) : Prop := Function.Injective s.nth

theorem nth_countFrom (start : NodeId) (n : Nat) : (countFrom start).nth n = start + n := by
  induction n generalizing start with
  | zero => simp [nth, peek, countFrom]
  | succ n ih =>
    have hadv : (countFrom start).advance = countFrom (start + 1) := rfl
    rw [nth, hadv, ih, Int.add_assoc, Int.add_comm 1 n]
    rfl

theorem distinct_countFrom (start : NodeId) : (countFrom start).Distinct := by
  intro m n h
  rw [nth_countFrom, nth_countFrom] at h
  exact Int.ofNat_inj.mp (Int.add_left_cancel h)

/-- What is handed out is listed or counted. -/
theorem mem_listed_or_le_nth (s : Supply) (n : Nat) :
    s.nth n ∈ s.listed ∨ s.upcoming ≤ s.nth n := by
  induction n generalizing s with
  | zero =>
    obtain ⟨_ | ⟨i, rest⟩, upcoming⟩ := s
    · exact .inr (Int.le_refl _)
    · exact .inl List.mem_cons_self
  | succ n ih =>
    have hnext := ih s.advance
    obtain ⟨_ | ⟨i, rest⟩, upcoming⟩ := s
    · exact .inr (Int.le_of_lt (hnext.resolve_left List.not_mem_nil))
    · exact hnext.imp_left (List.mem_cons_of_mem i)

/-- Listed ids may come in any order. -/
theorem distinct_of_listed_lt {listed : List NodeId} {upcoming : NodeId} (hnodup : listed.Nodup)
    (hlt : ∀ i ∈ listed, i < upcoming) : Distinct ⟨listed, upcoming⟩ := by
  induction listed with
  | nil => exact distinct_countFrom upcoming
  | cons i rest ih =>
    obtain ⟨hi, hrest⟩ := List.nodup_cons.mp hnodup
    obtain ⟨hiu, hrestu⟩ := List.forall_mem_cons.mp hlt
    have hne : ∀ n, i ≠ nth ⟨rest, upcoming⟩ n := by
      rintro n rfl
      exact (mem_listed_or_le_nth ⟨rest, upcoming⟩ n).elim hi (Int.not_le.mpr hiu)
    intro m n h
    cases m with
    | zero =>
      cases n with
      | zero => rfl
      | succ n => exact absurd h (hne n)
    | succ m =>
      cases n with
      | zero => exact absurd h.symm (hne m)
      | succ n => exact congrArg (· + 1) (ih hrest hrestu h)

theorem Distinct.advance {s : Supply} (h : s.Distinct) : s.advance.Distinct := by
  intro m n hmn
  have hsucc : m + 1 = n + 1 := h hmn
  omega

theorem nth_number {α : Type} (s : Supply) (as : List α) (n : Nat) :
    (s.number as).2.nth n = s.nth (as.length + n) := by
  induction as generalizing s with
  | nil => simp [number]
  | cons a as ih =>
    have hlen : (a :: as).length + n = (as.length + n) + 1 := by
      rw [List.length_cons]; omega
    rw [hlen]
    exact ih s.advance

/-- Items are numbered with the first ids of the supply. -/
theorem exists_nth_of_mem_number {α : Type} {s : Supply} {as : List α} {i : NodeId}
    (h : i ∈ (s.number as).1.map Prod.fst) : ∃ n < as.length, i = s.nth n := by
  induction as generalizing s with
  | nil => cases h
  | cons a as ih =>
    rcases List.mem_cons.mp h with rfl | h
    · exact ⟨0, by simp, rfl⟩
    · obtain ⟨n, hn, rfl⟩ := ih h
      exact ⟨n + 1, by simpa using hn, rfl⟩

theorem Distinct.nodup_number {α : Type} {s : Supply} (h : s.Distinct) (as : List α) :
    ((s.number as).1.map Prod.fst).Nodup := by
  induction as generalizing s with
  | nil => exact List.nodup_nil
  | cons a as ih =>
    refine List.nodup_cons.mpr ⟨?_, ih h.advance⟩
    intro hmem
    obtain ⟨n, -, hn⟩ := exists_nth_of_mem_number hmem
    have hzero : 0 = n + 1 := h hn
    omega

theorem Distinct.number {α : Type} {s : Supply} (h : s.Distinct) (as : List α) :
    (s.number as).2.Distinct := by
  intro m n hmn
  rw [nth_number, nth_number] at hmn
  have hadd := h hmn
  omega

end Supply

namespace Program

/-- Programs that were accepted, with ids that are handed out once each. -/
inductive Verified : Program → Prop where
  | ofInstrs {instrs : List Instr} {supply : Supply} {p : Program} (hs : supply.Distinct)
      (h : Program.ofInstrs instrs supply = .ok p) : Verified p
  /-- The next id was reserved. -/
  | reserve {p : Program} (h : Verified p) : Verified p.reserve.2

/-- What the later phases rely on. -/
structure WellFormed (p : Program) : Prop where
  ids_nodup : p.ids.Nodup
  /-- Every jump goes to an instruction. -/
  target_mem : ∀ {i : NodeId} {instr : Instr} {label : String}, (i, instr) ∈ p.code →
    instr.target? = some label → ∃ j ∈ p.ids, p.labelled? label = some j
  supply_distinct : p.supply.Distinct
  supply_fresh : ∀ n, p.supply.nth n ∉ p.ids

/-- A label that was entered stands where an instruction carries it. -/
theorem enterLabels_get? {labels : Table String NodeId} {code : List (NodeId × Instr)}
    {label : String} {j : NodeId} (h : (enterLabels labels code).1.get? label = some j) :
    labels.get? label = some j ∨ ∃ instr, (j, instr) ∈ code ∧ instr.label = some label := by
  fun_induction enterLabels labels code with
  | case1 => exact .inl h
  | case2 labels i instr code hl ih =>
    exact (ih h).imp_right fun ⟨a, ha, hla⟩ => ⟨a, List.mem_cons_of_mem _ ha, hla⟩
  | case3 labels i instr code l hl hc labels' faults hrest ih =>
    rw [hrest] at ih
    exact (ih h).imp_right fun ⟨a, ha, hla⟩ => ⟨a, List.mem_cons_of_mem _ ha, hla⟩
  | case4 labels i instr code l hl hc ih =>
    rcases ih h with h' | ⟨a, ha, hla⟩
    · rw [Table.get?_insert] at h'
      split at h'
      · next he =>
        obtain rfl := Option.some.inj h'
        exact .inr ⟨instr, List.mem_cons_self, he ▸ hl⟩
      · exact .inl h'
    · exact .inr ⟨a, List.mem_cons_of_mem _ ha, hla⟩

/-- What an accepted program consists of. -/
theorem ofInstrs_eq_ok {instrs : List Instr} {supply : Supply} {p : Program}
    (h : Program.ofInstrs instrs supply = .ok p) :
    p.code = (supply.number instrs).1 ∧ p.supply = (supply.number instrs).2 ∧
      p.labels = (enterLabels .empty p.code).1 ∧ (enterLabels .empty p.code).2 = [] ∧
      undefinedTargets p.labels p.code = [] := by
  simp only [Program.ofInstrs, ofCode?] at h
  split at h
  · cases h
  · next q hq =>
    split at hq
    · obtain rfl := Option.some.inj hq
      split at h
      · next hfaults =>
        cases h
        rw [List.isEmpty_iff, List.append_eq_nil_iff] at hfaults
        exact ⟨rfl, rfl, rfl, hfaults⟩
      · cases h
    · cases hq

theorem labelled_of_undefinedTargets {labels : Table String NodeId}
    {code : List (NodeId × Instr)} (h : undefinedTargets labels code = []) {i : NodeId}
    {instr : Instr} {label : String} (hi : (i, instr) ∈ code)
    (ht : instr.target? = some label) : ∃ j, labels.get? label = some j := by
  have hnone := List.filterMap_eq_nil_iff.mp h _ hi
  simp only [ht] at hnone
  split at hnone
  · next hc => exact Table.mem_keys_iff.mp (Table.contains_iff.mp hc)
  · cases hnone

theorem wellFormed_ofInstrs {instrs : List Instr} {supply : Supply} {p : Program}
    (hs : supply.Distinct) (h : Program.ofInstrs instrs supply = .ok p) : p.WellFormed := by
  obtain ⟨hcode, hsupply, hlabels, -, htargets⟩ := ofInstrs_eq_ok h
  have hids : p.ids = (supply.number instrs).1.map Prod.fst := by rw [ids, hcode]
  refine ⟨?_, ?_, ?_, ?_⟩
  · rw [hids]
    exact hs.nodup_number instrs
  · intro i instr label hi ht
    obtain ⟨j, hj⟩ := labelled_of_undefinedTargets htargets hi ht
    refine ⟨j, ?_, hj⟩
    rw [hlabels] at hj
    rcases enterLabels_get? hj with hempty | ⟨a, ha, -⟩
    · cases hempty
    · exact List.mem_map.mpr ⟨(j, a), ha, rfl⟩
  · rw [hsupply]
    exact hs.number instrs
  · intro n hn
    rw [hsupply, Supply.nth_number, hids] at hn
    obtain ⟨m, hm, hmn⟩ := Supply.exists_nth_of_mem_number hn
    have heq := hs hmn
    omega

theorem WellFormed.reserve {p : Program} (h : p.WellFormed) : p.reserve.2.WellFormed where
  ids_nodup := h.ids_nodup
  target_mem := h.target_mem
  supply_distinct := h.supply_distinct.advance
  supply_fresh n := h.supply_fresh (n + 1)

theorem Verified.wellFormed {p : Program} (h : p.Verified) : p.WellFormed := by
  induction h with
  | ofInstrs hs h => exact wellFormed_ofInstrs hs h
  | reserve _ ih => exact ih.reserve

/-! ## A small program -/

/-- `n = 3; L: n = n - 1; if n goto L` -/
def countdownBody : List Instr :=
  [⟨1, none, .copy "n" (.lit 3)⟩,
   ⟨2, some "L", .binary "n" (.var "n") (.arithmetic .sub) (.lit 1)⟩,
   ⟨3, none, .branchIf "n" (some "L")⟩]

def countdown : Program where
  code := ((Supply.countFrom 0).number countdownBody).1
  labels := (enterLabels .empty ((Supply.countFrom 0).number countdownBody).1).1
  supply := ((Supply.countFrom 0).number countdownBody).2
  code_ne_nil := by simp [countdownBody, Supply.number]

theorem verified_countdown : countdown.Verified :=
  have h : Program.ofInstrs countdownBody (Supply.countFrom 0) = .ok countdown := rfl
  .ofInstrs (Supply.distinct_countFrom 0) h

end Program

end FlowTrace
