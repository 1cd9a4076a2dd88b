import FlowTrace.Graph.Build
import FlowTrace.Proofs.Program.Verified

/-!
# The order of a program

Positions, neighbours and successors in programs whose ids do not repeat, said in terms of the list
of ids: what follows an instruction is what stands right after it in that list.
-/

namespace FlowTrace.Program

variable {p : Program} {i j : NodeId}

namespace WellFormed

theorem instr?_eq_some_iff (hp : p.WellFormed) {instr : Instr} :
    p.instr? i = some instr ↔ (i, instr) ∈ p.code := by
  have hnodup : (p.code.map Prod.fst).Nodup := hp.ids_nodup
  rw [instr?, Table.lookup_reverse hnodup, Table.lookup_eq_some_iff hnodup]

theorem mem_ids_iff (hp : p.WellFormed) : i ∈ p.ids ↔ ∃ instr, p.instr? i = some instr := by
  simp only [hp.instr?_eq_some_iff, ids, List.mem_map]
  constructor
  · rintro ⟨e, he, rfl⟩
    exact ⟨e.2, he⟩
  · rintro ⟨instr, h⟩
    exact ⟨(i, instr), h, rfl⟩

theorem position?_eq_some_iff (hp : p.WellFormed) {k : Nat} :
    p.position? i = some k ↔ p.ids[k]? = some i := by
  have hnodup : (p.ids.zipIdx.map Prod.fst).Nodup := by
    rw [List.zipIdx_map_fst]
    exact hp.ids_nodup
  rw [position?, Table.lookup_reverse hnodup, Table.lookup_eq_some_iff hnodup,
    List.mem_zipIdx_iff_getElem?]

theorem position?_of_split (hp : p.WellFormed) {before after : List NodeId}
    (h : p.ids = before ++ i :: after) : p.position? i = some before.length := by
  rw [hp.position?_eq_some_iff, h]
  simp

theorem following?_eq_some_iff (hp : p.WellFormed) :
    p.following? i = some j ↔ ∃ before after, p.ids = before ++ i :: j :: after := by
  simp only [following?, bind, Option.bind_eq_some_iff, hp.position?_eq_some_iff]
  constructor
  · rintro ⟨k, hi, hj⟩
    obtain ⟨hk, rfl⟩ := List.getElem?_eq_some_iff.mp hi
    obtain ⟨hk', rfl⟩ := List.getElem?_eq_some_iff.mp hj
    refine ⟨p.ids.take k, p.ids.drop (k + 2), ?_⟩
    rw [← List.drop_eq_getElem_cons hk', ← List.drop_eq_getElem_cons hk, List.take_append_drop]
  · rintro ⟨before, after, h⟩
    refine ⟨before.length, ?_, ?_⟩
    · simp [h]
    · simp [h]

end WellFormed

theorem first_mem (p : Program) : p.first ∈ p.ids :=
  List.mem_map_of_mem (List.head_mem p.code_ne_nil)

theorem last_mem (p : Program) : p.last ∈ p.ids :=
  List.mem_map_of_mem (List.getLast_mem p.code_ne_nil)

theorem ids_eq_first_cons (p : Program) : p.ids = p.first :: p.ids.tail := by
  obtain ⟨e, code, h⟩ := List.exists_cons_of_ne_nil p.code_ne_nil
  simp [ids, first, h]

theorem ids_eq_append_last (p : Program) : p.ids = p.ids.dropLast ++ [p.last] := by
  have hne : p.ids ≠ [] := by simpa [ids] using p.code_ne_nil
  have hlast : p.last = p.ids.getLast hne := by simp only [last, ids, List.getLast_map]
  rw [hlast, List.dropLast_append_getLast]

theorem some_mem_jumpTargets_iff :
    some j ∈ p.jumpTargets i ↔ ∃ instr label, p.instr? i = some instr ∧
      instr.target? = some label ∧ p.labelled? label = some j := by
  simp only [jumpTargets, List.mem_map, Option.mem_toList, Option.bind_eq_some_iff]
  constructor
  · rintro ⟨label, ⟨instr, hi, ht⟩, hl⟩
    exact ⟨instr, label, hi, ht, hl⟩
  · rintro ⟨instr, label, hi, ht, hl⟩
    exact ⟨label, ⟨instr, hi, ht⟩, hl⟩

/-- Control goes on to what follows, unless the instruction always jumps, or to a target. -/
theorem mem_successors_iff : j ∈ p.successors i ↔
    (p.fallsThrough i = true ∧ p.following? i = some j) ∨ some j ∈ p.jumpTargets i := by
  have hnext : some j ∈ (if p.fallsThrough i then (p.following? i).toList.map some else []) ↔
      p.fallsThrough i = true ∧ p.following? i = some j := by
    split
    · next h => simp [h]
    · next h => simp [h]
  simp only [successors, executedAfter, List.mem_filterMap, id, exists_eq_right, List.mem_append,
    List.mem_filter, decide_eq_true_eq, hnext]
  constructor
  · rintro (h | h)
    · exact .inl h
    · exact .inr h.1
  · rintro (h | h)
    · exact .inl h
    · by_cases hn : p.fallsThrough i = true ∧ p.following? i = some j
      · exact .inl hn
      · exact .inr ⟨h, hn⟩

namespace WellFormed

theorem mem_of_following? (hp : p.WellFormed) (h : p.following? i = some j) :
    i ∈ p.ids ∧ j ∈ p.ids := by
  obtain ⟨before, after, hids⟩ := hp.following?_eq_some_iff.mp h
  simp [hids]

theorem mem_of_jumpTargets (hp : p.WellFormed) (h : some j ∈ p.jumpTargets i) :
    i ∈ p.ids ∧ j ∈ p.ids := by
  obtain ⟨instr, label, hi, ht, hl⟩ := some_mem_jumpTargets_iff.mp h
  refine ⟨hp.mem_ids_iff.mpr ⟨instr, hi⟩, ?_⟩
  obtain ⟨k, hk, hlk⟩ := hp.target_mem (hp.instr?_eq_some_iff.mp hi) ht
  rw [hl] at hlk
  obtain rfl := Option.some.inj hlk
  exact hk

/-- Control stays in the program. -/
theorem mem_of_mem_successors (hp : p.WellFormed) (h : j ∈ p.successors i) :
    i ∈ p.ids ∧ j ∈ p.ids := by
  rcases mem_successors_iff.mp h with ⟨-, hf⟩ | ht
  · exact hp.mem_of_following? hf
  · exact hp.mem_of_jumpTargets ht

/-- Nothing follows the last instruction. -/
theorem following?_last (hp : p.WellFormed) : p.following? p.last = none := by
  cases h : p.following? p.last with
  | none => rfl
  | some j =>
    obtain ⟨before, after, hids⟩ := hp.following?_eq_some_iff.mp h
    have hsplit := p.ids_eq_append_last
    have hpos := hp.position?_of_split hids
    rw [hp.position?_of_split hsplit] at hpos
    have hlen : p.ids.dropLast.length + 1 = p.ids.length := by
      conv_rhs => rw [hsplit]
      simp
    have hlen' : p.ids.length = before.length + (after.length + 2) := by rw [hids]; simp
    have heq := Option.some.inj hpos
    omega

end WellFormed

end FlowTrace.Program
