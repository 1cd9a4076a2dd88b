import FlowTrace.Proofs.Dataflow.Transfer
import Mathlib.Data.List.Induction
import Std.Data.String.ToNat

/-!
# Definitions and their tags

The assignments of a program are tagged in program order, whatever the graph: each has a tag, and no
two have the same one.  What a node makes of a set of tags is then what its instructions make of it,
one after the other: an assignment puts in its own tag and takes away those of all other
assignments to its variable.
-/

namespace FlowTrace

namespace Program

variable {p : Program} {kind : GraphKind} {i j n : NodeId} {x y : String}

theorem Writes.unique (h : p.Writes i x) (h' : p.Writes i y) : x = y := by
  obtain ⟨instr, hinstr, hx⟩ := h
  obtain ⟨instr', hinstr', hy⟩ := h'
  rw [hinstr, Option.some.injEq] at hinstr'
  rw [hinstr', hy, Option.some.injEq] at hx
  exact hx.symm

/-- The instructions of some ids. -/
def codeOf (p : Program) (ids : List NodeId) : List (NodeId × Instr) :=
  ids.filterMap fun i => (p.instr? i).map (i, ·)

theorem codeOf_cons (p : Program) (i : NodeId) (ids : List NodeId) :
    p.codeOf (i :: ids) = p.codeOf [i] ++ p.codeOf ids := by
  rw [codeOf, codeOf, codeOf, ← List.filterMap_append, List.singleton_append]

theorem instrsOf_eq (p : Program) (kind : GraphKind) (n : NodeId) :
    (p.graph kind).instrsOf n = p.codeOf ((p.graph kind).coveredBy n) := rfl

/-- The data nodes of a graph cover the program from its start to its end. -/
theorem WellFormed.flatMap_coveredBy (hp : p.WellFormed) (kind : GraphKind) :
    (p.graph kind).dataNodes.flatMap (p.graph kind).coveredBy = p.ids := by
  have hflatten := (FlowGraph.covers_coverOf hp kind).flatten_eq
  rw [← graph_covered] at hflatten
  exact (Table.flatMap_keys (p.graph kind).covered).trans hflatten

theorem mem_codeOf {ids : List NodeId} {e : NodeId × Instr} :
    e ∈ p.codeOf ids ↔ e.1 ∈ ids ∧ p.instr? e.1 = some e.2 := by
  simp only [codeOf, List.mem_filterMap, Option.map_eq_some_iff]
  constructor
  · rintro ⟨i, hi, instr, hinstr, rfl⟩
    exact ⟨hi, hinstr⟩
  · rintro ⟨hi, hinstr⟩
    exact ⟨e.1, hi, e.2, hinstr, rfl⟩

/-- The instructions of all data nodes are those of the program. -/
theorem WellFormed.mem_flatMap_instrsOf (hp : p.WellFormed) {e : NodeId × Instr} :
    e ∈ (p.graph kind).dataNodes.flatMap (p.graph kind).instrsOf ↔ p.instr? e.1 = some e.2 := by
  simp only [List.mem_flatMap, instrsOf_eq, mem_codeOf]
  constructor
  · rintro ⟨n, -, -, h⟩
    exact h
  · intro h
    have hi : e.1 ∈ p.ids := hp.mem_ids_iff.mpr ⟨e.2, h⟩
    rw [← hp.flatMap_coveredBy kind, List.mem_flatMap] at hi
    obtain ⟨n, hn, hmem⟩ := hi
    exact ⟨n, hn, hmem, h⟩

end Program

namespace Reaching

variable {p : Program} {kind : GraphKind} {i j n : NodeId} {x y t : String}

/-! ## The table of tags -/

/-- Whether an instruction is an assignment. -/
def assigns (p : Program) (i : NodeId) : Bool := ((p.instr? i).map (·.isAssignment)).getD false

theorem assigns_of_writes (h : p.Writes i x) : assigns p i = true := by
  obtain ⟨instr, hinstr, hx⟩ := h
  simp [assigns, hinstr, Instr.isAssignment, hx]

/-- The assignments of a program in program order. -/
theorem assignments_eq (hp : p.WellFormed) (kind : GraphKind) :
    assignments (p.graph kind) = p.ids.filter (assigns p) := by
  have hlist : ∀ c : List NodeId,
      ((p.codeOf c).filter fun e => e.2.isAssignment).map (·.1) = c.filter (assigns p) := by
    intro c
    induction c with
    | nil => rfl
    | cons i c ih =>
      have hone : ((p.codeOf [i]).filter fun e => e.2.isAssignment).map (·.1) =
          [i].filter (assigns p) := by
        cases hi : p.instr? i with
        | none => simp [Program.codeOf, hi, assigns]
        | some instr => cases ha : instr.isAssignment <;> simp [Program.codeOf, hi, assigns, ha]
      rw [p.codeOf_cons, List.filter_append, List.map_append, hone, ih, ← List.filter_append,
        List.singleton_append]
  rw [← hp.flatMap_coveredBy kind, List.filter_flatMap]
  exact List.flatMap_congr fun n _ => hlist ((p.graph kind).coveredBy n)

/-- The tag of a place in the list of assignments. -/
def tagAt (k : Nat) : String := "d" ++ toString (k + 1)

theorem tagAt_injective : Function.Injective tagAt := by
  intro k l h
  have hrepr := Nat.repr_inj.mp ((String.append_right_inj "d").mp h)
  omega

/-- Tagging a list of assignments that do not repeat. -/
theorem entries_foldl_tagNext {l : List NodeId} (hl : l.Nodup) :
    (l.foldl tagNext .empty).entries = l.mapIdx fun k i => (i, tagAt k) := by
  induction l using List.reverseRecOn with
  | nil => rfl
  | append_singleton l i ih =>
    rw [List.nodup_append] at hl
    have hentries := ih hl.1
    have hi : i ∉ (l.foldl tagNext .empty).keys := by
      rw [Table.keys, hentries]
      simp only [List.mem_map, List.mem_mapIdx, not_exists, not_and]
      rintro _ ⟨k, hk, rfl⟩ heq
      exact hl.2.2 _ (List.getElem_mem hk) i List.mem_cons_self heq
    have hsize : (l.foldl tagNext .empty).size = l.length := by
      rw [Table.size, hentries, List.length_mapIdx]
    rw [List.foldl_append, List.mapIdx_concat, ← hentries, tagAt, ← hsize]
    exact Table.putEntry_of_notMem (e := (i, _)) hi

/-- What is known of the tags of a program. -/
structure Tagging (p : Program) (ts : Table NodeId String) : Prop where
  exists_tag : ∀ {i x}, p.Writes i x → ∃ t, ts.get? i = some t
  unique : ∀ {i j t}, ts.get? i = some t → ts.get? j = some t → i = j

/-- Tags go by the places of the assignments in the program. -/
theorem entries_tags (hp : p.WellFormed) (kind : GraphKind) :
    (tags (p.graph kind)).entries = (p.ids.filter (assigns p)).mapIdx fun k i => (i, tagAt k) := by
  rw [tags, assignments_eq hp, entries_foldl_tagNext (hp.ids_nodup.filter _)]

theorem tagging_tags (hp : p.WellFormed) (kind : GraphKind) : Tagging p (tags (p.graph kind)) := by
  have hget : ∀ {i t}, (tags (p.graph kind)).get? i = some t ↔
      ∃ k, (p.ids.filter (assigns p))[k]? = some i ∧ tagAt k = t := by
    intro i t
    rw [Table.get?_eq_some_iff, entries_tags hp, List.mem_mapIdx]
    simp only [Prod.mk.injEq, List.getElem?_eq_some_iff]
    constructor
    · rintro ⟨k, hk, hi, ht⟩
      exact ⟨k, ⟨hk, hi⟩, ht⟩
    · rintro ⟨k, ⟨hk, hi⟩, ht⟩
      exact ⟨k, hk, hi, ht⟩
  constructor
  · intro i x hx
    have hi : i ∈ p.ids.filter (assigns p) := by
      obtain ⟨instr, hinstr, -⟩ := id hx
      exact List.mem_filter.mpr ⟨hp.mem_ids_iff.mpr ⟨instr, hinstr⟩, assigns_of_writes hx⟩
    obtain ⟨k, hk⟩ := List.mem_iff_getElem?.mp hi
    exact ⟨tagAt k, hget.mpr ⟨k, hk, rfl⟩⟩
  · intro i j t hi hj
    obtain ⟨k, hk, rfl⟩ := hget.mp hi
    obtain ⟨l, hl, heq⟩ := hget.mp hj
    rw [tagAt_injective heq, hk] at hl
    exact Option.some.inj hl

/-! ## The effect of a node -/

/-- The tags after an instruction. -/
def through (p : Program) (ts : Table NodeId String) (i : NodeId) (s : Set String) : Set String :=
  {t | (∃ x, p.Writes i x ∧ ts.get? i = some t) ∨
    (t ∈ s ∧ ∀ x, p.Writes i x → ∀ j, p.Writes j x → ts.get? j ≠ some t)}

variable {ts : Table NodeId String} {all ws : List (String × String)} {s : Set String}

/-- The tags after a write, where `all` lists the definitions of all variables. -/
def afterWrite (all : List (String × String)) (s : Set String) (w : String × String) : Set String :=
  {t | t = w.2 ∨ (t ∈ s ∧ (w.1, t) ∉ all)}

/-- After some writes the last one of each variable is left. -/
theorem mem_foldl_afterWrite (hall : ∀ {x y t}, (x, t) ∈ all → (y, t) ∈ all → x = y)
    (hws : ∀ w ∈ ws, w ∈ all) : t ∈ ws.foldl (afterWrite all) s ↔
      t ∈ (Table.ofList ws).values ∨ (t ∈ s ∧ ∀ w ∈ ws, (w.1, t) ∉ all) := by
  -- The last write is the outermost step of the fold, and it is the one that counts in the table.
  induction ws using List.reverseRecOn with
  | nil => simp [Table.ofList, Table.insertAll, Table.empty, Table.values]
  | append_singleton ws w ih =>
    have hprev := ih fun v hv => hws v (List.mem_append_left _ hv)
    have hlast : t ∈ (Table.ofList (ws ++ [w])).values ↔
        t = w.2 ∨ (t ∈ (Table.ofList ws).values ∧ (w.1, t) ∉ all) := by
      have hmem : ∀ {x}, (Table.ofList ws).get? x = some t → (x, t) ∈ all := fun hx =>
        hws _ (List.mem_append_left _ (Table.mem_of_get?_ofList hx))
      rw [Table.ofList_concat, Table.mem_values_iff, Table.mem_values_iff]
      simp only [Table.get?_insert]
      constructor
      · rintro ⟨x, hx⟩
        split at hx
        · exact .inl (Option.some.inj hx).symm
        · next hne => exact .inr ⟨⟨x, hx⟩, fun hw => hne (hall (hmem hx) hw)⟩
      · rintro (rfl | ⟨⟨x, hx⟩, hw⟩)
        · exact ⟨w.1, if_pos rfl⟩
        · have hne : x ≠ w.1 := fun he => hw (he ▸ hmem hx)
          exact ⟨x, (if_neg hne).trans hx⟩
    rw [List.foldl_append]
    change t = w.2 ∨ (t ∈ ws.foldl (afterWrite all) s ∧ (w.1, t) ∉ all) ↔ _
    rw [hprev, hlast]
    simp only [List.mem_append, List.mem_singleton, or_imp, forall_and, forall_eq]
    rw [or_and_right, and_assoc, or_assoc]

/-- The definitions of a graph. -/
def definitions (g : FlowGraph) (ts : Table NodeId String) : List (String × String) :=
  tagged ts (g.dataNodes.flatMap g.instrsOf)

theorem mem_definitions (hp : p.WellFormed) : (x, t) ∈ definitions (p.graph kind) ts ↔
    ∃ i, p.Writes i x ∧ ts.get? i = some t := by
  rw [definitions, mem_tagged]
  simp only [hp.mem_flatMap_instrsOf, Program.Writes]
  constructor
  · rintro ⟨e, he, hx, ht⟩
    exact ⟨e.1, ⟨e.2, he, hx⟩, ht⟩
  · rintro ⟨i, ⟨instr, hi, hx⟩, ht⟩
    exact ⟨(i, instr), hi, hx, ht⟩

/-- What a node writes is defined in the program. -/
theorem mem_definitions_of_mem_tagged (hp : p.WellFormed) {w : String × String}
    (hw : w ∈ tagged ts ((p.graph kind).instrsOf n)) : w ∈ definitions (p.graph kind) ts := by
  obtain ⟨e, he, hx, ht⟩ := mem_tagged.mp hw
  exact (mem_definitions hp).mpr ⟨e.1, ⟨e.2, (Program.mem_codeOf.mp he).2, hx⟩, ht⟩

theorem mem_kill {g : FlowGraph} : t ∈ kill g ts n ↔
    (∃ w ∈ tagged ts (g.instrsOf n), (w.1, t) ∈ definitions g ts) ∧ t ∉ gen g ts n := by
  rw [kill, Std.ExtTreeSet.mem_diff_iff, NameSet.mem_ofList]
  refine and_congr ?_ Iff.rfl
  simp only [List.mem_map, List.mem_filter, Table.contains_iff, lastWrites, Table.mem_keys_ofList]
  constructor
  · rintro ⟨e, ⟨he, v, hv⟩, rfl⟩
    exact ⟨(e.1, v), hv, he⟩
  · rintro ⟨w, hw, hmem⟩
    exact ⟨(w.1, t), ⟨hmem, w.2, hw⟩, rfl⟩

/-- An instruction acts by what it writes. -/
theorem through_eq_foldl (hp : p.WellFormed) (hts : Tagging p ts) (kind : GraphKind) (i : NodeId)
    (s : Set String) : through p ts i s =
      (tagged ts (p.codeOf [i])).foldl (afterWrite (definitions (p.graph kind) ts)) s := by
  have hquiet : (∀ x, ¬ p.Writes i x) → through p ts i s = s := by
    intro h
    ext t
    simp [through, h]
  cases hi : p.instr? i with
  | none =>
    have hnone : tagged ts (p.codeOf [i]) = [] := by simp [tagged, Program.codeOf, hi]
    rw [hnone]
    refine hquiet ?_
    rintro x ⟨instr, hinstr, -⟩
    simp [hi] at hinstr
  | some instr =>
    cases hx : instr.defines? with
    | none =>
      have hnone : tagged ts (p.codeOf [i]) = [] := by simp [tagged, Program.codeOf, hi, hx]
      rw [hnone]
      refine hquiet ?_
      rintro x ⟨instr', hinstr, hx'⟩
      rw [hi, Option.some.injEq] at hinstr
      rw [← hinstr, hx] at hx'
      cases hx'
    | some x =>
      have hwrites : p.Writes i x := ⟨instr, hi, hx⟩
      obtain ⟨u, hu⟩ := hts.exists_tag hwrites
      have hone : tagged ts (p.codeOf [i]) = [(x, u)] := by
        simp [tagged, Program.codeOf, hi, hx, hu]
      rw [hone]
      ext t
      refine or_congr ?_ (and_congr Iff.rfl ?_)
      · constructor
        · rintro ⟨-, -, ht⟩
          rw [hu, Option.some.injEq] at ht
          exact ht.symm
        · rintro rfl
          exact ⟨x, hwrites, hu⟩
      · rw [mem_definitions hp]
        constructor
        · rintro h ⟨j, hj, ht⟩
          exact h x hwrites j hj ht
        · intro h y hy j hj ht
          obtain rfl := hwrites.unique hy
          exact h ⟨j, hj, ht⟩

theorem foldl_through (hp : p.WellFormed) (hts : Tagging p ts) (kind : GraphKind)
    (c : List NodeId) (s : Set String) :
    c.foldl (fun s i => through p ts i s) s =
      (tagged ts (p.codeOf c)).foldl (afterWrite (definitions (p.graph kind) ts)) s := by
  induction c generalizing s with
  | nil => rfl
  | cons i c ih =>
    have happend : tagged ts (p.codeOf (i :: c)) =
        tagged ts (p.codeOf [i]) ++ tagged ts (p.codeOf c) := by
      rw [p.codeOf_cons]
      exact List.filterMap_append
    rw [List.foldl_cons, ih, happend, List.foldl_append, ← through_eq_foldl hp hts kind]

/-- The effect of a node is that of its instructions, one after the other. -/
theorem effect_eq (hp : p.WellFormed) (hts : Tagging p ts) (n : NodeId) (s : Set String) :
    (gen (p.graph kind) ts n).members ∪ (s \ (kill (p.graph kind) ts n).members) =
      ((p.graph kind).coveredBy n).foldl (fun s i => through p ts i s) s := by
  -- A tag has one variable, so a write takes away no tag that another variable has put in.
  have hunique : ∀ {x y t}, (x, t) ∈ definitions (p.graph kind) ts →
      (y, t) ∈ definitions (p.graph kind) ts → x = y := by
    intro x y t hx hy
    obtain ⟨i, hi, hit⟩ := (mem_definitions hp).mp hx
    obtain ⟨j, hj, hjt⟩ := (mem_definitions hp).mp hy
    obtain rfl := hts.unique hit hjt
    exact hi.unique hj
  have hgen : ∀ t, t ∈ gen (p.graph kind) ts n ↔
      t ∈ (Table.ofList (tagged ts ((p.graph kind).instrsOf n))).values := fun t => by
    rw [gen, NameSet.mem_ofList, lastWrites]
  rw [foldl_through hp hts kind, ← Program.instrsOf_eq]
  ext t
  rw [mem_foldl_afterWrite hunique fun w => mem_definitions_of_mem_tagged hp, ← hgen]
  simp only [Set.mem_union, Set.mem_sdiff, NameSet.mem_members, mem_kill, not_and, not_not]
  by_cases ht : t ∈ gen (p.graph kind) ts n
  · simp [ht]
  · simp [ht]

end Reaching

end FlowTrace
