import FlowTrace.Proofs.Dataflow.Tags

/-!
# Definitions that a node leaves and takes away

The tags that a node leaves behind and those that it takes away are made for the node as a whole:
the last write of each variable, and all other definitions of the program of the variables that the
node writes.  Together they act on a set of tags like the assignments of the node, one after the
other.
-/

namespace FlowTrace

namespace Reaching

variable {p : Program} {kind : GraphKind} {ts : Table NodeId String} {i n : NodeId} {t x : String}

/-- The tags of all assignments to a variable. -/
def tagsOf (p : Program) (ts : Table NodeId String) (x : String) : Set String :=
  {t | ∃ j, p.Writes j x ∧ ts.get? j = some t}

/-- An assignment takes away all tags of its variable and puts in its own; any other instruction
leaves the tags as they are. -/
def afterInstr (p : Program) (ts : Table NodeId String) (S : Set String) (i : NodeId) :
    Set String :=
  match (p.instr? i).bind Instr.defines?, ts.get? i with
  | some x, some t => (S \ tagsOf p ts x) ∪ {t}
  | _, _ => S

theorem writes_iff : p.Writes i x ↔ (p.instr? i).bind Instr.defines? = some x :=
  Option.bind_eq_some_iff.symm

theorem through_eq_afterInstr (hts : Tagging p ts) (i : NodeId) (S : Set String) :
    through p ts i S = afterInstr p ts S i := by
  ext t
  simp only [through, afterInstr, writes_iff]
  cases hx : (p.instr? i).bind Instr.defines? with
  | none => simp
  | some x =>
    obtain ⟨u, hu⟩ := hts.exists_tag (writes_iff.mpr hx)
    simp [hu, tagsOf, writes_iff, eq_comm]

/-- Every assignment of the program has a tag, in program order. -/
theorem keys_tags (hp : p.WellFormed) (kind : GraphKind) :
    (tags (p.graph kind)).keys = p.ids.filter (assigns p) := by
  rw [Table.keys, entries_tags hp]
  apply List.ext_getElem
  · simp
  · intro k _ _
    simp

theorem values_tags (hp : p.WellFormed) (kind : GraphKind) :
    (tags (p.graph kind)).values = (List.range (tags (p.graph kind)).size).map tagAt := by
  rw [Table.values, Table.size, entries_tags hp]
  apply List.ext_getElem
  · simp
  · intro k _ _
    simp

/-- A node leaves the tags of some of its own assignments. -/
theorem exists_mem_of_mem_gen {g : FlowGraph} (h : t ∈ gen g ts n) :
    ∃ w ∈ tagged ts (g.instrsOf n), w.2 = t := by
  rw [gen, NameSet.mem_ofList, lastWrites, Table.mem_values_iff] at h
  obtain ⟨x, hx⟩ := h
  exact ⟨(x, t), Table.mem_of_get?_ofList hx, rfl⟩

/-- What a node leaves or takes away: all tags of the variables that it writes. -/
theorem mem_gen_or_kill_iff (hp : p.WellFormed) (hts : Tagging p ts) (n : NodeId) :
    t ∈ gen (p.graph kind) ts n ∨ t ∈ kill (p.graph kind) ts n ↔
      ∃ i ∈ (p.graph kind).coveredBy n, ∃ x, p.Writes i x ∧ t ∈ tagsOf p ts x := by
  have hwritten : (∃ w ∈ tagged ts ((p.graph kind).instrsOf n),
      (w.1, t) ∈ definitions (p.graph kind) ts) ↔
      ∃ i ∈ (p.graph kind).coveredBy n, ∃ x, p.Writes i x ∧ t ∈ tagsOf p ts x := by
    constructor
    · rintro ⟨w, hw, hdef⟩
      obtain ⟨e, he, hx, -⟩ := mem_tagged.mp hw
      obtain ⟨hcovered, hinstr⟩ := Program.mem_codeOf.mp he
      exact ⟨e.1, hcovered, w.1, ⟨e.2, hinstr, hx⟩, (mem_definitions hp).mp hdef⟩
    · rintro ⟨i, hi, x, hx, ht⟩
      obtain ⟨u, hu⟩ := hts.exists_tag hx
      obtain ⟨instr, hinstr, hdefines⟩ := hx
      have he : (i, instr) ∈ (p.graph kind).instrsOf n := Program.mem_codeOf.mpr ⟨hi, hinstr⟩
      exact ⟨(x, u), mem_tagged.mpr ⟨_, he, hdefines, hu⟩, (mem_definitions hp).mpr ht⟩
  rw [mem_kill, hwritten]
  constructor
  · rintro (hgen | ⟨h, -⟩)
    · obtain ⟨w, hw, rfl⟩ := exists_mem_of_mem_gen hgen
      exact hwritten.mp ⟨w, hw, mem_definitions_of_mem_tagged hp hw⟩
    · exact h
  · intro h
    by_cases hgen : t ∈ gen (p.graph kind) ts n
    · exact .inl hgen
    · exact .inr ⟨h, hgen⟩

end Reaching

open Reaching

/-- **Tags that a block leaves and takes away.**  The assignments are tagged `d1`, `d2`, … in
program order, each with one tag.  What a block leaves and what it takes away are disjoint, and
together they are all tags of the variables that it writes; they act on a set of tags like the
assignments of the block, one after the other. -/
theorem Program.Verified.gen_kill_compose {p : Program} (hp : p.Verified) :
    let g := p.graph .blocks
    let tags := Reaching.tags g
    tags.keys = p.ids.filter (assigns p) ∧
    tags.values = (List.range tags.size).map (fun k => "d" ++ toString (k + 1)) ∧
    ∀ n ∈ g.dataNodes,
      (∀ S : Set String, (gen g tags n).members ∪ (S \ (kill g tags n).members) =
        (g.coveredBy n).foldl (afterInstr p tags) S) ∧
      Disjoint (gen g tags n).members (kill g tags n).members ∧
      (gen g tags n).members ∪ (kill g tags n).members =
        {t | ∃ i ∈ g.coveredBy n, ∃ x, p.Writes i x ∧ t ∈ tagsOf p tags x} := by
  intro g tags
  have hw := hp.wellFormed
  have hts := tagging_tags hw .blocks
  refine ⟨keys_tags hw .blocks, values_tags hw .blocks, fun n _ => ⟨fun S => ?_, ?_, ?_⟩⟩
  · rw [effect_eq hw hts]
    exact congrArg (List.foldl · S _) (funext₂ fun S i => through_eq_afterInstr hts i S)
  · rw [Set.disjoint_left]
    exact fun t hgen hkill => (mem_kill.mp hkill).2 hgen
  · ext t
    exact mem_gen_or_kill_iff hw hts n

/-- The block of a loop, where the tag of its own assignment comes back around the loop. -/
theorem Program.countdown_gen_kill_compose :
    let g := countdown.graph .blocks
    let tags := Reaching.tags g
    countdown.Verified ∧ 1 ∈ g.dataNodes ∧ g.coveredBy 1 = [1, 2] ∧ tags.keys = [0, 1] ∧
      (gen g tags 1).members ∪ ({"d1", "d2"} \ (kill g tags 1).members) =
        [1, 2].foldl (afterInstr countdown tags) {"d1", "d2"} := by
  intro g tags
  obtain ⟨hkeys, -, h⟩ := verified_countdown.gen_kill_compose
  have hnode : 1 ∈ g.dataNodes := by decide
  exact ⟨verified_countdown, hnode, by decide, hkeys, (h 1 hnode).1 _⟩

end FlowTrace
