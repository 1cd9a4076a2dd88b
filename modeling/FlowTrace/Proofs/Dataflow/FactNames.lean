import FlowTrace.Proofs.Dataflow.Accesses
import FlowTrace.Proofs.Dataflow.Assigned
import FlowTrace.Proofs.Dataflow.Maintained

/-!
# Names in facts

The facts of an analysis have names in them: variables, or the tags of definitions.  No run makes up
other names than those of the program, those that are given as live at the exit, and tags.
-/

namespace FlowTrace

/-- The names in an instruction: its label, where it may jump, what it reads and what it writes. -/
def Instr.names (i : Instr) : List String :=
  i.label.toList ++ i.target?.toList ++ i.reads ++ i.defines?.toList

theorem Instr.mem_names_of_mem_accesses {i : Instr} {x : String} {access : Access}
    (h : (x, access) ∈ i.accesses) : x ∈ i.names := by
  rw [accesses, List.mem_append, List.mem_map, List.mem_map] at h
  rw [names, List.append_assoc, List.mem_append]
  refine .inr (List.mem_append.mpr (h.imp ?_ ?_))
  · rintro ⟨y, hy, heq⟩
    exact (Prod.mk.inj heq).1 ▸ hy
  · rintro ⟨y, hy, heq⟩
    exact (Prod.mk.inj heq).1 ▸ hy

theorem Instr.mem_names_of_defines? {i : Instr} {x : String} (h : i.defines? = some x) :
    x ∈ i.names := by
  simp [names, h]

/-- The names in a program. -/
def Program.names (p : Program) : List String := p.code.flatMap fun e => e.2.names

theorem Program.mem_names {p : Program} {kind : GraphKind} {n : NodeId} {e : NodeId × Instr}
    (he : e ∈ (p.graph kind).instrsOf n) {x : String} (hx : x ∈ e.2.names) : x ∈ p.names := by
  rw [instrsOf_eq] at he
  have hcode := Table.mem_of_lookup (mem_codeOf.mp he).2
  exact List.mem_flatMap.mpr ⟨e, List.mem_reverse.mp hcode, hx⟩

/-! ## Sets of names -/

/-- A problem with gains and losses keeps to the names that it starts with. -/
theorem Problem.GainLoss.keeps {p : Problem NameSet} (G : p.GainLoss) {N : Set String}
    (hsides : ∀ side ∈ p.sides, ∀ n v, side.2.get? n = some v → v.members ⊆ N)
    (hboundary : ∀ n, (p.boundary n).members ⊆ N) (hgain : ∀ n, (G.gain n).members ⊆ N) :
    p.Keeps fun s => s.members ⊆ N where
  bottom := G.reading.read_bottom.trans_subset (Set.empty_subset N)
  sides := hsides
  boundary := hboundary
  join a b ha hb := (G.reading.read_join a b).trans_subset (Set.union_subset ha hb)
  transfer n a ha := (G.reading.read_transfer n a).trans_subset
    (Set.union_subset (hgain n) (Set.sdiff_subset.trans ha))
  absorb a b ha hb := by
    rw [G.absorb_eq, NameSet.members_union]
    exact Set.union_subset ha hb

namespace Liveness

theorem useDefOfNode_subset {g : FlowGraph} {N : Set String} {n : NodeId}
    (h : ∀ e ∈ g.instrsOf n, ∀ x ∈ e.2.names, x ∈ N) (blockRule : Bool) :
    (useDefOfNode g blockRule n).use.members ⊆ N ∧
      (useDefOfNode g blockRule n).defs.members ⊆ N := by
  have hinstr : ∀ i ∈ (g.instrsOf n).map (·.2), ∀ x access, (x, access) ∈ i.accesses → x ∈ N := by
    intro i hi x access hx
    obtain ⟨e, he, rfl⟩ := List.mem_map.mp hi
    exact h e he x (Instr.mem_names_of_mem_accesses hx)
  unfold useDefOfNode
  generalize (g.instrsOf n).map (·.2) = instrs at hinstr
  cases blockRule with
  | true =>
    have hrecords := records_useDefOfBlock instrs
    have haccess : ∀ x access, List.lookup x (instrs.flatMap Instr.accesses) = some access →
        x ∈ N := by
      intro x access hx
      obtain ⟨i, hi, hmem⟩ := List.mem_flatMap.mp (Table.mem_of_lookup hx)
      exact hinstr i hi x access hmem
    exact ⟨fun x hx => haccess x _ ((hrecords.mem_use x).mp hx),
      fun x hx => haccess x _ ((hrecords.mem_defs x).mp hx)⟩
  | false =>
    cases instrs with
    | nil => simp [UseDef.empty]
    | cons i instrs =>
      have hi := hinstr i List.mem_cons_self
      refine ⟨fun x hx => hi x .read ?_, fun x hx => hi x .write ?_⟩
      · have hreads : x ∈ i.reads := NameSet.mem_ofList.mp hx
        simp [Instr.accesses, hreads]
      · have hwrites : x ∈ i.defines?.toList := NameSet.mem_ofList.mp hx
        simp [Instr.accesses, Option.mem_toList.mp hwrites]

theorem keeps_names {p : Program} {liveOut : NameSet} {N : Set String}
    (hp : {x | x ∈ p.names} ⊆ N) (hliveOut : liveOut.members ⊆ N) (kind : GraphKind)
    (rule : Option Bool) :
    (problem (p.graph kind) liveOut rule).Keeps fun s => s.members ⊆ N := by
  have huseDef : ∀ n, (useDef (p.graph kind) rule n).use.members ⊆ N ∧
      (useDef (p.graph kind) rule n).defs.members ⊆ N := fun n =>
    useDefOfNode_subset (fun e he x hx => hp (Program.mem_names he hx)) _
  have hside : ∀ f : UseDef → NameSet, (∀ n, (f (useDef (p.graph kind) rule n)).members ⊆ N) →
      ∀ n v, (((p.graph kind).tabulate (useDef (p.graph kind) rule)).mapEntries
        fun _ ud => f ud).get? n = some v → v.members ⊆ N := by
    intro f hf n v hv
    rw [Table.get?_mapEntries, Option.map_eq_some_iff] at hv
    obtain ⟨ud, hud, rfl⟩ := hv
    exact FlowGraph.of_get?_tabulate (Q := fun ud => (f ud).members ⊆ N) hf n ud hud
  refine (gainLoss (p.graph kind) liveOut rule).keeps ?_ ?_ fun n => (huseDef n).1
  · intro side hmem
    rcases List.mem_cons.mp hmem with rfl | hmem
    · exact hside UseDef.use fun n => (huseDef n).1
    · obtain rfl := List.mem_singleton.mp hmem
      exact hside UseDef.defs fun n => (huseDef n).2
  · intro n
    show (if n = (p.graph kind).exit then liveOut else ∅).members ⊆ N
    split
    · exact hliveOut
    · simp

end Liveness

namespace Reaching

/-- Every tag has a number. -/
theorem exists_tagAt {g : FlowGraph} {t : String} (h : t ∈ (tags g).values) : ∃ k, tagAt k = t := by
  have hnext : ∀ ts : Table NodeId String, (∀ i t, ts.get? i = some t → ∃ k, tagAt k = t) →
      ∀ j i t, (tagNext ts j).get? i = some t → ∃ k, tagAt k = t := by
    intro ts hts j i t ht
    rw [tagNext, Table.get?_insert] at ht
    split at ht
    · exact ⟨ts.size, Option.some.inj ht⟩
    · exact hts i t ht
  obtain ⟨i, hi⟩ := Table.mem_values_iff.mp h
  exact List.foldlRecOn (motive := fun ts : Table NodeId String =>
    ∀ i t, ts.get? i = some t → ∃ k, tagAt k = t) (assignments g) tagNext
    (fun i t ht => by cases ht) (fun ts hts j _ => hnext ts hts j) i t hi

theorem mem_values_of_mem_tagged {ts : Table NodeId String} {code : List (NodeId × Instr)}
    {w : String × String} (h : w ∈ tagged ts code) : w.2 ∈ ts.values := by
  obtain ⟨e, -, -, ht⟩ := mem_tagged.mp h
  exact Table.mem_values_iff.mpr ⟨e.1, ht⟩

theorem keeps_tags (g : FlowGraph) :
    (problem g).Keeps fun s => s.members ⊆ Set.range tagAt := by
  have hgen : ∀ n, (gen g (tags g) n).members ⊆ Set.range tagAt :=
    fun n t ht => exists_tagAt (mem_values_of_mem_gen ht)
  have hkill : ∀ n, (kill g (tags g) n).members ⊆ Set.range tagAt := by
    intro n t ht
    obtain ⟨⟨w, -, hw⟩, -⟩ := mem_kill.mp ht
    exact exists_tagAt (mem_values_of_mem_tagged hw)
  refine (gainLoss g).keeps ?_ (fun n => ?_) hgen
  · intro side hside
    rcases List.mem_cons.mp hside with rfl | hside
    · exact FlowGraph.of_get?_tabulate hgen
    · obtain rfl := List.mem_singleton.mp hside
      exact FlowGraph.of_get?_tabulate hkill
  · show (∅ : NameSet).members ⊆ _
    simp

end Reaching

/-! ## Maps of constants -/

namespace Constants

theorem mem_domain_iff {m : ConstMap} {x : String} : x ∈ domain m.reading ↔ x ∈ m.keys :=
  ConstMap.mem_keys_iff_reading.symm

theorem keeps_names (p : Program) (kind : GraphKind) :
    (problem (p.graph kind)).Keeps fun m => domain m.reading ⊆ {x | x ∈ p.names} where
  bottom := gc_domain_cover.l_bot.trans_subset (Set.empty_subset _)
  sides := List.forall_mem_nil _
  boundary _ := gc_domain_cover.l_bot.trans_subset (Set.empty_subset _)
  join a b ha hb := by
    have hjoin := congrArg domain (ConstMap.reading_join a b)
    rw [gc_domain_cover.l_sup] at hjoin
    exact hjoin.trans_subset (Set.union_subset ha hb)
  transfer n a ha := by
    show domain (ConstMap.reading (replay (((definitions (p.graph kind)).get? n).getD []) a)) ⊆ _
    rw [definitions, FlowGraph.getD_get?_tabulate definitionsOf_of_notMem, reading_replay,
      domain_foldl_learn]
    refine Set.union_subset ha ?_
    rintro x ⟨i, hi, hx⟩
    obtain ⟨e, he, rfl⟩ := List.mem_map.mp (List.mem_of_mem_filter hi)
    exact Program.mem_names he (Instr.mem_names_of_defines? hx)
  absorb a b ha hb := by
    intro x hx
    rw [mem_domain_iff, Table.mem_keys_iff] at hx
    obtain ⟨c, hc⟩ := hx
    have hget : (a.overlay b).get? x = some c := hc
    rw [Table.get?_overlay, Option.or_eq_some_iff] at hget
    rcases hget with hb' | ⟨-, ha'⟩
    · exact hb (mem_domain_iff.mpr (Table.mem_keys_iff.mpr ⟨c, hb'⟩))
    · exact ha (mem_domain_iff.mpr (Table.mem_keys_iff.mpr ⟨c, ha'⟩))

end Constants

/-! ## All analyses -/

namespace Analysis

/-- The names in a fact. -/
def names : (a : Analysis) → a.Fact → Set String
  | liveness _ _ | reaching => NameSet.members
  | constants => fun m => Constants.domain m.reading

/-- The names that the facts of an analysis can have. -/
def nameRange : Analysis → Program → Set String
  | liveness liveOut _, p => {x | x ∈ p.names} ∪ liveOut.members
  | reaching, _ => Set.range Reaching.tagAt
  | constants, p => {x | x ∈ p.names}

theorem keeps_names (a : Analysis) (p : Program) (kind : GraphKind) :
    (a.problem (p.graph kind)).Keeps fun v => a.names v ⊆ a.nameRange p := by
  cases a with
  | liveness liveOut rule =>
    exact Liveness.keeps_names Set.subset_union_left Set.subset_union_right kind rule
  | reaching => exact Reaching.keeps_tags (p.graph kind)
  | constants => exact Constants.keeps_names p kind

end Analysis

end FlowTrace
