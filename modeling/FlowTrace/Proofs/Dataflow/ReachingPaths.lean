import FlowTrace.Proofs.Dataflow.Granularity
import FlowTrace.Proofs.Dataflow.Tags
import FlowTrace.Proofs.Graph.Chains

/-!
# Definitions reach along paths on which their variable is not written

On either graph, a definition is in the facts of a node if and only if a path of instructions leads
there from the assignment and no instruction on the way writes the variable.  The facts of the graph
are carried along the chains of instructions to the least solution of equations between single
instructions, where paths are followed step by step.
-/

namespace FlowTrace.Reaching

variable {p q : Program} {kind : GraphKind} {ts : Table NodeId String} {i j k n : NodeId}
  {x t : String}

/-! ## Equations between instructions -/

/-- The equations of reaching definitions between single instructions. -/
def fineSystem (p q : Program) (ts : Table NodeId String) : System (Set String) where
  nodes := {n | n ∈ (q.graph .single).nodes}
  boundary _ := ∅
  sources n := {s | (q.graph .single).hasEdge s n = true}
  effect := through p ts

theorem through_mono (p : Program) (ts : Table NodeId String) (i : NodeId) :
    Monotone (through p ts i) := by
  rintro s s' hs t (ht | ⟨ht, hkept⟩)
  · exact .inl ht
  · exact .inr ⟨hs ht, hkept⟩

theorem through_of_notMem (hp : p.WellFormed) (hi : i ∉ p.ids) (s : Set String) :
    through p ts i s = s := by
  ext t
  simp [through, hp.not_writes_of_notMem hi]

/-- The equations of a graph are those between instructions, taken along chains. -/
theorem refines_fineSystem (hp : p.WellFormed) (hq : q.WellFormed) (hpq : p.SameCode q)
    (hts : Tagging p (tags (p.graph kind))) :
    (gainLoss (p.graph kind)).reading.system.Refines (fineSystem p q (tags (p.graph kind)))
      (p.chain q kind) := by
  have hg := hp.graph kind
  have hchains := hp.chains hq hpq kind
  refine ⟨fun _ hs => (hg.mem_of_hasEdge hs).1, hchains.ne_nil, hchains.mem_iff,
    hchains.place_unique, through_mono _ _, fun hn s => ?_, fun hn hf => ⟨?_, fun a => ?_⟩,
    fun hn hsplit => ⟨rfl, ?_⟩⟩
  · exact (effect_eq hp hts _ s).trans
      (hp.foldl_chain hq hpq (fun i hi s => through_of_notMem hp hi s) hn s).symm
  · exact boundary_eq.symm
  · exact hchains.hasEdge_head_iff hg (hq.graph .single) hn hf
  · ext a
    exact (hchains.inner hn hsplit).2 a

/-! ## Paths -/

/-- A path of at least one step from an instruction, on which no instruction in between writes the
variable. -/
def Arrives (p q : Program) (i : NodeId) (x : String) (n : NodeId) : Prop :=
  ∃ path, (q.graph .single).Path i (i :: path) n ∧ ∀ j ∈ path, ¬ p.Writes j x

/-- A path from an instruction, after whose start no instruction writes the variable. -/
def Leaves (p q : Program) (i : NodeId) (x : String) (n : NodeId) : Prop :=
  ∃ path, (q.graph .single).Path i path n ∧ ∀ j ∈ (path ++ [n]).tail, ¬ p.Writes j x

theorem leaves_iff : Leaves p q i x n ↔ n = i ∨ (Arrives p q i x n ∧ ¬ p.Writes n x) := by
  constructor
  · rintro ⟨path, hpath, hclean⟩
    cases hpath with
    | nil => exact .inl rfl
    | @cons _ _ _ rest hab hrest =>
      refine .inr ⟨⟨rest, .cons hab hrest, fun j hj => hclean j ?_⟩, hclean n ?_⟩
      · simp [hj]
      · simp
  · rintro (rfl | ⟨⟨path, hpath, hclean⟩, hn⟩)
    · exact ⟨[], .nil _, by simp⟩
    · refine ⟨i :: path, hpath, fun j hj => ?_⟩
      rcases List.mem_append.mp hj with hj | hj
      · exact hclean j hj
      · exact List.mem_singleton.mp hj ▸ hn

/-- A definition that leaves a node arrives at its successors. -/
theorem Leaves.arrives (h : Leaves p q i x k) (hkn : (q.graph .single).hasEdge k n = true) :
    Arrives p q i x n := by
  rcases leaves_iff.mp h with rfl | ⟨⟨path, hpath, hclean⟩, hk⟩
  · exact ⟨[], .cons hkn (.nil n), by simp⟩
  · refine ⟨path ++ [k], hpath.snoc hkn, fun j hj => ?_⟩
    rcases List.mem_append.mp hj with hj | hj
    · exact hclean j hj
    · exact List.mem_singleton.mp hj ▸ hk

/-! ## The facts are the paths -/

/-- The nodes to and from which one definition has such paths; all other tags are everywhere. -/
def reachingPaths (p q : Program) (i : NodeId) (x t : String) : Family (Set String) where
  merged n := {u | u = t → Arrives p q i x n}
  flowed n := {u | u = t → Leaves p q i x n}

theorem closed_reachingPaths (hts : Tagging p ts) (hi : p.Writes i x) (ht : ts.get? i = some t) :
    (fineSystem p q ts).Closed (reachingPaths p q i x t) where
  boundary_le n _ := Set.empty_subset _
  source_le n _ s hs u hu hut := (hu hut).arrives hs
  effect_le n _ u hu := by
    rintro rfl
    rw [leaves_iff]
    rcases hu with ⟨y, -, hn⟩ | ⟨harrives, hkept⟩
    · exact .inl (hts.unique hn ht)
    · exact .inr ⟨harrives rfl, fun hx => hkept x hx i hi ht⟩

/-- Facts that are closed under the equations keep a definition where its variable is not
written. -/
theorem mem_flowed_of_not_writes {y : Family (Set String)} (hts : Tagging p ts)
    (hi : p.Writes i x) (ht : ts.get? i = some t) (hy : (fineSystem p q ts).Closed y)
    (hn : n ∈ (q.graph .single).nodes) (hmem : t ∈ y.merged n) (hx : ¬ p.Writes n x) :
    t ∈ y.flowed n := by
  refine hy.effect_le n hn (.inr ⟨hmem, fun z hz j hj hjt => hx ?_⟩)
  obtain rfl := hts.unique hjt ht
  exact hj.unique hi ▸ hz

/-- A definition is in all facts along a path on which its variable is not written. -/
theorem mem_merged_of_path {y : Family (Set String)} {path : List NodeId} (hq : q.WellFormed)
    (hts : Tagging p ts) (hi : p.Writes i x) (ht : ts.get? i = some t)
    (hy : (fineSystem p q ts).Closed y) (hj : t ∈ y.flowed j)
    (hpath : (q.graph .single).Path j (j :: path) n) (hclean : ∀ k ∈ path, ¬ p.Writes k x) :
    t ∈ y.merged n := by
  -- The definition leaves the node where the path stands; each edge takes it one node on.
  induction path generalizing j with
  | nil =>
    cases hpath with
    | cons hab hrest =>
      cases hrest
      exact hy.source_le n ((hq.graph .single).mem_of_hasEdge hab).2 j hab hj
  | cons b path ih =>
    cases hpath with
    | cons hab hrest =>
      obtain ⟨-, hb⟩ := (hq.graph .single).mem_of_hasEdge hab
      have hjb := hy.source_le _ hb j hab hj
      cases hrest with
      | cons hbc hrest =>
        have hkept := mem_flowed_of_not_writes hts hi ht hy hb hjb (hclean b List.mem_cons_self)
        exact ih hkept (.cons hbc hrest) fun k hk => hclean k (List.mem_cons_of_mem _ hk)

/-- The least solution of the equations between instructions has a definition exactly where paths
lead. -/
theorem mem_iff_paths {z : Family (Set String)} (hp : p.WellFormed) (hq : q.WellFormed)
    (hpq : p.SameCode q) (hts : Tagging p ts) (hz : (fineSystem p q ts).LeastSolution z)
    (hi : p.Writes i x) (ht : ts.get? i = some t) (hn : n ∈ (q.graph .single).nodes) :
    (t ∈ z.merged n ↔ Arrives p q i x n) ∧ (t ∈ z.flowed n ↔ Leaves p q i x n) := by
  have hbelow := hz.below _ (closed_reachingPaths hts hi ht) n hn
  have hclosed := hz.solves.closed
  have hmem : i ∈ (q.graph .single).nodes := by
    obtain ⟨instr, hinstr, -⟩ := id hi
    rw [Program.single_mem_nodes_iff, hpq.ids_eq]
    exact .inr (.inl (hp.mem_ids_iff.mpr ⟨instr, hinstr⟩))
  have hstart : t ∈ z.flowed i := hclosed.effect_le i hmem (.inl ⟨x, hi, ht⟩)
  have hmerged : Arrives p q i x n → t ∈ z.merged n := fun ⟨path, hpath, hclean⟩ =>
    mem_merged_of_path hq hts hi ht hclosed hstart hpath hclean
  refine ⟨⟨fun h => hbelow.1 h rfl, hmerged⟩, ⟨fun h => hbelow.2 h rfl, fun h => ?_⟩⟩
  rcases leaves_iff.mp h with rfl | ⟨harrives, hx⟩
  · exact hstart
  · exact mem_flowed_of_not_writes hts hi ht hclosed hn (hmerged harrives) hx

/-- The least solution of the equations of a graph has a definition where paths lead to the head of
a chain or to its end. -/
theorem mem_iff_paths_of_chain {y : Family (Set String)} (hp : p.WellFormed) (hq : q.WellFormed)
    (hpq : p.SameCode q) (hy : (gainLoss (p.graph kind)).reading.system.LeastSolution y)
    (hi : p.Writes i x) (ht : (tags (p.graph kind)).get? i = some t)
    (hn : n ∈ (p.graph kind).nodes) :
    (∀ f rest, p.chain q kind n = f :: rest → (t ∈ y.merged n ↔ Arrives p q i x f)) ∧
      ∀ l, (p.chain q kind n).getLast? = some l → (t ∈ y.flowed n ↔ Leaves p q i x l) := by
  have hts := tagging_tags hp kind
  have hrefines := refines_fineSystem hp hq hpq hts
  obtain ⟨z, hz⟩ := hrefines.exists_extends y
  have hleast := hz.leastSolution hrefines hy
  constructor
  · intro f rest hf
    have hmem : f ∈ (q.graph .single).nodes := hrefines.mem_iff.mpr ⟨n, hn, by simp [hf]⟩
    rw [← (mem_iff_paths hp hq hpq hts hleast hi ht hmem).1, hz.merged_head hn hf]
  · intro l hl
    have hmem : l ∈ (q.graph .single).nodes :=
      hrefines.mem_iff.mpr ⟨n, hn, List.mem_of_mem_getLast? hl⟩
    rw [← (mem_iff_paths hp hq hpq hts hleast hi ht hmem).2,
      hz.flowed_last hrefines (hy.solves n hn).2 hn hl]

end FlowTrace.Reaching

namespace FlowTrace

/-- On either graph of a verified program, a definition reaches a node if and only if a path of
instructions leads from the assignment to the first instruction of the node, or to the exit, and no
instruction in between writes the variable; it leaves a node if and only if there is such a path to
the last instruction of the node, which does not write the variable either. -/
theorem Program.Verified.reaches_iff_path {p q : Program} (hp : p.Verified) (hq : q.Verified)
    (hpq : p.SameCode q) (kind : GraphKind) :
    (Reaching.problem (p.graph kind)).EndsWith fun ins outs => ∀ i x, p.Writes i x →
      ∃ t, (Reaching.tags (p.graph kind)).get? i = some t ∧
        (∀ n c f, (p.graph kind).covered.get? n = some c → c.head? = some f →
          (t ∈ ins n ↔ ∃ path, (q.graph .single).Path i (i :: path) f ∧
            ∀ j ∈ path, ¬ p.Writes j x)) ∧
        (t ∈ ins (p.graph kind).exit ↔
          ∃ path, (q.graph .single).Path i (i :: path) (q.graph .single).exit ∧
            ∀ j ∈ path, ¬ p.Writes j x) ∧
        ∀ n c l, (p.graph kind).covered.get? n = some c → c.getLast? = some l →
          (t ∈ outs n ↔ ∃ path, (q.graph .single).Path i path l ∧
            ∀ j ∈ (path ++ [l]).tail, ¬ p.Writes j x) := by
  have hw := hp.wellFormed
  refine (Reaching.ends (hw.graph kind)).imp fun ins outs hleast i x hi => ?_
  obtain ⟨t, ht⟩ := (Reaching.tagging_tags hw kind).exists_tag hi
  have hpaths : ∀ {n}, n ∈ (p.graph kind).nodes → _ := fun hn =>
    Reaching.mem_iff_paths_of_chain hw hq.wellFormed hpq hleast hi ht hn
  refine ⟨t, ht, fun n c f hc hf => ?_, ?_, fun n c l hc hl => ?_⟩
  · obtain ⟨hn, hchain⟩ := hw.chain_of_covered q hc
    obtain ⟨rest, rfl⟩ := List.head?_eq_some_iff.mp hf
    exact (hpaths hn).1 f rest hchain
  · exact (hpaths (FlowGraph.exit_mem _)).1 _ [] (hw.chain_eq .exit)
  · obtain ⟨hn, rfl⟩ := hw.chain_of_covered q hc
    exact (hpaths hn).2 l hl

/-- The assignment of the loop reaches the block that it is in, around the loop. -/
theorem Program.countdown_reaches_own_block :
    countdown.Verified ∧ countdown.SameCode countdown.reserve.2.reserve.2 ∧
      (Reaching.problem (countdown.graph .blocks)).EndsWith fun ins _ => "d2" ∈ ins 1 := by
  have hsame := (SameCode.refl countdown).reserve.reserve
  refine ⟨verified_countdown, hsame, (verified_countdown.reaches_iff_path
    verified_countdown.reserve.reserve hsame .blocks).imp fun ins _ h => ?_⟩
  obtain ⟨t, ht, hin, -, -⟩ := h 1 "n" ⟨_, rfl, rfl⟩
  obtain rfl : "d2" = t := by
    have htag : (Reaching.tags (countdown.graph .blocks)).get? 1 = some "d2" := by decide
    exact Option.some.inj (htag.symm.trans ht)
  refine (hin 1 [1, 2] 1 (by decide) rfl).mpr
    ⟨[2], .cons (by decide) (.cons (by decide) (.nil 1)), ?_⟩
  rintro j hj ⟨instr, hinstr, hx⟩
  obtain rfl := List.mem_singleton.mp hj
  obtain rfl := Option.some.inj hinstr
  exact absurd hx (by decide)

end FlowTrace
