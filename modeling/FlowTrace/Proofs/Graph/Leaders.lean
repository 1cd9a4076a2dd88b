import FlowTrace.Proofs.Program.Labels

/-!
# Leaders

A leader is the first instruction, a target of a jump, or an instruction right after a jump.  The
basic blocks of a verified program are the pieces into which its leaders cut it: nothing is lost or
comes twice, jumps stand at the ends of blocks only, and targets at their heads only.
-/

namespace FlowTrace

namespace Program

variable {p : Program} {i n : NodeId} {c : List NodeId}

/-! ## Jumps and their targets -/

/-- There is a jump at the id. -/
def IsJump (p : Program) (i : NodeId) : Prop :=
  ∃ instr, (i, instr) ∈ p.code ∧ instr.isJump = true

/-- A jump goes to the id. -/
def IsTarget (p : Program) (i : NodeId) : Prop := ∃ e ∈ p.code, p.JumpsTo e i

/-- The first instruction, a target of a jump, or one that stands right after a jump. -/
def IsLeader (p : Program) (i : NodeId) : Prop :=
  i = p.first ∨ p.IsTarget i ∨ ∃ j, p.IsJump j ∧ p.Follows j i

/-- No label of a verified program is carried twice, and the table has the places of all. -/
theorem Verified.labels (hp : p.Verified) :
    p.labels = (enterLabels .empty p.code).1 ∧ LabelsDiffer (p.code.map (·.2)) := by
  induction hp with
  | ofInstrs _ h =>
    obtain ⟨-, -, hlabels, hnone, -⟩ := ofInstrs_eq_ok h
    have hempty : ∀ label, (Table.empty : Table String NodeId).contains label = true ↔
        label ∈ Instr.labelsOf [] := by
      simp [Table.contains, Instr.labelsOf]
    rw [faults_enterLabels hempty] at hnone
    exact ⟨hlabels, repeated_eq_nil_iff.mp hnone⟩
  | reserve _ ih => exact ih

theorem Verified.resolved (hp : p.Verified) : p.Resolved :=
  resolved_of_differ hp.wellFormed hp.labels.1 hp.labels.2

theorem WellFormed.isJump_iff (hp : p.WellFormed) : p.IsJump i ↔ p.jumpTargets i ≠ [] := by
  constructor
  · rintro ⟨instr, hi, hjump⟩ hnil
    rw [jumpTargets_eq_nil_iff (hp.instr?_eq_some_iff.mpr hi)] at hnil
    simp [Instr.isJump, hnil] at hjump
  · intro hne
    cases hinstr : p.instr? i with
    | none => simp [jumpTargets, hinstr] at hne
    | some instr =>
      rw [Ne, jumpTargets_eq_nil_iff hinstr] at hne
      exact ⟨instr, hp.instr?_eq_some_iff.mp hinstr, Option.isSome_iff_ne_none.mpr hne⟩

theorem Verified.isTarget_iff (hp : p.Verified) :
    p.IsTarget i ↔ ∃ j ∈ p.ids, some i ∈ p.jumpTargets j := by
  constructor
  · rintro ⟨e, he, hjump⟩
    exact ⟨e.1, List.mem_map_of_mem he, ((hp.resolved.navigable e he).target_iff i).mpr hjump⟩
  · rintro ⟨j, hj, htarget⟩
    obtain ⟨e, he, rfl⟩ := List.mem_map.mp hj
    exact ⟨e, he, ((hp.resolved.navigable e he).target_iff i).mp htarget⟩

/-- The instructions at which blocks are started are the leaders. -/
theorem Verified.mem_blockStarts_iff (hp : p.Verified) : i ∈ p.blockStarts ↔ p.IsLeader i := by
  have hwf := hp.wellFormed
  rw [blockStarts, List.mem_cons, List.mem_flatMap, IsLeader, hp.isTarget_iff]
  refine or_congr Iff.rfl ?_
  simp only [mem_blockStartsAt_iff, hwf.isJump_iff, hwf.following?_eq_some_iff, Follows]
  constructor
  · rintro ⟨j, hj, htarget | hnext⟩
    · exact .inl ⟨j, hj, htarget⟩
    · exact .inr ⟨j, hnext⟩
  · rintro (⟨j, hj, htarget⟩ | ⟨j, hjump, hnext⟩)
    · exact ⟨j, hj, .inl htarget⟩
    · have hj := (hwf.mem_of_following? (hwf.following?_eq_some_iff.mpr hnext)).1
      exact ⟨j, hj, .inr ⟨hjump, hnext⟩⟩

/-! ## The partition -/

/-- Blocks that are the pieces into which the leaders cut a program. -/
structure LeaderPartition (p : Program) (blocks : Table NodeId (List NodeId)) : Prop where
  /-- One after the other, the blocks are the program. -/
  flatten_eq : blocks.values.flatten = p.ids
  flatten_nodup : blocks.values.flatten.Nodup
  /-- A block is not empty, and its first instruction gives it its id. -/
  head_eq : ∀ {n c}, blocks.get? n = some c → c.head? = some n
  starts_iff : ∀ i, (∃ n c, blocks.get? n = some c ∧ c.head? = some i) ↔ p.IsLeader i
  /-- Only the last instruction of a block can be a jump. -/
  jump_last : ∀ {n c i}, blocks.get? n = some c → i ∈ c → p.IsJump i → c.getLast? = some i
  /-- Only the first instruction of a block can be a target. -/
  target_first : ∀ {n c i}, blocks.get? n = some c → i ∈ c → p.IsTarget i → c.head? = some i

theorem IsLeader.mem_ids (hp : p.Verified) (h : p.IsLeader i) : i ∈ p.ids := by
  have hwf := hp.wellFormed
  rcases h with rfl | htarget | ⟨j, -, hnext⟩
  · exact p.first_mem
  · obtain ⟨j, -, htarget⟩ := hp.isTarget_iff.mp htarget
    exact (hwf.mem_of_jumpTargets htarget).2
  · exact (hwf.mem_of_following? (hwf.following?_eq_some_iff.mpr hnext)).2

/-- A jump inside a block would be followed by a leader. -/
theorem IsBlock.getLast?_of_isJump (hp : p.WellFormed) (h : p.IsBlock n c) (hi : i ∈ c)
    (hjump : p.IsJump i) : c.getLast? = some i := by
  obtain ⟨before, after, rfl⟩ := List.append_of_mem hi
  cases after with
  | nil => exact List.getLast?_concat
  | cons j after => exact absurd (h.inner hp rfl).2.2 (hp.isJump_iff.mp hjump)

/-- Of a block only the head is a leader. -/
theorem IsBlock.head?_of_isLeader (hp : p.Verified) (h : p.IsBlock n c) (hi : i ∈ c)
    (hleader : p.IsLeader i) : c.head? = some i := by
  obtain ⟨rest, rfl⟩ := List.head?_eq_some_iff.mp h.head_eq
  rcases List.mem_cons.mp hi with rfl | hin
  · rfl
  · exact absurd (hp.mem_blockStarts_iff.mpr hleader) (h.tail_inner i hin)

theorem Verified.leaderPartition (hp : p.Verified) : p.LeaderPartition p.basicBlocks := by
  have hwf := hp.wellFormed
  have hflatten : p.basicBlocks.values.flatten = p.ids := by
    rw [Table.values, ← List.flatMap_def]
    exact (FlowGraph.covers_basicBlocks hwf).flatten_eq
  refine
    { flatten_eq := hflatten
      flatten_nodup := hflatten ▸ hwf.ids_nodup
      head_eq := fun h => (isBlock_of_get? hwf h).head_eq
      starts_iff := fun i => ⟨?_, fun hleader => ?_⟩
      jump_last := fun h hi hjump => (isBlock_of_get? hwf h).getLast?_of_isJump hwf hi hjump
      target_first := fun h hi htarget =>
        (isBlock_of_get? hwf h).head?_of_isLeader hp hi (.inr (.inl htarget)) }
  · rintro ⟨n, c, hc, hhead⟩
    have hblock := isBlock_of_get? hwf hc
    obtain rfl := Option.some.inj (hblock.head_eq.symm.trans hhead)
    exact hp.mem_blockStarts_iff.mp hblock.starts
  · obtain ⟨c, hc⟩ := exists_block_of_starts hwf (hleader.mem_ids hp)
      (hp.mem_blockStarts_iff.mpr hleader)
    exact ⟨i, c, hc, (isBlock_of_get? hwf hc).head_eq⟩

end Program

/-! ## The block of an instruction -/

namespace FlowGraph

variable {g : FlowGraph} {p : Program} {i n : NodeId}

theorem mem_coveredBy_iff : i ∈ g.coveredBy n ↔ ∃ c, g.covered.get? n = some c ∧ i ∈ c := by
  rw [coveredBy]
  cases g.covered.get? n with
  | none => simp
  | some c => simp

/-- The first block with an instruction is the only one. -/
theorem Covers.blockOf?_eq_some_iff (hc : Covers p g.covered) (hp : p.WellFormed) :
    g.blockOf? i = some n ↔ i ∈ g.coveredBy n := by
  rw [blockOf?, Option.map_eq_some_iff, mem_coveredBy_iff]
  constructor
  · rintro ⟨e, he, rfl⟩
    have hi : i ∈ e.2 := by simpa using List.find?_some he
    exact ⟨e.2, Table.get?_eq_some_iff.mpr (List.mem_of_find?_eq_some he), hi⟩
  · rintro ⟨c, hn, hi⟩
    have hsome : (g.covered.entries.find? fun e => e.2.contains i).isSome = true :=
      List.find?_isSome.mpr ⟨(n, c), Table.get?_eq_some_iff.mp hn, by simpa using hi⟩
    obtain ⟨e, he⟩ := Option.isSome_iff_exists.mp hsome
    have hmem := Table.get?_eq_some_iff.mpr (List.mem_of_find?_eq_some he)
    exact ⟨e, he, hc.unique hp hmem hn (by simpa using List.find?_some he) hi⟩

end FlowGraph

namespace Program

/-- **Blocks are cut at leaders.**  The blocks of a verified program are its leader partition, and
in the graph of blocks each instruction is found in the one block that covers it. -/
theorem Verified.blocks_cut_at_leaders {p : Program} (hp : p.Verified) :
    let g := p.graph .blocks
    p.LeaderPartition p.basicBlocks ∧ g.covered = p.basicBlocks ∧
      g.dataNodes.flatMap g.coveredBy = p.ids ∧
      (∀ i n, g.blockOf? i = some n ↔ i ∈ g.coveredBy n) ∧
      ∀ i ∈ p.ids, ∃! n, i ∈ g.coveredBy n := by
  intro g
  have hwf := hp.wellFormed
  have hcovered : g.covered = p.basicBlocks := graph_covered p .blocks
  have hcov : FlowGraph.Covers p g.covered := hcovered ▸ FlowGraph.covers_basicBlocks hwf
  refine ⟨hp.leaderPartition, hcovered, ?_, fun i n => hcov.blockOf?_eq_some_iff hwf, ?_⟩
  · rw [← hcov.flatten_eq]
    exact g.covered.flatMap_keys
  · intro i hi
    obtain ⟨n, c, hn, hic⟩ := hcov.exists_mem hi
    refine ⟨n, FlowGraph.mem_coveredBy_iff.mpr ⟨c, hn, hic⟩, fun m hm => ?_⟩
    obtain ⟨c', hm, hic'⟩ := FlowGraph.mem_coveredBy_iff.mp hm
    exact hcov.unique hwf hm hn hic' hic

/-- `goto M; a = 1; b = 2; L: a = 2; M: b = 3; if a goto L; N: ifFalse a goto N` -/
def zigzagBody : List Instr :=
  [⟨1, none, .jump (some "M")⟩,
   ⟨2, none, .copy "a" (.lit 1)⟩,
   ⟨3, none, .copy "b" (.lit 2)⟩,
   ⟨4, some "L", .copy "a" (.lit 2)⟩,
   ⟨5, some "M", .copy "b" (.lit 3)⟩,
   ⟨6, none, .branchIf "a" (some "L")⟩,
   ⟨7, some "N", .branchUnless "a" (some "N")⟩]

/-- Ids that neither grow nor fall. -/
def zigzagSupply : Supply := ⟨[7, 5, 9, 1, 3, 8, 2], 10⟩

def zigzag : Program where
  code := (zigzagSupply.number zigzagBody).1
  labels := (enterLabels .empty (zigzagSupply.number zigzagBody).1).1
  supply := (zigzagSupply.number zigzagBody).2
  code_ne_nil := by simp [zigzagBody, Supply.number]

/-- A jump forward, a jump back and one to itself, with a block that control cannot reach. -/
theorem zigzag_blocks_cut_at_leaders :
    zigzag.Verified ∧ zigzag.LeaderPartition zigzag.basicBlocks ∧
      zigzag.basicBlocks.entries = [(7, [7]), (5, [5, 9]), (1, [1]), (3, [3, 8]), (2, [2])] ∧
      (zigzag.graph .blocks).blockOf? 8 = some 3 := by
  have hverified : zigzag.Verified :=
    have h : ofInstrs zigzagBody zigzagSupply = .ok zigzag := rfl
    .ofInstrs (Supply.distinct_of_listed_lt (by decide) (by decide)) h
  obtain ⟨hpartition, hcovered, -, hblockOf, -⟩ := hverified.blocks_cut_at_leaders
  have hentries : zigzag.basicBlocks.entries =
      [(7, [7]), (5, [5, 9]), (1, [1]), (3, [3, 8]), (2, [2])] := by decide
  refine ⟨hverified, hpartition, hentries, (hblockOf 8 3).mpr ?_⟩
  rw [FlowGraph.mem_coveredBy_iff, hcovered]
  exact ⟨[3, 8], Table.get?_eq_some_iff.mpr (by simp [hentries]), by simp⟩

end Program

end FlowTrace
