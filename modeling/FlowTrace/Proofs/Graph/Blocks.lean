import FlowTrace.Proofs.Program.Order
import Mathlib.Data.List.Pairwise

/-!
# Basic blocks

The basic blocks of a program cut its list of ids into consecutive pieces.  Each piece starts with
a leader and has no other leader in it, so inside a piece control can only go from one instruction
to the next, and it can only come from the one before.
-/

namespace FlowTrace.Program

variable {p : Program} {i j : NodeId}

/-! ## Leaders -/

theorem mem_blockStartsAt_iff : j ∈ p.blockStartsAt i ↔
    some j ∈ p.jumpTargets i ∨ (p.jumpTargets i ≠ [] ∧ p.following? i = some j) := by
  rw [blockStartsAt]
  split
  · next h => simp [h]
  · next h =>
    have hne : p.jumpTargets i ≠ [] := h
    simp [hne]

theorem first_mem_blockStarts (p : Program) : p.first ∈ p.blockStarts := List.mem_cons_self

/-- A target of a jump starts a block. -/
theorem mem_blockStarts_of_target (hi : i ∈ p.ids) (h : some j ∈ p.jumpTargets i) :
    j ∈ p.blockStarts :=
  List.mem_cons_of_mem _ (List.mem_flatMap.mpr ⟨i, hi, mem_blockStartsAt_iff.mpr (.inl h)⟩)

/-- What follows a jump starts a block. -/
theorem mem_blockStarts_of_following (hi : i ∈ p.ids) (hj : p.jumpTargets i ≠ [])
    (h : p.following? i = some j) : j ∈ p.blockStarts :=
  List.mem_cons_of_mem _ (List.mem_flatMap.mpr ⟨i, hi, mem_blockStartsAt_iff.mpr (.inr ⟨hj, h⟩)⟩)

theorem jumpTargets_eq_nil_iff {instr : Instr} (hi : p.instr? i = some instr) :
    p.jumpTargets i = [] ↔ instr.target? = none := by
  rw [jumpTargets, hi, Option.bind_some, List.map_eq_nil_iff, Option.toList_eq_nil_iff]

theorem fallsThrough_of_jumpTargets_eq_nil (hp : p.WellFormed) (hi : i ∈ p.ids)
    (h : p.jumpTargets i = []) : p.fallsThrough i = true := by
  obtain ⟨instr, hinstr⟩ := hp.mem_ids_iff.mp hi
  have htarget := (jumpTargets_eq_nil_iff hinstr).mp h
  simp [fallsThrough, hinstr, Instr.isJump, htarget]

/-! ## Pieces of a list -/

/-- Cut a list before every item that starts a piece; the first item starts one anyway. -/
theorem exists_pieces (starts : NodeId → Bool) (i : NodeId) (rest : List NodeId) :
    ∃ pieces : List (NodeId × List NodeId),
      i :: rest = pieces.flatMap (fun c => c.1 :: c.2) ∧
      pieces.map Prod.fst = i :: rest.filter starts ∧
      ∀ c ∈ pieces, ∀ j ∈ c.2, starts j = false := by
  induction rest generalizing i with
  | nil => exact ⟨[(i, [])], rfl, rfl, by simp⟩
  | cons r rest ih =>
    obtain ⟨pieces, hall, hfst, htails⟩ := ih r
    by_cases hr : starts r = true
    · refine ⟨(i, []) :: pieces, ?_, ?_, ?_⟩
      · simp [← hall]
      · simp [hfst, hr]
      · intro c hc
        rcases List.mem_cons.mp hc with rfl | hc
        · simp
        · exact htails c hc
    · cases pieces with
      | nil => cases hall
      | cons c pieces =>
        rw [List.map_cons, List.cons.injEq] at hfst
        refine ⟨(i, r :: c.2) :: pieces, ?_, ?_, ?_⟩
        · rw [List.flatMap_cons] at hall ⊢
          rw [hall, ← hfst.1]
          rfl
        · simp [hfst.2, hr]
        · intro d hd
          rcases List.mem_cons.mp hd with rfl | hd
          · intro j hj
            rcases List.mem_cons.mp hj with rfl | hj
            · simpa using hr
            · exact htails c List.mem_cons_self j hj
          · exact htails d (List.mem_cons_of_mem _ hd)

/-- Where a piece ends is told by the next leader. -/
theorem map_range?_pieces (hp : p.WellFormed) (before : List NodeId)
    (pieces : List (NodeId × List NodeId))
    (h : p.ids = before ++ pieces.flatMap fun c => c.1 :: c.2) :
    (((pieces.map Prod.fst).zip ((pieces.map Prod.fst).tail.map some ++ [none])).map
        fun (start, stop) => (start, (p.range? start stop).getD [])) =
      pieces.map fun c => (c.1, c.1 :: c.2) := by
  -- `before` is what the pieces that were taken off make up: it gives the position of the next one.
  induction pieces generalizing before with
  | nil => rfl
  | cons c pieces ih =>
    have hc : p.position? c.1 = some before.length := hp.position?_of_split (by simpa using h)
    have hdrop : p.ids.drop before.length =
        (c.1 :: c.2) ++ pieces.flatMap fun c => c.1 :: c.2 := by
      rw [h, List.drop_left, List.flatMap_cons]
    have hrest := ih (before ++ c.1 :: c.2) (by simpa using h)
    cases pieces with
    | nil =>
      have hlen : p.ids.length - before.length = c.2.length + 1 := by
        rw [h]; simp
      simp [range?, hc, hdrop, hlen]
    | cons d pieces =>
      have hsplit : p.ids = (before ++ c.1 :: c.2) ++
          d.1 :: (d.2 ++ pieces.flatMap fun c => c.1 :: c.2) := by simpa using h
      have hd : p.position? d.1 = some (before.length + (c.2.length + 1)) := by
        rw [hp.position?_of_split hsplit]
        simp
      have hrange : p.range? c.1 (some d.1) = some (c.1 :: c.2) := by
        simp [range?, hc, hd, hdrop]
      simp only [List.map_cons, List.tail_cons, List.cons_append, List.zip_cons_cons, hrange,
        Option.getD_some] at hrest ⊢
      rw [hrest]

/-- The blocks of a program: they make up its list of ids, each starts with a leader, and no other
instruction of a block is one. -/
theorem exists_blocks (hp : p.WellFormed) : ∃ pieces : List (NodeId × List NodeId),
    p.basicBlocks.entries = pieces.map (fun c => (c.1, c.1 :: c.2)) ∧
    p.ids = pieces.flatMap (fun c => c.1 :: c.2) ∧
    ∀ c ∈ pieces, c.1 ∈ p.blockStarts ∧ ∀ j ∈ c.2, j ∉ p.blockStarts := by
  obtain ⟨pieces, hall, hfst, htails⟩ :=
    exists_pieces p.blockStarts.contains p.first p.ids.tail
  rw [← ids_eq_first_cons] at hall
  have hleaders : p.leaders = pieces.map Prod.fst := by
    rw [hfst, leaders, ids_eq_first_cons, List.filter_cons_of_pos]
    · rfl
    · simpa using first_mem_blockStarts p
  have hblocks := map_range?_pieces hp [] pieces hall
  have hnodup : (pieces.map Prod.fst).Nodup := by
    rw [← hleaders]
    exact hp.ids_nodup.filter _
  refine ⟨pieces, ?_, hall, ?_⟩
  · rw [basicBlocks, hleaders, hblocks]
    refine Table.entries_ofList ?_
    simpa [Function.comp_def] using hnodup
  · intro c hc
    have hmem : c.1 ∈ p.leaders := hleaders ▸ List.mem_map_of_mem hc
    refine ⟨by simpa using (List.mem_filter.mp hmem).2, ?_⟩
    intro j hj hstart
    have hfalse := htails c hc j hj
    simp [hstart] at hfalse

/-! ## One block -/

/-- The ids of a block: a piece of the program from a leader up to the next one. -/
structure IsBlock (p : Program) (f : NodeId) (c : List NodeId) : Prop where
  head_eq : c.head? = some f
  starts : f ∈ p.blockStarts
  tail_inner : ∀ j ∈ c.tail, j ∉ p.blockStarts
  split : ∃ before after, p.ids = before ++ c ++ after ∧
    ∀ b, after.head? = some b → b ∈ p.blockStarts

theorem isBlock_of_get? (hp : p.WellFormed) {f : NodeId} {c : List NodeId}
    (h : p.basicBlocks.get? f = some c) : p.IsBlock f c := by
  obtain ⟨pieces, hentries, hids, hstarts⟩ := exists_blocks hp
  rw [Table.get?_eq_some_iff, hentries, List.mem_map] at h
  obtain ⟨d, hd, he⟩ := h
  obtain ⟨rfl, rfl⟩ := Prod.mk.inj he
  obtain ⟨before, after, rfl⟩ := List.append_of_mem hd
  refine ⟨rfl, (hstarts d hd).1, (hstarts d hd).2, ?_⟩
  refine ⟨before.flatMap fun c => c.1 :: c.2, after.flatMap fun c => c.1 :: c.2, ?_, ?_⟩
  · simpa using hids
  · intro b hb
    cases after with
    | nil => cases hb
    | cons e after =>
      obtain rfl : e.1 = b := by simpa using hb
      exact (hstarts e (by simp)).1

/-- Every instruction is in a block. -/
theorem exists_block_of_mem (hp : p.WellFormed) (hi : i ∈ p.ids) :
    ∃ f c, p.basicBlocks.get? f = some c ∧ i ∈ c := by
  obtain ⟨pieces, hentries, hids, -⟩ := exists_blocks hp
  rw [hids, List.mem_flatMap] at hi
  obtain ⟨d, hd, hid⟩ := hi
  refine ⟨d.1, d.1 :: d.2, ?_, hid⟩
  rw [Table.get?_eq_some_iff, hentries, List.mem_map]
  exact ⟨d, hd, rfl⟩

/-- A leader is the name of its block. -/
theorem exists_block_of_starts (hp : p.WellFormed) (hi : i ∈ p.ids) (hs : i ∈ p.blockStarts) :
    ∃ c, p.basicBlocks.get? i = some c := by
  obtain ⟨f, c, hc, hic⟩ := exists_block_of_mem hp hi
  have hblock := isBlock_of_get? hp hc
  obtain ⟨rest, rfl⟩ := List.head?_eq_some_iff.mp hblock.head_eq
  rcases List.mem_cons.mp hic with rfl | hin
  · exact ⟨i :: rest, hc⟩
  · exact absurd hs (hblock.tail_inner i hin)

namespace IsBlock

variable {f : NodeId} {c : List NodeId}

/-- Two instructions that stand side by side in a block: the second follows the first, starts no
block, and the first is no jump. -/
theorem inner (hp : p.WellFormed) (h : p.IsBlock f c) {before after : List NodeId}
    (hc : c = before ++ i :: j :: after) :
    p.following? i = some j ∧ j ∉ p.blockStarts ∧ p.jumpTargets i = [] := by
  have hfollow : p.following? i = some j := by
    obtain ⟨pre, post, hids, -⟩ := h.split
    rw [hp.following?_eq_some_iff]
    exact ⟨pre ++ before, after ++ post, by simp [hids, hc]⟩
  have hj : j ∉ p.blockStarts := by
    apply h.tail_inner
    cases before with
    | nil => simp [hc]
    | cons b before => simp [hc]
  refine ⟨hfollow, hj, ?_⟩
  by_contra hjump
  exact hj (mem_blockStarts_of_following (hp.mem_of_following? hfollow).1 hjump hfollow)

/-- Inside a block control goes from an instruction to the next one only. -/
theorem mem_successors_inner (hp : p.WellFormed) (h : p.IsBlock f c) {before after : List NodeId}
    (hc : c = before ++ i :: j :: after) {b : NodeId} : b ∈ p.successors i ↔ b = j := by
  obtain ⟨hfollow, -, hjump⟩ := h.inner hp hc
  have hfalls := fallsThrough_of_jumpTargets_eq_nil hp (hp.mem_of_following? hfollow).1 hjump
  rw [mem_successors_iff, hjump, hfollow, hfalls]
  simp [eq_comm]

/-- Inside a block control comes from the instruction before only. -/
theorem mem_predecessors_inner (hp : p.WellFormed) (h : p.IsBlock f c)
    {before after : List NodeId} (hc : c = before ++ i :: j :: after) {a : NodeId} :
    j ∈ p.successors a ↔ a = i := by
  constructor
  · intro ha
    obtain ⟨hfollow, hj, -⟩ := h.inner hp hc
    rcases mem_successors_iff.mp ha with ⟨-, hf⟩ | ht
    · obtain ⟨pre, post, hpre⟩ := hp.following?_eq_some_iff.mp hf
      obtain ⟨pre', post', hpre'⟩ := hp.following?_eq_some_iff.mp hfollow
      have hpos := hp.position?_of_split (show p.ids = (pre ++ [a]) ++ j :: post by simp [hpre])
      rw [hp.position?_of_split (show p.ids = (pre' ++ [i]) ++ j :: post' by simp [hpre'])] at hpos
      have hlen : pre'.length = pre.length := by simpa using hpos
      rw [hpre] at hpre'
      exact (List.cons.inj (List.append_inj hpre' hlen.symm).2).1
    · exact absurd (mem_blockStarts_of_target (hp.mem_of_jumpTargets ht).1 ht) hj
  · rintro rfl
    exact (h.mem_successors_inner hp hc).mpr rfl

theorem ne_last_of_inner (hp : p.WellFormed) (h : p.IsBlock f c) {before after : List NodeId}
    (hc : c = before ++ i :: j :: after) : i ≠ p.last := by
  rintro rfl
  have hfollow := (h.inner hp hc).1
  rw [hp.following?_last] at hfollow
  cases hfollow

/-- Control leaves a block to leaders only. -/
theorem starts_of_mem_successors (hp : p.WellFormed) (h : p.IsBlock f c) {l b : NodeId}
    (hl : c.getLast? = some l) (hb : b ∈ p.successors l) : b ∈ p.blockStarts := by
  rcases mem_successors_iff.mp hb with ⟨-, hf⟩ | ht
  · obtain ⟨before, after, hids, hafter⟩ := h.split
    obtain ⟨init, rfl⟩ := List.getLast?_eq_some_iff.mp hl
    obtain ⟨pre, post, hpre⟩ := hp.following?_eq_some_iff.mp hf
    have hpos := hp.position?_of_split hpre
    rw [hp.position?_of_split (show p.ids = (before ++ init) ++ l :: after by simp [hids])] at hpos
    have hlen : (before ++ init).length = pre.length := Option.some.inj hpos
    have heq : (before ++ init) ++ l :: after = pre ++ l :: b :: post := by
      rw [← hpre, hids]; simp
    obtain ⟨-, htail⟩ := List.append_inj heq hlen
    apply hafter
    rw [(List.cons.inj htail).2]
    rfl
  · exact mem_blockStarts_of_target (hp.mem_of_jumpTargets ht).1 ht

end IsBlock

end FlowTrace.Program
