import FlowTrace.Proofs.Source.Segments
import FlowTrace.Proofs.Text.Decimal
import Mathlib.Logic.Function.Iterate

/-!
# Reading again

A call that reads to the end of the tokens settles what all later calls give.  A call that stops at
a literal which cannot be read leaves everything where it stopped, and the next call goes on behind
the literal.  Since the tokens run out, such calls cannot all give the same.
-/

namespace FlowTrace

namespace Parsing

variable {p : Parsing} {tokens : List Token} {n m : Nat}

/-- The state after some calls. -/
def afterCalls (tokens : List Token) (n : Nat) : Parsing :=
  (fun p => p.parse.2)^[n] (ofTokens tokens)

/-- What a call gives that comes after `n` others. -/
def outcome (tokens : List Token) (n : Nat) : Except SourceError (List Instr) :=
  (afterCalls tokens n).parse.1

theorem afterCalls_succ : afterCalls tokens (n + 1) = (afterCalls tokens n).parse.2 :=
  Function.iterate_succ_apply' _ n _

/-! ## One call -/

theorem stop?_result : Instr.stop? (p.result.mapError .rejected) = none := by
  unfold result
  split <;> rfl

theorem parse_of_complete (h : p.complete = true) :
    p.parse = (p.result.mapError .rejected, p) := by
  simp [parse, h]

/-- A call that has tokens to read reads them all, or it stops behind a literal. -/
theorem parse_of_incomplete (h : p.complete = false) :
    ((Token.segments p.reader.pending).findSome? (Instr.stop? <| Instr.ofTokens ·) = none ∧
      ∃ p', p.parse = (p'.result.mapError .rejected, p') ∧ p'.complete = true ∧
        p'.instrs = p.instrs ++
          (Token.segments p.reader.pending).flatMap (Instr.found <| Instr.ofTokens ·) ∧
        p'.faults = p.faults ++
          (Token.segments p.reader.pending).flatMap (Instr.reported <| Instr.ofTokens ·)) ∨
    ∃ e p', (Token.segments p.reader.pending).findSome? (Instr.stop? <| Instr.ofTokens ·) = some e ∧
      p.parse = (.error (.numeral e), p') ∧ p'.complete = false ∧
      ∃ us L k, p.reader.pending = us ++ ⟨L, k⟩ :: p'.reader.pending ∧ Token.Lexeme.Spoils L e := by
  rcases readOn_splits (Reader.splits_segments p.reader.pending) rfl (Nat.le_refl _) with
    ⟨hnone, p', hrun, hcomplete, -, hinstrs, hfaults⟩ | ⟨e, p', hsome, hrun, hcomplete, hstop⟩
  · refine .inl ⟨hnone, p', ?_, hcomplete, hinstrs, hfaults⟩
    simp [parse, h, hrun]
  · refine .inr ⟨e, p', hsome, ?_, hcomplete.trans h, hstop⟩
    simp [parse, h, hrun]

/-- A call that is not stopped can be repeated. -/
theorem parse_parse (h : Instr.stop? p.parse.1 = none) : p.parse.2.parse = p.parse := by
  by_cases hp : p.complete = true
  · rw [parse_of_complete hp, parse_of_complete hp]
  · rcases parse_of_incomplete (eq_false_of_ne_true hp) with
      ⟨-, p', hparse, hcomplete, -⟩ | ⟨e, p', -, hparse, -⟩
    · rw [hparse, parse_of_complete hcomplete]
    · rw [hparse] at h
      cases h

/-- A call that is stopped takes at least the literal that stopped it. -/
theorem parse_of_stop {e : Text.NumeralError} (h : Instr.stop? p.parse.1 = some e) :
    ∃ us L k, p.reader.pending = us ++ ⟨L, k⟩ :: p.parse.2.reader.pending ∧
      Token.Lexeme.Spoils L e := by
  by_cases hp : p.complete = true
  · rw [parse_of_complete hp, stop?_result] at h
    cases h
  · rcases parse_of_incomplete (eq_false_of_ne_true hp) with
      ⟨-, p', hparse, -⟩ | ⟨e', p', -, hparse, -, hstop⟩
    · rw [hparse, stop?_result] at h
      cases h
    · rw [hparse] at h ⊢
      cases h
      exact hstop

/-! ## Many calls -/

/-- What a call gives that is not stopped, all later calls give. -/
theorem parse_afterCalls (h : Instr.stop? (outcome tokens n) = none) (hm : n ≤ m) :
    (afterCalls tokens m).parse = (afterCalls tokens n).parse := by
  induction m, hm using Nat.le_induction with
  | base => rfl
  | succ m _ ih =>
    rw [afterCalls_succ, parse_parse, ih]
    rw [ih]
    exact h

/-- As long as calls are stopped, each of them takes a token at least. -/
theorem exists_append_pending (h : ∀ k < n, Instr.stop? (outcome tokens k) ≠ none) :
    ∃ us, tokens = us ++ (afterCalls tokens n).reader.pending ∧ n ≤ us.length := by
  induction n with
  | zero => exact ⟨[], rfl, Nat.le_refl _⟩
  | succ n ih =>
    obtain ⟨us, htokens, hlength⟩ := ih fun k hk => h k (Nat.lt_succ_of_lt hk)
    obtain ⟨e, he⟩ := Option.ne_none_iff_exists'.mp (h n (Nat.lt_succ_self n))
    obtain ⟨vs, L, k, hpending, -⟩ := parse_of_stop he
    refine ⟨us ++ vs ++ [⟨L, k⟩], ?_, ?_⟩
    · rw [afterCalls_succ, List.append_assoc, List.append_assoc, List.singleton_append, ← hpending]
      exact htokens
    · simp only [List.length_append, List.length_singleton]
      omega

/-- Not all calls are stopped. -/
theorem exists_stop?_eq_none (tokens : List Token) :
    ∃ n, Instr.stop? (outcome tokens n) = none := by
  by_contra! hall
  have hstopped : ∀ k < tokens.length + 1, Instr.stop? (outcome tokens k) ≠ none :=
    fun k _ => hall k
  obtain ⟨us, htokens, hlength⟩ := exists_append_pending hstopped
  have hle : us.length ≤ tokens.length := by
    rw [htokens, List.length_append]
    exact Nat.le_add_right _ _
  omega

/-- Only a literal that cannot be read stops a call. -/
theorem exists_spoils {e : Text.NumeralError} (h : Instr.stop? (outcome tokens n) = some e) :
    ∃ t ∈ tokens, t.lexeme.Spoils e := by
  have hbefore : ∀ k < n, Instr.stop? (outcome tokens k) ≠ none := by
    intro k hk hnone
    have hparse := parse_afterCalls hnone hk.le
    rw [outcome, hparse] at h
    exact Option.some_ne_none e (h.symm.trans hnone)
  obtain ⟨us, htokens, -⟩ := exists_append_pending hbefore
  obtain ⟨vs, L, k, hpending, hL⟩ := parse_of_stop h
  refine ⟨⟨L, k⟩, ?_, hL⟩
  rw [htokens, hpending]
  simp

/-- The first call is stopped where the first segment is that is stopped alone. -/
theorem stop?_outcome_zero (tokens : List Token) :
    Instr.stop? (outcome tokens 0) =
      (Token.segments tokens).findSome? (Instr.stop? <| Instr.ofTokens ·) := by
  rcases parse_of_incomplete (p := ofTokens tokens) rfl with
    ⟨hnone, p', hparse, -⟩ | ⟨e, p', hsome, hparse, -⟩
  · refine Eq.trans ?_ hnone.symm
    show Instr.stop? (ofTokens tokens).parse.1 = none
    rw [hparse, stop?_result]
  · refine Eq.trans ?_ hsome.symm
    show Instr.stop? (ofTokens tokens).parse.1 = some e
    rw [hparse]
    rfl

/-- The first call gives instructions if and only if each segment is one. -/
theorem outcome_zero_eq_ok_iff {is : List Instr} : outcome tokens 0 = .ok is ↔
    List.Forall₂ (fun i seg => Instr.ofTokens seg = .ok [i]) is (Token.segments tokens) := by
  have hgives := Instr.segment_gives (Reader.splits_segments tokens)
  rw [Instr.forall₂_found_iff fun _ _ _ => Iff.rfl]
  rcases parse_of_incomplete (p := ofTokens tokens) rfl with
    ⟨hnone, p', hparse, -, hinstrs, hfaults⟩ | ⟨e, p', hsome, hparse, -⟩
  · have hresult : outcome tokens 0 = p'.result.mapError .rejected := congrArg Prod.fst hparse
    have hfaults : p'.faults =
        (Token.segments tokens).flatMap (Instr.reported <| Instr.ofTokens ·) := hfaults
    have hinstrs : p'.instrs =
        (Token.segments tokens).flatMap (Instr.found <| Instr.ofTokens ·) := hinstrs
    rw [hresult, mapError_result_eq_ok_iff, hfaults, hinstrs, List.flatMap_eq_nil_iff]
    refine and_congr_left fun _ => forall₂_congr fun seg hseg => ?_
    rcases hgives seg hseg with ⟨i, hi⟩ | ⟨f, hf, -⟩ | ⟨e, he⟩
    · simp [hi, Instr.reported]
    · simp [hf, Instr.reported]
    · have := List.findSome?_eq_none_iff.mp hnone seg hseg
      rw [he] at this
      cases this
  · have hresult : outcome tokens 0 = .error (.numeral e) := congrArg Prod.fst hparse
    rw [hresult]
    obtain ⟨seg, hseg, hstop⟩ := List.exists_of_findSome?_eq_some hsome
    constructor
    · nofun
    · rintro ⟨hall, -⟩
      obtain ⟨i, hi⟩ := hall seg hseg
      rw [hi] at hstop
      cases hstop

/-- **Reading again.**  All calls give the same if and only if the first one is not stopped by a
literal that cannot be read, which is so if no segment is stopped alone.  Once a call is not
stopped, all later calls give what it gives.  As long as no call was stopped before, a call gives
instructions if and only if each segment is accepted alone, and these are its instructions. -/
theorem outcome_repeats_iff (tokens : List Token) :
    ((∀ n, outcome tokens n = outcome tokens 0) ↔ Instr.stop? (outcome tokens 0) = none) ∧
    Instr.stop? (outcome tokens 0) =
      (Token.segments tokens).findSome? (Instr.stop? <| Instr.ofTokens ·) ∧
    (∀ n e, Instr.stop? (outcome tokens n) = some e → ∃ t ∈ tokens, t.lexeme.Spoils e) ∧
    (∀ n m, n ≤ m → Instr.stop? (outcome tokens n) = none →
      outcome tokens m = outcome tokens n) ∧
    ∀ n is, (∀ k < n, Instr.stop? (outcome tokens k) = none) →
      (outcome tokens n = .ok is ↔
        List.Forall₂ (fun i seg => Instr.ofTokens seg = .ok [i]) is (Token.segments tokens)) := by
  have hlater : ∀ n m, n ≤ m → Instr.stop? (outcome tokens n) = none →
      outcome tokens m = outcome tokens n :=
    fun n m hm hnone => congrArg Prod.fst (parse_afterCalls hnone hm)
  refine ⟨⟨fun hsame => ?_, fun hnone n => hlater 0 n n.zero_le hnone⟩, stop?_outcome_zero tokens,
    fun n e => exists_spoils, hlater, fun n is hbefore => ?_⟩
  · obtain ⟨n, hn⟩ := exists_stop?_eq_none tokens
    rwa [hsame n] at hn
  · rw [← outcome_zero_eq_ok_iff]
    rcases n.eq_zero_or_pos with rfl | hpos
    · rfl
    · rw [hlater 0 n n.zero_le (hbefore 0 hpos)]

/-- `x = … y = 2` on one line, with the given digits. -/
def twoCopies (digits : String) : List Token :=
  [⟨.identifier "x", 1⟩, ⟨.symbol "=", 1⟩, ⟨.integerLiteral digits, 1⟩, ⟨.identifier "y", 1⟩,
    ⟨.symbol "=", 1⟩, ⟨.integerLiteral "2", 1⟩, ⟨.eol, 1⟩]

theorem outcome_twoCopies {digits : String} {e : Text.NumeralError}
    (h : Text.readInt digits = .error e) :
    outcome (twoCopies digits) 0 = .error (.numeral e) ∧
      outcome (twoCopies digits) 1 = .ok [⟨1, none, .copy "y" (.lit 2)⟩] := by
  have hparse : (ofTokens (twoCopies digits)).parse = (.error (.numeral e),
      ⟨⟨[⟨.identifier "y", 1⟩, ⟨.symbol "=", 1⟩, ⟨.integerLiteral "2", 1⟩, ⟨.eol, 1⟩], 1⟩,
        [], [], false, false⟩) := by
    simp [twoCopies, parse, ofTokens, Reader.ofTokens, readOn, Reader.instruction,
      Reader.labelPart, Reader.bodyPart, Reader.assignmentBody, Reader.expectSymbol,
      Reader.operator?, Reader.operand, h, bind, EStateM.bind]
  refine ⟨congrArg Prod.fst hparse, ?_⟩
  show (ofTokens (twoCopies digits)).parse.2.parse.1 = _
  rw [hparse]
  dsimp only
  decide +kernel

/-- The first call is stopped by a number with one digit more than can be read, and the second one
gives `y = 2`, though the line is not accepted. -/
theorem second_call_goes_on :
    let tokens := twoCopies (Token.ones (Text.digitLimit + 1))
    outcome tokens 0 = .error (.numeral (.longText (Text.digitLimit + 1))) ∧
      outcome tokens 1 = .ok [⟨1, none, .copy "y" (.lit 2)⟩] ∧
      ¬∃ is, List.Forall₂ (fun i seg => Instr.ofTokens seg = .ok [i]) is
        (Token.segments tokens) := by
  obtain ⟨hzero, hone⟩ := outcome_twoCopies (Text.readInt_ones (Nat.lt_succ_self Text.digitLimit))
  refine ⟨hzero, hone, ?_⟩
  rintro ⟨is, his⟩
  rw [← outcome_zero_eq_ok_iff, hzero] at his
  cases his

end Parsing

end FlowTrace
