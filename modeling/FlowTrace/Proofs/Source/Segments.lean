import FlowTrace.Proofs.Source.Locality
import Mathlib.Data.List.SplitBy

/-!
# Reading segment by segment

Tokens are cut into segments after each end of a line.  Each segment is read on
its own: it is the one instruction that the grammar derives from it, or else it has one fault, or
else it stops the reading behind a literal that cannot be read.
-/

namespace FlowTrace

open Token (Lexeme)

/-! ## Segments -/

namespace Token

variable {ts rest : List Token}

/-- The tokens, cut after each end of a line. -/
def segments (tokens : List Token) : List (List Token) :=
  tokens.splitBy fun t _ => t.lexeme != .eol

theorem isChain_of_no_eol (hts : ∀ t ∈ ts, t.lexeme ≠ .eol) (u : Token) :
    (ts ++ [u]).IsChain fun t _ => (t.lexeme != .eol) = true := by
  induction ts with
  | nil => exact .singleton u
  | cons t ts ih =>
    have ht : (t.lexeme != .eol) = true := by simpa using hts t List.mem_cons_self
    refine List.isChain_cons.mpr ⟨fun _ _ => ht, ?_⟩
    exact ih fun t ht => hts t (List.mem_cons_of_mem _ ht)

theorem segments_line (hts : ∀ t ∈ ts, t.lexeme ≠ .eol) (n : Int) (rest : List Token) :
    segments (ts ++ ⟨.eol, n⟩ :: rest) = (ts ++ [⟨.eol, n⟩]) :: segments rest := by
  have hline : segments (ts ++ [⟨.eol, n⟩]) = [ts ++ [⟨.eol, n⟩]] :=
    List.splitBy_of_isChain (by simp) (isChain_of_no_eol hts _)
  rw [List.append_cons, segments, List.splitBy_append (by simp)]
  exact congrArg (· ++ segments rest) hline

theorem segments_last (hts : ∀ t ∈ ts, t.lexeme ≠ .eol) (hne : ts ≠ []) :
    segments ts = [ts] := by
  refine List.splitBy_of_isChain hne ?_
  rw [← List.dropLast_append_getLast hne]
  exact isChain_of_no_eol (fun t ht => hts t (List.dropLast_subset ts ht)) _

end Token

/-! ## The grammar on segments -/

theorem Operand.Derives.unique {o o' : Operand} {L : Lexeme} (h : o.Derives L)
    (h' : o'.Derives L) : o = o' := by
  cases h with
  | var name =>
    cases h'
    rfl
  | lit hvalue =>
    cases h' with
    | lit hvalue' =>
      rw [hvalue] at hvalue'
      exact congrArg _ (Except.ok.inj hvalue')

namespace Instr

variable {i j : Instr} {ls : List Lexeme} {seg : List Token}

theorem Body.Derives.unique {b b' : Body} (h : b.Derives ls) (h' : b'.Derives ls) : b = b' := by
  cases h with
  | jump target =>
    cases h'
    rfl
  | branch ha hs hb target =>
    cases h' with
    | branch ha' hs' hb' =>
      obtain rfl := Option.some.inj (hs.symm.trans hs')
      rw [ha.unique ha', hb.unique hb']
  | branchIf name target =>
    cases h'
    rfl
  | branchUnless name target =>
    cases h'
    rfl
  | copy dest ha =>
    cases h' with
    | copy _ ha' => rw [ha.unique ha']
  | unary dest hs ha =>
    cases h' with
    | unary _ hs' ha' =>
      obtain rfl := Option.some.inj (hs.symm.trans hs')
      rw [ha.unique ha']
  | binary dest ha hs hb =>
    cases h' with
    | binary _ ha' hs' hb' =>
      obtain rfl := Option.some.inj (hs.symm.trans hs')
      rw [ha.unique ha', hb.unique hb']

/-- The grammar is unambiguous: tokens have one label and one body at most. -/
theorem Derives.unique (h : i.Derives ls) (h' : j.Derives ls) :
    i.label = j.label ∧ i.body = j.body := by
  obtain ⟨body, hb, rfl⟩ := h
  obtain ⟨body', hb', heq⟩ := h'
  obtain ⟨L, ks, rfl, hL⟩ := hb.head
  obtain ⟨L', ks', rfl, hL'⟩ := hb'.head
  generalize i.label = label, j.label = label' at heq
  cases label with
  | none =>
    cases label' with
    | none =>
      obtain ⟨rfl, rfl⟩ := List.cons.inj heq
      exact ⟨rfl, hb.unique hb'⟩
    | some name =>
      obtain ⟨rfl, -⟩ := List.cons.inj heq
      exact absurd rfl hL
  | some name =>
    cases label' with
    | none =>
      obtain ⟨rfl, -⟩ := List.cons.inj heq
      exact absurd rfl hL'
    | some name' =>
      simp only [labelTokens, List.cons_append, List.nil_append, List.cons.injEq,
        Lexeme.label.injEq, true_and] at heq
      obtain ⟨rfl, rfl, rfl⟩ := heq
      exact ⟨rfl, hb.unique hb'⟩

/-- The grammar derives the segment, and the instruction is its syntax tree:
`(label ":")? body eol`, on the line of the first token of the body. -/
def Spans (i : Instr) (seg : List Token) : Prop :=
  ∃ ls, i.Derives ls ∧ seg.map (·.lexeme) = ls ++ [.eol] ∧
    (seg.drop (labelTokens i.label).length).head?.map (·.line) = some i.line

theorem Spans.unique (h : i.Spans seg) (h' : j.Spans seg) : i = j := by
  obtain ⟨ls, hls, hseg, hline⟩ := h
  obtain ⟨ls', hls', hseg', hline'⟩ := h'
  obtain rfl : ls = ls' := List.append_cancel_right (hseg.symm.trans hseg')
  obtain ⟨hlabel, hbody⟩ := hls.unique hls'
  rw [← hlabel, hline] at hline'
  obtain ⟨n, label, body⟩ := i
  obtain ⟨n', label', body'⟩ := j
  obtain rfl : label = label' := hlabel
  obtain rfl : body = body' := hbody
  obtain rfl : n = n' := Option.some.inj hline'
  rfl

end Instr

namespace Reader

variable {r r' : Reader} {ls ks : List Lexeme} {i : Instr}

theorem Takes.map_lexeme (h : r.Takes ls r') :
    r.pending.map (·.lexeme) = ls ++ r'.pending.map (·.lexeme) := by
  induction h with
  | done r => rfl
  | step m _ ih => exact congrArg _ ih

theorem Takes.drop_length (h : r.Takes ls r') : r.pending.drop ls.length = r'.pending := by
  induction h with
  | done r => rfl
  | step m _ ih => exact ih

theorem Takes.exists_append (h : r.Takes ls r') :
    ∃ us, us.map (·.lexeme) = ls ∧ r.pending = us ++ r'.pending := by
  induction h with
  | done r => exact ⟨[], rfl, rfl⟩
  | @step L ls ts n r' m _ ih =>
    obtain ⟨us, hus, hpending⟩ := ih
    exact ⟨⟨L, n⟩ :: us, congrArg _ hus, congrArg _ hpending⟩

/-- The last token taken. -/
theorem Takes.exists_last {L : Lexeme} (h : r.Takes (ls ++ [L]) r') :
    ∃ us n, r.pending = us ++ ⟨L, n⟩ :: r'.pending := by
  obtain ⟨r₁, h₁, hlast⟩ := h.split
  obtain ⟨us, -, hus⟩ := h₁.exists_append
  exact ⟨us, r'.lastLine, by rw [hus, takes_singleton_iff.mp hlast]⟩

/-- The line of the next token, or else of the last one taken, is that of a token. -/
theorem Takes.exists_line (h : r.Takes ls r') (hne : r.pending ≠ []) :
    ∃ t ∈ r.pending, r'.nextLine?.getD r'.lastLine = t.line := by
  induction h with
  | done r =>
    obtain ⟨_ | ⟨t, ts⟩, m⟩ := r
    · exact absurd rfl hne
    · exact ⟨t, List.mem_cons_self, rfl⟩
  | @step L ls ts n r' m h ih =>
    rcases List.eq_nil_or_concat ts with rfl | ⟨_, _, hts⟩
    · cases h
      exact ⟨_, List.mem_cons_self, rfl⟩
    · obtain ⟨t, ht, hline⟩ := ih (by simp [hts])
      exact ⟨t, List.mem_cons_of_mem _ ht, hline⟩

theorem exists_takes (h : r.pending.map (·.lexeme) = ls ++ ks) :
    ∃ r', r.Takes ls r' ∧ r'.pending.map (·.lexeme) = ks := by
  induction ls generalizing r with
  | nil => exact ⟨r, .done r, h⟩
  | cons L ls ih =>
    obtain ⟨_ | ⟨⟨K, n⟩, ts⟩, m⟩ := r
    · cases h
    · obtain ⟨rfl, hrest⟩ := List.cons.inj h
      obtain ⟨r', htakes, hks⟩ := ih (r := ⟨ts, n⟩) hrest
      exact ⟨r', .step m htakes, hks⟩

/-- An instruction that takes all tokens spans them. -/
theorem exists_takesInstr_iff :
    (∃ r', r.TakesInstr i r' ∧ r'.pending = []) ↔ i.Spans r.pending := by
  constructor
  · rintro ⟨r', ⟨ls, r₁, hb, hlabel, hls, hline⟩, hend⟩
    refine ⟨_, ⟨ls, hb, rfl⟩, ?_, ?_⟩
    · rw [hlabel.map_lexeme, hls.map_lexeme, hend, List.map_nil, List.append_nil,
        List.append_assoc]
    · rw [hlabel.drop_length]
      exact hline
  · rintro ⟨_, ⟨ls, hb, rfl⟩, hseg, hline⟩
    rw [List.append_assoc] at hseg
    obtain ⟨r₁, hlabel, hrest⟩ := exists_takes hseg
    rw [← List.append_nil (ls ++ [Lexeme.eol])] at hrest
    obtain ⟨r', hls, hend⟩ := exists_takes hrest
    rw [hlabel.drop_length] at hline
    exact ⟨r', ⟨ls, r₁, hb, hlabel, hls, hline⟩, List.map_eq_nil_iff.mp hend⟩

theorem reads_singleton_iff : r.Reads [i] ↔ i.Spans r.pending := by
  rw [← exists_takesInstr_iff]
  constructor
  · rintro (_ | ⟨hi, hrest⟩)
    cases hrest with
    | done n => exact ⟨⟨[], n⟩, hi, rfl⟩
  · rintro ⟨⟨_, n⟩, hi, rfl⟩
    exact .step hi (.done n)

end Reader

/-! ## One segment after the other -/

namespace Reader

variable {g : Int → Int} {rest ts us us' : List Token} {r r' : Reader}

theorem Among.append (hts : ∀ t ∈ ts, t.lexeme ≠ .eol) (h : Among g rest us us') :
    Among g rest (ts.map (Token.renumber g) ++ us) (ts ++ us') := by
  induction ts with
  | nil => exact h
  | cons t ts ih =>
    exact .step t.line (hts t List.mem_cons_self) (ih fun u hu => hts u (List.mem_cons_of_mem _ hu))

theorem Among.amid (h : Among g rest us us') (hread : ∀ t ∈ us', t.lexeme.Readable) :
    Amid g rest us us' := by
  induction h with
  | stop hrest => exact .stop hrest
  | eol n => exact .eol n
  | step n hne _ ih =>
    obtain ⟨hL, hts⟩ := List.forall_mem_cons.mp hread
    exact .step n hL hne (ih hts)

theorem Amid.append (hts : ∀ t ∈ ts, t.lexeme.Readable ∧ t.lexeme ≠ .eol)
    (h : Amid g rest us us') : Amid g rest (ts.map (Token.renumber g) ++ us) (ts ++ us') := by
  induction ts with
  | nil => exact h
  | cons t ts ih =>
    obtain ⟨ht, hne⟩ := hts t List.mem_cons_self
    exact .step t.line ht hne (ih fun u hu => hts u (List.mem_cons_of_mem _ hu))

theorem Among.eq_append (h : Among id rest us us') : us = us' ++ rest := by
  induction h with
  | stop hrest => exact hrest.symm
  | eol n => rfl
  | step n _ _ ih => exact congrArg _ ih

theorem Amid.readable (h : Amid g rest us us') : ∀ t ∈ us', t.lexeme.Readable := by
  induction h with
  | stop _ => nofun
  | eol n => exact List.forall_mem_singleton.mpr trivial
  | step n hL _ _ ih => exact List.forall_mem_cons.mpr ⟨hL, ih⟩

/-- A line that stands alone stands among no others. -/
theorem Among.alone (h : Among g rest us us') : Among id [] us' us' := by
  induction h with
  | stop _ => exact .stop rfl
  | eol n => exact .eol n
  | step n hne _ ih => exact .step n hne ih

theorem Beside.alone (h : Beside g rest r r') : Beside id [] r' r' := ⟨h.among.alone, fun _ => rfl⟩

/-- Tokens and the segments that they are read in. -/
inductive Splits : List Token → List (List Token) → Prop
  | nil : Splits [] []
  | cons {seg rest : List Token} {segs : List (List Token)} (hne : seg ≠ [])
    (hseg : Among id rest (seg ++ rest) seg) (hrest : Splits rest segs) :
    Splits (seg ++ rest) (seg :: segs)

theorem splits_segments (tokens : List Token) : Splits tokens (Token.segments tokens) := by
  -- The tokens of the segment that has begun are carried along.
  suffices hcarry : ∀ ts : List Token, (∀ t ∈ ts, t.lexeme ≠ .eol) →
      Splits (ts ++ tokens) (Token.segments (ts ++ tokens)) by
    exact hcarry [] nofun
  induction tokens with
  | nil =>
    intro ts hts
    by_cases hne : ts = []
    · rw [hne]
      exact .nil
    · have hamong : Among id [] (ts ++ []) ts := by
        simpa using Among.append (g := id) hts (.stop rfl)
      rw [List.append_nil ts, Token.segments_last hts hne]
      simpa using Splits.cons hne hamong .nil
  | cons t tokens ih =>
    intro ts hts
    obtain ⟨L, n⟩ := t
    by_cases heol : L = .eol
    · subst heol
      have hamong : Among id tokens (ts ++ [⟨.eol, n⟩] ++ tokens) (ts ++ [⟨.eol, n⟩]) := by
        simpa using Among.append (g := id) hts (.eol n)
      rw [Token.segments_line hts, List.append_cons]
      exact .cons (by simp) hamong (ih [] nofun)
    · rw [List.append_cons]
      apply ih
      intro t ht
      rcases List.mem_append.mp ht with ht | ht
      · exact hts t ht
      · rw [List.mem_singleton.mp ht]
        exact heol

/-- The same, where all tokens can be read. -/
inductive Cut : List Token → List (List Token) → Prop
  | nil : Cut [] []
  | cons {seg rest : List Token} {segs : List (List Token)} (hne : seg ≠ [])
    (hseg : Amid id rest (seg ++ rest) seg) (hrest : Cut rest segs) :
    Cut (seg ++ rest) (seg :: segs)

theorem Cut.line {segs : List (List Token)}
    (hts : ∀ t ∈ ts, t.lexeme.Readable ∧ t.lexeme ≠ .eol) (n : Int) (hrest : Cut rest segs) :
    Cut (ts ++ [⟨.eol, n⟩] ++ rest) ((ts ++ [⟨.eol, n⟩]) :: segs) := by
  refine .cons (by simp) ?_ hrest
  simpa using Amid.append (g := id) hts (.eol n)

theorem Splits.cut {segs : List (List Token)} (h : Splits ts segs)
    (hread : ∀ t ∈ ts, t.lexeme.Readable) : Cut ts segs := by
  induction h with
  | nil => exact .nil
  | cons hne hseg _ ih =>
    obtain ⟨hread, hrest⟩ := List.forall_mem_append.mp hread
    exact .cons hne (hseg.amid hread) (ih hrest)

theorem Cut.splits {segs : List (List Token)} (h : Cut ts segs) :
    Splits ts segs ∧ ∀ t ∈ ts, t.lexeme.Readable := by
  induction h with
  | nil => exact ⟨.nil, nofun⟩
  | cons hne hseg _ ih =>
    exact ⟨.cons hne hseg.among ih.1, List.forall_mem_append.mpr ⟨hseg.readable, ih.2⟩⟩

theorem cut_segments {tokens : List Token} (h : ∀ t ∈ tokens, t.lexeme.Readable) :
    Cut tokens (Token.segments tokens) := (splits_segments tokens).cut h

end Reader

namespace Parsing

variable {p : Parsing} {fuel : Nat} {r : Reader} {i : Instr} {f : Fault}

theorem readOn_of_pending (h : p.reader.pending = []) :
    readOn fuel p = (.ok (), { p with complete := true }) := by
  cases fuel <;> simp [readOn, h]

theorem readOn_ok (hne : p.reader.pending ≠ []) (h : Reader.instruction p.reader = .ok i r) :
    readOn (fuel + 1) p = readOn fuel
      { p with
        reader := r
        instrs := p.instrs ++ [i]
        nameless := p.nameless || p.reader.hasNameless } := by
  simp [readOn, hne, h]

theorem readOn_fault (hne : p.reader.pending ≠ [])
    (h : Reader.instruction p.reader = .error (.fault f) r) :
    readOn (fuel + 1) p =
      readOn fuel { p with reader := r.skipLine, faults := p.faults ++ [f] } := by
  simp [readOn, hne, h]

theorem readOn_numeral {e : Text.NumeralError} (hne : p.reader.pending ≠ [])
    (h : Reader.instruction p.reader = .error (.numeral e) r) :
    readOn (fuel + 1) p = (.error e, { p with reader := r }) := by
  simp [readOn, hne, h]

end Parsing

namespace Instr

/-- The instructions of a reading; there are none if it fails. -/
def found : Except SourceError (List Instr) → List Instr
  | .ok is => is
  | .error _ => []

/-- What stopped a reading that met a literal which cannot be read. -/
def stop? : Except SourceError (List Instr) → Option Text.NumeralError
  | .error (.numeral e) => some e
  | _ => none

/-- The faults of a reading that is rejected. -/
def reported : Except SourceError (List Instr) → List Fault
  | .error (.rejected r) => r.faults
  | _ => []

variable {seg : List Token} {r : Reader} {i : Instr} {f : Fault}

theorem ofTokens_of_ok (hne : seg ≠ []) (h : Reader.instruction (.ofTokens seg) = .ok i r)
    (hr : r.pending = []) : ofTokens seg = .ok [i] := by
  obtain ⟨k, hk⟩ := Nat.exists_eq_succ_of_ne_zero (List.length_eq_zero_iff.not.mpr hne)
  rw [ofTokens_eq, hk, Parsing.readOn_ok hne h, Parsing.readOn_of_pending hr]
  rfl

theorem ofTokens_of_fault (hne : seg ≠ [])
    (h : Reader.instruction (.ofTokens seg) = .error (.fault f) r)
    (hr : r.skipLine.pending = []) : ofTokens seg = .error (.rejected ⟨[f]⟩) := by
  obtain ⟨k, hk⟩ := Nat.exists_eq_succ_of_ne_zero (List.length_eq_zero_iff.not.mpr hne)
  rw [ofTokens_eq, hk, Parsing.readOn_fault hne h, Parsing.readOn_of_pending hr]
  rfl

theorem ofTokens_of_numeral {e : Text.NumeralError} (hne : seg ≠ [])
    (h : Reader.instruction (.ofTokens seg) = .error (.numeral e) r) :
    ofTokens seg = .error (.numeral e) := by
  obtain ⟨k, hk⟩ := Nat.exists_eq_succ_of_ne_zero (List.length_eq_zero_iff.not.mpr hne)
  rw [ofTokens_eq, hk, Parsing.readOn_numeral hne h]

/-- What is read from a line among others, and what is read from the line alone. -/
inductive ReadsAmong (g : Int → Int) (rest seg : List Token) :
    EStateM.Result Reader.Stop Reader Instr → Prop
  | ok {i : Instr} {r : Reader} (halone : ofTokens seg = .ok [i]) (hr : r.pending = rest) :
    ReadsAmong g rest seg (.ok (i.renumber g) r)
  | fault {f : Fault} {r : Reader} (halone : ofTokens seg = .error (.rejected ⟨[f]⟩))
    (hf : f.code.phase = .syntactic) (hline : ∃ t ∈ seg, f.line = t.line)
    (hr : r.skipLine.pending = rest) : ReadsAmong g rest seg (.error (.fault (f.renumber g)) r)
  | numeral {e : Text.NumeralError} {r : Reader} {us seg' : List Token} {L : Lexeme} {n : Int}
    (halone : ofTokens seg = .error (.numeral e)) (hL : L.Spoils e)
    (hseg : seg = us ++ ⟨L, n⟩ :: seg') (hr : Reader.Among g rest r.pending seg') :
    ReadsAmong g rest seg (.error (.numeral e) r)

/-- What is read from a line among others is what is read from the line alone. -/
theorem readsAmong {g : Int → Int} {rest ts : List Token} (h : Reader.Among g rest ts seg)
    (hne : seg ≠ []) (m : Int) : ReadsAmong g rest seg (Reader.instruction ⟨ts, m⟩) := by
  have hbeside : Reader.Beside g rest ⟨ts, m⟩ (.ofTokens seg) := ⟨h, fun hnil => absurd hnil hne⟩
  have hmatch := Reader.mirrors_instruction hbeside
  generalize Reader.instruction ⟨ts, m⟩ = among,
    halone : Reader.instruction (.ofTokens seg) = alone at hmatch
  cases hmatch with
  | @ok _ i r r' ls htakes hi hr =>
    subst hi
    exact .ok (ofTokens_of_ok hne halone hr.pending_alone) hr.pending
  | @fault f r r' ls htakes hf hline hr =>
    refine .fault (ofTokens_of_fault hne halone hr.alone.skipLine) hf ?_ hr.skipLine
    exact hline ▸ htakes.exists_line hne
  | numeral htakes hL hr =>
    obtain ⟨us, n, hseg⟩ := htakes.exists_last
    exact .numeral (ofTokens_of_numeral hne halone) hL hseg hr.among

/-- Where the tokens can be read, there is an instruction or a fault. -/
theorem instruction_amid {g : Int → Int} {rest ts : List Token} (h : Reader.Amid g rest ts seg)
    (hne : seg ≠ []) (m : Int) :
    (∃ i r, ofTokens seg = .ok [i] ∧
      Reader.instruction ⟨ts, m⟩ = .ok (i.renumber g) r ∧ r.pending = rest) ∨
    ∃ f r, f.code.phase = .syntactic ∧ ofTokens seg = .error (.rejected ⟨[f]⟩) ∧
      Reader.instruction ⟨ts, m⟩ = .error (.fault (f.renumber g)) r ∧
      r.skipLine.pending = rest := by
  have hreads := readsAmong h.among hne m
  generalize Reader.instruction ⟨ts, m⟩ = result at hreads ⊢
  cases hreads with
  | @ok i r halone hr => exact .inl ⟨i, r, halone, rfl, hr⟩
  | @fault f r halone hf _ hr => exact .inr ⟨f, r, hf, halone, rfl, hr⟩
  | @numeral e r us seg' L n _ hL hseg _ =>
    have hmem : ⟨L, n⟩ ∈ seg := by simp [hseg]
    exact absurd (h.readable _ hmem) hL.not_readable

end Instr

namespace Parsing

variable {p : Parsing} {seg rest : List Token}

/-- Reading a segment adds what it gives alone, and goes on with what follows it, unless it stops
behind a literal that cannot be read. -/
theorem readOn_segment (hp : Reader.Among id rest p.reader.pending seg) (hne : seg ≠ []) :
    (Instr.stop? (Instr.ofTokens seg) = none ∧
      ∃ p', (∀ fuel, readOn (fuel + 1) p = readOn fuel p') ∧ p'.reader.pending = rest ∧
        p'.complete = p.complete ∧ p'.instrs = p.instrs ++ Instr.found (Instr.ofTokens seg) ∧
        p'.faults = p.faults ++ Instr.reported (Instr.ofTokens seg)) ∨
    ∃ e r us L n, Instr.stop? (Instr.ofTokens seg) = some e ∧ Lexeme.Spoils L e ∧
      seg ++ rest = us ++ ⟨L, n⟩ :: r.pending ∧
      ∀ fuel, readOn (fuel + 1) p = (.error e, { p with reader := r }) := by
  have hpending : p.reader.pending ≠ [] := by
    rintro hnil
    rw [hnil] at hp
    cases hp
    exact hne rfl
  have hreads := Instr.readsAmong hp hne p.reader.lastLine
  generalize hresult : Reader.instruction ⟨p.reader.pending, p.reader.lastLine⟩ = result at hreads
  cases hreads with
  | @ok i r halone hr =>
    rw [halone]
    refine .inl ⟨rfl, _, fun fuel => readOn_ok hpending hresult, hr, rfl, rfl, ?_⟩
    exact (List.append_nil _).symm
  | @fault f r halone _ _ hr =>
    rw [halone]
    refine .inl ⟨rfl, _, fun fuel => readOn_fault hpending hresult, hr, rfl, ?_, rfl⟩
    exact (List.append_nil _).symm
  | @numeral e r us seg' L n halone hL hseg hr =>
    rw [halone]
    refine .inr ⟨e, r, us, L, n, rfl, hL, ?_, fun fuel => readOn_numeral hpending hresult⟩
    rw [hseg, hr.eq_append, List.append_assoc, List.cons_append]

/-- With enough fuel all tokens are read, segment by segment, up to the first segment that stops the
reading. -/
theorem readOn_splits {tokens : List Token} {segs : List (List Token)} {fuel : Nat}
    (h : Reader.Splits tokens segs) (hp : p.reader.pending = tokens)
    (hfuel : tokens.length ≤ fuel) :
    (segs.findSome? (Instr.stop? <| Instr.ofTokens ·) = none ∧
      ∃ p', readOn fuel p = (.ok (), p') ∧ p'.complete = true ∧ p'.reader.pending = [] ∧
        p'.instrs = p.instrs ++ segs.flatMap (Instr.found <| Instr.ofTokens ·) ∧
        p'.faults = p.faults ++ segs.flatMap (Instr.reported <| Instr.ofTokens ·)) ∨
    ∃ e p', segs.findSome? (Instr.stop? <| Instr.ofTokens ·) = some e ∧
      readOn fuel p = (.error e, p') ∧ p'.complete = p.complete ∧
      ∃ us L n, tokens = us ++ ⟨L, n⟩ :: p'.reader.pending ∧ Lexeme.Spoils L e := by
  induction h generalizing p fuel with
  | nil =>
    refine .inl ⟨rfl, _, readOn_of_pending hp, rfl, hp, ?_, ?_⟩
    · exact (List.append_nil _).symm
    · exact (List.append_nil _).symm
  | @cons seg rest segs hne hseg hrest ih =>
    -- A segment has at least one token, so there is fuel left for the others.
    have hpos := List.length_pos_iff.mpr hne
    rw [List.length_append] at hfuel
    obtain ⟨k, rfl⟩ : ∃ k, fuel = k + 1 := Nat.exists_eq_succ_of_ne_zero (by omega)
    have hk : rest.length ≤ k := by omega
    rw [List.findSome?_cons]
    rcases readOn_segment (p := p) (hp ▸ hseg) hne with
      ⟨hstop, p₁, hstep, hp₁, hcomplete₁, hinstrs, hfaults⟩ |
        ⟨e, r, us, L, n, hstop, hL, htokens, hstep⟩
    · rw [hstop, hstep]
      rcases ih hp₁ hk with ⟨hnone, p', hrun, hcomplete, hend, hinstrs', hfaults'⟩ |
        ⟨e, p', hsome, hrun, hcomplete, us, L, n, htokens, hL⟩
      · refine .inl ⟨hnone, p', hrun, hcomplete, hend, ?_, ?_⟩
        · rw [hinstrs', hinstrs, List.append_assoc, List.flatMap_cons]
        · rw [hfaults', hfaults, List.append_assoc, List.flatMap_cons]
      · refine .inr ⟨e, p', hsome, hrun, hcomplete.trans hcomplete₁, seg ++ us, L, n, ?_, hL⟩
        rw [htokens, List.append_assoc]
    · rw [hstop, hstep]
      exact .inr ⟨e, _, rfl, rfl, rfl, us, L, n, htokens, hL⟩

theorem readOn_cut {tokens : List Token} {segs : List (List Token)} {fuel : Nat}
    (h : Reader.Cut tokens segs) (hp : p.reader.pending = tokens) (hfuel : tokens.length ≤ fuel) :
    ∃ p', readOn fuel p = (.ok (), p') ∧ p'.complete = true ∧ p'.reader.pending = [] ∧
      p'.instrs = p.instrs ++ segs.flatMap (Instr.found <| Instr.ofTokens ·) ∧
      p'.faults = p.faults ++ segs.flatMap (Instr.reported <| Instr.ofTokens ·) := by
  rcases readOn_splits h.splits.1 hp hfuel with
    ⟨-, hrun⟩ | ⟨e, p', -, -, -, us, L, n, htokens, hL⟩
  · exact hrun
  · have hmem : ⟨L, n⟩ ∈ tokens := by simp [htokens]
    exact absurd (h.splits.2 _ hmem) hL.not_readable

/-- The whole run on tokens that are cut into segments. -/
theorem parse_cut {tokens : List Token} {segs : List (List Token)} (h : Reader.Cut tokens segs) :
    ∃ p, (ofTokens tokens).parse = (p.result.mapError .rejected, p) ∧ p.complete = true ∧
      p.reader.pending = [] ∧ p.instrs = segs.flatMap (Instr.found <| Instr.ofTokens ·) ∧
      p.faults = segs.flatMap (Instr.reported <| Instr.ofTokens ·) := by
  obtain ⟨p, hrun, hcomplete, hend, hinstrs, hfaults⟩ :=
    readOn_cut (p := ofTokens tokens) h rfl (Nat.le_refl _)
  have hread : readOn (ofTokens tokens).reader.pending.length (ofTokens tokens) = (.ok (), p) :=
    hrun
  refine ⟨p, ?_, hcomplete, hend, hinstrs, hfaults⟩
  show parse _ = _
  unfold parse
  rw [hread]
  rfl

end Parsing

theorem Reader.Cut.readable {tokens : List Token} {segs : List (List Token)}
    (h : Cut tokens segs) : ∀ seg ∈ segs, ∀ t ∈ seg, t.lexeme.Readable := by
  induction h with
  | nil => nofun
  | cons _ hseg _ ih => exact List.forall_mem_cons.mpr ⟨hseg.readable, ih⟩

theorem Reader.whole_of_readable {r : Reader} (h : ∀ t ∈ r.pending, t.lexeme.Readable) :
    r.Whole := by
  intro t ht k hk
  have := h t ht
  rwa [hk] at this

namespace Instr

variable {tokens seg : List Token} {segs : List (List Token)} {i : Instr} {is : List Instr}

/-- A segment is read as the instruction that the grammar derives from it. -/
theorem spans_iff (h : ∀ t ∈ seg, t.lexeme.Readable) : i.Spans seg ↔ ofTokens seg = .ok [i] := by
  rw [ofTokens_eq_ok_iff (Reader.whole_of_readable h), Reader.reads_singleton_iff]
  rfl

/-- Each segment is an instruction, or else it has one fault. -/
theorem segment_cases (h : Reader.Cut tokens segs) :
    ∀ seg ∈ segs, (∃ i, i.Spans seg ∧ ofTokens seg = .ok [i]) ∨
      (¬∃ i, Spans i seg) ∧
        ∃ f, f.code.phase = .syntactic ∧ ofTokens seg = .error (.rejected ⟨[f]⟩) := by
  induction h with
  | nil => nofun
  | @cons seg rest segs hne hseg _ ih =>
    refine List.forall_mem_cons.mpr ⟨?_, ih⟩
    have hspans : ∀ i, Spans i seg ↔ ofTokens seg = .ok [i] := fun i => spans_iff hseg.readable
    simp only [hspans]
    rcases instruction_amid hseg hne 0 with ⟨i, -, hi, -⟩ | ⟨f, -, hphase, hf, -⟩
    · exact .inl ⟨i, hi, hi⟩
    · refine .inr ⟨?_, f, hphase, hf⟩
      rintro ⟨i, hi⟩
      rw [hf] at hi
      cases hi

theorem reported_segs_eq_nil_iff (h : Reader.Cut tokens segs) :
    segs.flatMap (reported <| ofTokens ·) = [] ↔ ∀ seg ∈ segs, ∃ i, Spans i seg := by
  rw [List.flatMap_eq_nil_iff]
  refine forall₂_congr fun seg hseg => ?_
  rcases segment_cases h seg hseg with ⟨i, hspans, hi⟩ | ⟨hnone, f, -, hf⟩
  · rw [hi]
    exact ⟨fun _ => ⟨i, hspans⟩, fun _ => rfl⟩
  · rw [hf]
    exact ⟨nofun, fun hsome => absurd hsome hnone⟩

/-- What tokens give, from what their segments give. -/
theorem ofTokens_of_cut (h : Reader.Cut tokens segs) :
    (segs.flatMap (reported <| ofTokens ·) = [] →
      ofTokens tokens = .ok (segs.flatMap (found <| ofTokens ·))) ∧
    (segs.flatMap (reported <| ofTokens ·) ≠ [] →
      ofTokens tokens = .error (.rejected ⟨segs.flatMap (reported <| ofTokens ·)⟩)) := by
  obtain ⟨p, hparse, -, -, hinstrs, hfaults⟩ := Parsing.parse_cut h
  have hresult : ofTokens tokens = p.result.mapError .rejected := congrArg Prod.fst hparse
  rw [hresult, ← hfaults, ← hinstrs]
  constructor
  · intro hnil
    exact Parsing.mapError_result_eq_ok_iff.mpr ⟨hnil, rfl⟩
  · intro hne
    have hempty : p.faults.isEmpty = false := by simpa using hne
    simp [Parsing.result, hempty, Except.mapError]

theorem forall₂_found_iff {R : Instr → List Token → Prop}
    (h : ∀ seg ∈ segs, ∀ i, R i seg ↔ ofTokens seg = .ok [i]) :
    List.Forall₂ R is segs ↔
      (∀ seg ∈ segs, ∃ i, R i seg) ∧ segs.flatMap (found <| ofTokens ·) = is := by
  induction segs generalizing is with
  | nil => simp [eq_comm]
  | cons seg segs ih =>
    obtain ⟨hseg, hsegs⟩ := List.forall_mem_cons.mp h
    rw [List.forall₂_cons_right_iff, List.forall_mem_cons, List.flatMap_cons]
    constructor
    · rintro ⟨i, is, hi, his, rfl⟩
      obtain ⟨hall, rfl⟩ := (ih hsegs).mp his
      refine ⟨⟨⟨i, hi⟩, hall⟩, ?_⟩
      rw [(hseg i).mp hi]
      rfl
    · rintro ⟨⟨⟨i, hi⟩, hall⟩, rfl⟩
      refine ⟨i, _, hi, (ih hsegs).mpr ⟨hall, rfl⟩, ?_⟩
      rw [(hseg i).mp hi]
      rfl

theorem forall₂_spans_iff (h : ∀ seg ∈ segs, ∀ i, Spans i seg ↔ ofTokens seg = .ok [i]) :
    List.Forall₂ Spans is segs ↔
      (∀ seg ∈ segs, ∃ i, Spans i seg) ∧ segs.flatMap (found <| ofTokens ·) = is :=
  forall₂_found_iff h

/-- Each segment is an instruction, or has one fault on the line of one of its tokens, or stops the
reading. -/
theorem segment_gives (h : Reader.Splits tokens segs) :
    ∀ seg ∈ segs, (∃ i, ofTokens seg = .ok [i]) ∨
      (∃ f, ofTokens seg = .error (.rejected ⟨[f]⟩) ∧ ∃ t ∈ seg, f.line = t.line) ∨
      ∃ e, ofTokens seg = .error (.numeral e) := by
  induction h with
  | nil => nofun
  | @cons seg rest segs hne hseg _ ih =>
    refine List.forall_mem_cons.mpr ⟨?_, ih⟩
    have hreads := readsAmong hseg hne 0
    generalize Reader.instruction _ = result at hreads
    cases hreads with
    | @ok i _ halone _ => exact .inl ⟨i, halone⟩
    | @fault f _ halone _ hline _ => exact .inr (.inl ⟨f, halone, hline⟩)
    | @numeral e _ _ _ _ _ halone _ _ _ => exact .inr (.inr ⟨e, halone⟩)

end Instr

/-- **Segment by segment.**  Reading ends with no token left.  Each segment gives, in its turn, what
it gives alone: the instruction that the grammar derives from it, which is the only one, or one
fault if there is none.  All instructions are returned if each segment is one, and otherwise all
faults are. -/
theorem Parsing.parse_segments {tokens : List Token} (h : ∀ t ∈ tokens, t.lexeme.Readable) :
    (∃ p, (ofTokens tokens).parse = (Instr.ofTokens tokens, p) ∧ p.complete = true ∧
      p.reader.pending = [] ∧
      p.instrs = (Token.segments tokens).flatMap (Instr.found <| Instr.ofTokens ·) ∧
      p.faults = (Token.segments tokens).flatMap (Instr.reported <| Instr.ofTokens ·)) ∧
    (∀ seg ∈ Token.segments tokens,
      (∃ i, i.Spans seg ∧ Instr.ofTokens seg = .ok [i]) ∨
        (¬∃ i, Instr.Spans i seg) ∧ ∃ f, Instr.ofTokens seg = .error (.rejected ⟨[f]⟩)) ∧
    (∀ (seg : List Token) (i j : Instr), i.Spans seg → j.Spans seg → i = j) ∧
    (∀ is, Instr.ofTokens tokens = .ok is ↔ List.Forall₂ Instr.Spans is (Token.segments tokens)) ∧
    ((∃ seg ∈ Token.segments tokens, ¬∃ i, Instr.Spans i seg) →
      Instr.ofTokens tokens =
        .error (.rejected
          ⟨(Token.segments tokens).flatMap (Instr.reported <| Instr.ofTokens ·)⟩)) := by
  have hcut := Reader.cut_segments h
  obtain ⟨p, hparse, hcomplete, hend, hinstrs, hfaults⟩ := parse_cut hcut
  have hresult : Instr.ofTokens tokens = p.result.mapError .rejected := congrArg Prod.fst hparse
  refine ⟨⟨p, hresult ▸ hparse, hcomplete, hend, hinstrs, hfaults⟩, ?_, ?_, ?_, ?_⟩
  · intro seg hseg
    rcases Instr.segment_cases hcut seg hseg with hi | ⟨hnone, f, -, hf⟩
    · exact .inl hi
    · exact .inr ⟨hnone, f, hf⟩
  · intro seg i j hi hj
    exact hi.unique hj
  · intro is
    rw [hresult, mapError_result_eq_ok_iff, hfaults, hinstrs, Instr.reported_segs_eq_nil_iff hcut,
      Instr.forall₂_spans_iff fun seg hseg i => Instr.spans_iff (hcut.readable seg hseg)]
  · intro hbad
    apply (Instr.ofTokens_of_cut hcut).2
    rw [Ne, Instr.reported_segs_eq_nil_iff hcut]
    simpa using hbad

/-- A line that is empty but for its end, a copy whose label stands on the line above, and a jump
that breaks off. -/
def Token.brokenTokens : List Token :=
  [⟨.eol, 1⟩, ⟨.label "TOP", 2⟩, ⟨.symbol ":", 2⟩, ⟨.identifier "x", 3⟩, ⟨.symbol "=", 3⟩,
    ⟨.integerLiteral "7", 3⟩, ⟨.eol, 3⟩, ⟨.goto, 4⟩]

/-- The copy is read between two faults, and all tokens are. -/
theorem Parsing.parse_brokenTokens :
    (∀ t ∈ Token.brokenTokens, t.lexeme.Readable) ∧
      ∃ p, (ofTokens Token.brokenTokens).parse =
          (.error (.rejected
            ⟨[⟨.unexpectedEnd ("label" :: Reader.bodyStarts), 1⟩,
              ⟨.unexpectedEnd ["label"], 4⟩]⟩), p) ∧
        p.reader.pending = [] ∧ p.instrs = [⟨3, some "TOP", .copy "x" (.lit 7)⟩] := by
  have h : ∀ t ∈ Token.brokenTokens, t.lexeme.Readable := by decide +kernel
  obtain ⟨⟨p, hparse, -, hend, hinstrs, -⟩, -, -, -, hbad⟩ := parse_segments h
  have hempty : [⟨.eol, 1⟩] ∈ Token.segments Token.brokenTokens := by decide +kernel
  have hnone : ¬∃ i, Instr.Spans i [⟨.eol, 1⟩] := by
    rintro ⟨i, hi⟩
    have hread : ∀ t ∈ [(⟨.eol, 1⟩ : Token)], t.lexeme.Readable := by decide
    cases (Instr.spans_iff hread).mp hi
  have hfaults : (Token.segments Token.brokenTokens).flatMap (Instr.reported <| Instr.ofTokens ·) =
      [⟨.unexpectedEnd ("label" :: Reader.bodyStarts), 1⟩, ⟨.unexpectedEnd ["label"], 4⟩] := by
    decide +kernel
  refine ⟨h, p, ?_, hend, ?_⟩
  · rw [hparse, hbad ⟨_, hempty, hnone⟩, hfaults]
  · rw [hinstrs]
    decide +kernel

end FlowTrace
