import FlowTrace.Proofs.Session.Reselection
import FlowTrace.Proofs.Source.Diagnosis

/-!
# A session and its text

Whatever is done in a session, its program or its rejection is the one that a text gives: the last
one that could be read to its end.  That is the text of the session, unless a numeral with more
digits than can be read has aborted its reading.  Then the program, the rejection and the faults
stay those of the text before, through all that is done until another text can be read, and the
running analysis is dropped like on every change of the text.
-/

namespace FlowTrace

open Token (Lexeme)

/-- The program after some more ids were reserved. -/
def Program.reserved (p : Program) (k : Nat) : Program := (fun q : Program => q.reserve.2)^[k] p

theorem Program.reserved_succ (p : Program) (k : Nat) :
    p.reserved (k + 1) = (p.reserved k).reserve.2 :=
  Function.iterate_succ_apply' _ k p

namespace Session

/-! ## Operations -/

/-- All that can be done in a session. -/
inductive Operation where
  | setText (text : String)
  | act (action : Action)

def perform (s : Session) : Operation → Session
  | .setText text => (s.setText text).2
  | .act action => s.act action

/-- The session after some operations, one after the other. -/
def performAll (s : Session) (ops : List Operation) : Session := ops.foldl perform s

/-- The texts that were set, in order. -/
def texts (ops : List Operation) : List String :=
  ops.filterMap fun
    | .setText text => some text
    | .act _ => none

/-- Whether a text can be read to its end, so that it is accepted or rejected. -/
def readable (text : String) : Bool :=
  match Program.ofText text (.countFrom 0) with
  | .error (.numeral _) => false
  | _ => true

/-- The last text that could be read to its end. -/
def lastReadable? (ops : List Operation) : Option String := ((texts ops).filter readable).getLast?

/-- What a session holds is what a text gives; since then, ids may have been reserved for graphs.
Without a text it holds nothing. -/
structure Reflects (s : Session) (text? : Option String) : Prop where
  of_no_text : text? = none → s.program = none ∧ s.rejection = none ∧ s.faults = []
  of_accepted : ∀ {text p}, text? = some text → Program.ofText text (.countFrom 0) = .ok p →
    (∃ k, s.program = some (p.reserved k)) ∧ s.rejection = none ∧ s.faults = []
  of_rejected : ∀ {text r}, text? = some text →
    Program.ofText text (.countFrom 0) = .error (.rejected r) →
    s.program = none ∧ s.rejection = some r ∧ s.faults = r.sorted

variable {s : Session} {text : String} {text? : Option String} {p : Program} {r : Rejection}
  {e : Text.NumeralError}

theorem reflects_new (settings : Settings) : (new settings).Reflects none where
  of_no_text _ := ⟨rfl, rfl, rfl⟩
  of_accepted h := by cases h
  of_rejected h := by cases h

/-! ## Setting the text -/

theorem setText_of_accepted (h : Program.ofText text (.countFrom 0) = .ok p) :
    s.setText text = (.ok [], { s with
      active := none, text := some text, program := some p, faults := [], rejection := none }) := by
  simp only [setText, h]

theorem setText_of_rejected (h : Program.ofText text (.countFrom 0) = .error (.rejected r)) :
    s.setText text = (.ok r.sorted, { s with
      active := none, text := some text, program := none, faults := r.sorted,
      rejection := some r }) := by
  simp only [setText, h]

theorem setText_of_numeral (h : Program.ofText text (.countFrom 0) = .error (.numeral e)) :
    s.setText text = (.error e, { s with active := none, text := some text }) := by
  simp only [setText, h]

theorem readable_of_accepted (h : Program.ofText text (.countFrom 0) = .ok p) :
    readable text = true := by
  rw [readable, h]

theorem readable_of_rejected (h : Program.ofText text (.countFrom 0) = .error (.rejected r)) :
    readable text = true := by
  rw [readable, h]

theorem readable_eq_false_iff :
    readable text = false ↔ ∃ e, Program.ofText text (.countFrom 0) = .error (.numeral e) := by
  rw [readable]
  split
  · next e h => simp [h]
  · next h => exact ⟨nofun, fun ⟨e, he⟩ => absurd he (h e)⟩

/-- Only a numeral that cannot be read keeps a text from giving a result. -/
theorem setText_eq_error_iff :
    (s.setText text).1 = .error e ↔ Program.ofText text (.countFrom 0) = .error (.numeral e) := by
  cases h : Program.ofText text (.countFrom 0) with
  | ok p => simp [setText_of_accepted h]
  | error err =>
    cases err with
    | rejected r => simp [setText_of_rejected h]
    | numeral e' => simp [setText_of_numeral h]

/-- A text that cannot be read to its end changes nothing but the text and the running analysis. -/
theorem setText_of_unreadable (h : readable text = false) :
    (s.setText text).2 = { s with active := none, text := some text } := by
  obtain ⟨e, he⟩ := readable_eq_false_iff.mp h
  rw [setText_of_numeral he]

theorem text_setText (s : Session) (text : String) : (s.setText text).2.text = some text := by
  cases h : Program.ofText text (.countFrom 0) with
  | ok p => rw [setText_of_accepted h]
  | error err =>
    cases err with
    | rejected r => rw [setText_of_rejected h]
    | numeral e => rw [setText_of_numeral h]

/-- A text gives what it gives, whatever the session held before. -/
theorem reflects_setText (s : Session) (text : String) :
    (s.setText text).2.Reflects (some text) where
  of_no_text h := by cases h
  of_accepted htext hp := by
    obtain rfl := Option.some.inj htext
    rw [setText_of_accepted hp]
    exact ⟨⟨0, rfl⟩, rfl, rfl⟩
  of_rejected htext hr := by
    obtain rfl := Option.some.inj htext
    rw [setText_of_rejected hr]
    exact ⟨rfl, rfl, rfl⟩

/-! ## What operations keep -/

theorem text_act (s : Session) (action : Action) : (s.act action).text = s.text := by
  cases action with
  | deselect => rfl
  | call c =>
    obtain ⟨active, hcall⟩ := s.call_eq c
    rw [act, hcall]
  | select selection =>
    rw [act, select]
    split
    · rfl
    · rfl

/-- An analysis that is selected takes two ids of the program; nothing else acts on the program, and
nothing at all on the rejection and the faults. -/
theorem Reflects.act (h : s.Reflects text?) (action : Action) :
    (s.act action).Reflects text? := by
  cases action with
  | deselect => exact ⟨h.of_no_text, h.of_accepted, h.of_rejected⟩
  | call c =>
    obtain ⟨active, hcall⟩ := s.call_eq c
    rw [Session.act, hcall]
    exact ⟨h.of_no_text, h.of_accepted, h.of_rejected⟩
  | select selection =>
    rw [Session.act, select]
    split
    · exact h
    · next q hq =>
      refine ⟨fun htext => ?_, @fun text p htext hp => ?_, fun htext hr => ?_⟩
      · rw [(h.of_no_text htext).1] at hq
        cases hq
      · obtain ⟨⟨k, hk⟩, hnone⟩ := h.of_accepted htext hp
        rw [hk, Option.some.injEq] at hq
        refine ⟨⟨k + 2, ?_⟩, hnone⟩
        rw [p.reserved_succ, p.reserved_succ, hq]
        rfl
      · rw [(h.of_rejected htext hr).1] at hq
        cases hq

/-! ## Histories -/

variable {ops : List Operation}

theorem performAll_concat (s : Session) (ops : List Operation) (op : Operation) :
    s.performAll (ops ++ [op]) = (s.performAll ops).perform op :=
  List.foldl_concat perform s op ops

theorem texts_concat_setText : texts (ops ++ [.setText text]) = texts ops ++ [text] :=
  List.filterMap_append

theorem texts_concat_act {action : Action} : texts (ops ++ [.act action]) = texts ops := by
  simp [texts]

theorem lastReadable?_concat_readable (h : readable text = true) :
    lastReadable? (ops ++ [.setText text]) = some text := by
  rw [lastReadable?, texts_concat_setText]
  simp [h]

theorem lastReadable?_concat_unreadable (h : readable text = false) :
    lastReadable? (ops ++ [.setText text]) = lastReadable? ops := by
  rw [lastReadable?, texts_concat_setText]
  simp [h, lastReadable?]

theorem text_performAll (settings : Settings) (ops : List Operation) :
    ((new settings).performAll ops).text = (texts ops).getLast? := by
  induction ops using List.reverseRecOn with
  | nil => rfl
  | append_singleton ops op ih =>
    rw [performAll_concat]
    cases op with
    | setText text => rw [texts_concat_setText, List.getLast?_concat, perform, text_setText]
    | act action => rw [texts_concat_act, perform, text_act, ih]

/-- No operation takes a session away from the last text that could be read. -/
theorem reflects_lastReadable? (settings : Settings) (ops : List Operation) :
    ((new settings).performAll ops).Reflects (lastReadable? ops) := by
  induction ops using List.reverseRecOn with
  | nil => exact reflects_new settings
  | append_singleton ops op ih =>
    rw [performAll_concat]
    cases op with
    | act action =>
      rw [lastReadable?, texts_concat_act]
      exact ih.act action
    | setText text =>
      cases hread : readable text with
      | true =>
        rw [lastReadable?_concat_readable hread]
        exact reflects_setText _ text
      | false =>
        rw [lastReadable?_concat_unreadable hread, perform, setText_of_unreadable hread]
        exact ⟨ih.of_no_text, ih.of_accepted, ih.of_rejected⟩

theorem lastReadable?_of_readable (h : (texts ops).getLast? = some text)
    (hread : readable text = true) : lastReadable? ops = some text := by
  obtain ⟨before, hbefore⟩ := List.getLast?_eq_some_iff.mp h
  rw [lastReadable?, hbefore]
  simp [hread]

/-- If the last text could be read, it is the one that the session reflects. -/
theorem Reflects.of_lastReadable? (h : s.Reflects (lastReadable? ops)) :
    s.Reflects (texts ops).getLast? where
  of_no_text hnone := h.of_no_text (by
    rw [lastReadable?, List.getLast?_eq_none_iff.mp hnone]
    rfl)
  of_accepted htext hp :=
    h.of_accepted (lastReadable?_of_readable htext (readable_of_accepted hp)) hp
  of_rejected htext hr :=
    h.of_rejected (lastReadable?_of_readable htext (readable_of_rejected hr)) hr

end Session

/-! ## Overlong numerals -/

/-- Reading stops at a literal that cannot be read. -/
theorem Reader.instruction_of_unreadable {digits : String} {e : Text.NumeralError}
    (h : Text.readInt digits = .error e) (x : String) (n : Int) :
    instruction ⟨Token.lineOf n [.identifier x, .symbol "=", .integerLiteral digits], n⟩ =
      .error (.numeral e) ⟨[⟨.eol, n⟩], n⟩ := by
  have hbody : assignmentBody x ⟨Token.lineOf n [.symbol "=", .integerLiteral digits], n⟩ =
      .error (.numeral e) ⟨[⟨.eol, n⟩], n⟩ := by
    simp [assignmentBody, Token.lineOf, expectSymbol, operator?, operand, h, bind, EStateM.bind]
  simp only [Token.lineOf, List.cons_append, List.nil_append, List.map_cons, List.map_nil]
    at hbody ⊢
  simp [instruction, labelPart, bodyPart, bind, EStateM.bind, hbody]

theorem Instr.ofTokens_of_unreadable {digits : String} {e : Text.NumeralError}
    (h : Text.readInt digits = .error e) (x : String) (n : Int) :
    ofTokens (Token.lineOf n [.identifier x, .symbol "=", .integerLiteral digits]) =
      .error (.numeral e) := by
  have hinstr := Reader.instruction_of_unreadable h x n
  simp only [Token.lineOf, List.cons_append, List.nil_append, List.map_cons, List.map_nil]
    at hinstr ⊢
  simp [ofTokens, Parsing.ofTokens, Reader.ofTokens, Parsing.parse, Parsing.readOn, hinstr]

/-- Legal tokens that are written with blanks between them are those of the text. -/
theorem Instr.ofText_intercalate {ls : List Lexeme} (hne : ls ≠ [])
    (hls : ∀ L ∈ ls, L.Legal ∧ L ≠ .symbol ":") :
    ofText (String.ofList ([' '].intercalate (ls.map (·.spelling.toList)))) =
      ofTokens (Token.lineOf 1 ls) := by
  have hpieces : ∀ w ∈ ls.map (·.spelling.toList), Token.IsPiece w := by
    intro w hw
    obtain ⟨L, hL, rfl⟩ := List.mem_map.mp hw
    exact (hls L hL).1.shaped.isPiece (hls L hL).2
  have hunbroken : Text.Unbroken ([' '].intercalate (ls.map (·.spelling.toList))) :=
    Text.unbroken_intercalate (by simp [Text.Unbroken]) fun w hw => (hpieces w hw).unbroken
  have hscan : Token.scanLines 1 (Text.sourceLines
      (String.ofList ([' '].intercalate (ls.map (·.spelling.toList)))).toList) =
        (Token.lineOf 1 ls, []) := by
    obtain ⟨L, ks, rfl⟩ := List.exists_cons_of_ne_nil hne
    have hpieces' := Token.scanPieces_spelling 1 fun K hK => (hls K hK).1
    rw [String.toList_ofList, Text.sourceLines_of_unbroken hunbroken, Token.scanLines_cons,
      Token.scanLine, Token.pieces_intercalate hpieces]
    simp only [List.map_cons] at hpieces' ⊢
    simp [hpieces', Token.scanLines]
  rw [ofText_of_legal (by rw [hscan]), hscan]

theorem Token.legal_ones (k : Nat) : (Lexeme.integerLiteral (ones (k + 1))).Legal := by
  have hdigit : isDigit '1' = true := by decide
  simp [Lexeme.Legal, classify?, Lexeme.spelling, ones, List.replicate_succ, firstMatch?,
    anyKeyword?, keyword?, afterWord?, label?, isUpper, integerLiteral?, hdigit]

namespace Session

/-- `n = 1…1`, with one digit more than can be read. -/
def overlong : String :=
  String.ofList ([' '].intercalate
    ([.identifier "n", .symbol "=", .integerLiteral (Token.ones (Text.digitLimit + 1))].map
      fun L : Lexeme => L.spelling.toList))

theorem ofText_overlong : Program.ofText overlong (.countFrom 0) =
    .error (.numeral (.longText (Text.digitLimit + 1))) := by
  have hlegal : ∀ L ∈ [Lexeme.identifier "n", .symbol "=",
      .integerLiteral (Token.ones (Text.digitLimit + 1))], L.Legal ∧ L ≠ .symbol ":" := by
    simp only [List.forall_mem_cons, List.not_mem_nil, false_imp_iff, implies_true, and_true]
    exact ⟨⟨rfl, nofun⟩, ⟨rfl, by decide⟩, Token.legal_ones _, nofun⟩
  have hinstrs : Instr.ofText overlong =
      .error (.numeral (.longText (Text.digitLimit + 1))) := by
    rw [overlong, Instr.ofText_intercalate (List.cons_ne_nil _ _) hlegal]
    exact Instr.ofTokens_of_unreadable (Text.readInt_ones (Nat.lt_succ_self _)) "n" 1
  rw [Program.ofText, hinstrs]
  rfl

theorem ofText_short : ∃ p, Program.ofText "n = 1" (.countFrom 0) = .ok p := by
  have hok : (Program.ofText "n = 1" (.countFrom 0)).isOk = true := by decide +kernel
  cases h : Program.ofText "n = 1" (.countFrom 0) with
  | ok p => exact ⟨p, rfl⟩
  | error e =>
    rw [h] at hok
    cases hok

/-! ## Every history -/

/-- **A session reflects its text.**  The text of a session is the last one that was set.  After any
operations, the program, the rejection and the faults are those of the last text that could be read
to its end; where the text of the session is accepted or rejected, they are its own.  Setting a text
that cannot be read to its end changes the text and ends the running analysis, and nothing else. -/
theorem reflects_text_after_any_operations (settings : Settings) (ops : List Operation) :
    let s := (new settings).performAll ops
    s.text = (texts ops).getLast? ∧ s.Reflects s.text ∧ s.Reflects (lastReadable? ops) ∧
      ∀ text, (readable text = false ↔ ∃ e, (s.setText text).1 = .error e) ∧
        (readable text = false →
          (s.setText text).2 = { s with active := none, text := some text }) := by
  intro s
  have hreflects := reflects_lastReadable? settings ops
  have htext : s.text = (texts ops).getLast? := text_performAll settings ops
  refine ⟨htext, ?_, hreflects, fun text => ⟨?_, setText_of_unreadable⟩⟩
  · rw [htext]
    exact hreflects.of_lastReadable?
  · rw [readable_eq_false_iff]
    exact exists_congr fun e => setText_eq_error_iff.symm

/-- A short program outlasts a text that cannot be read and what is done after it. -/
theorem reflects_short_text :
    let s := (new .standard).performAll [.setText "n = 1",
      .act (.select ⟨.constantPropagation, ∅⟩), .setText overlong, .act .deselect]
    s.text = some overlong ∧
      (∃ p k, Program.ofText "n = 1" (.countFrom 0) = .ok p ∧ s.program = some (p.reserved k)) ∧
      s.rejection = none ∧ s.faults = [] ∧
      (s.setText overlong).1 = .error (.longText (Text.digitLimit + 1)) ∧
      (s.setText overlong).2 = { s with active := none, text := some overlong } := by
  obtain ⟨p, hp⟩ := ofText_short
  have hlong := ofText_overlong
  have hmain := reflects_text_after_any_operations .standard [.setText "n = 1",
    .act (.select ⟨.constantPropagation, ∅⟩), .setText overlong, .act .deselect]
  -- neither the long text nor the session is computed in what follows
  generalize overlong = long at hlong hmain ⊢
  generalize (new .standard).performAll _ = s at hmain ⊢
  obtain ⟨htext, -, hreflects, hset⟩ := hmain
  have hread : readable "n = 1" = true := readable_of_accepted hp
  have hunread : readable long = false := readable_eq_false_iff.mpr ⟨_, hlong⟩
  have hlast : lastReadable? [.setText "n = 1", .act (.select ⟨.constantPropagation, ∅⟩),
      .setText long, .act .deselect] = some "n = 1" := by
    simp [lastReadable?, texts, hread, hunread]
  obtain ⟨⟨k, hk⟩, hrejection, hfaults⟩ := hreflects.of_accepted hlast hp
  exact ⟨htext, ⟨p, k, hp, hk⟩, hrejection, hfaults, setText_eq_error_iff.mpr hlong,
    (hset long).2 hunread⟩

/-- A text that cannot be read is taken all the same: it replaces the one of the program, which
stays, and it ends the running analysis. -/
theorem overlong_text_not_reflected :
    let s := (new .standard).performAll
      [.setText "n = 1", .act (.select ⟨.constantPropagation, ∅⟩)]
    let s' := (s.setText overlong).2
    (s.setText overlong).1 = .error (.longText (Text.digitLimit + 1)) ∧
      s.active.isSome = true ∧ s'.active = none ∧ s'.text ≠ s.text ∧
      s'.text = some overlong ∧ s'.program.isSome = true ∧
      ∀ p, Program.ofText overlong (.countFrom 0) ≠ .ok p := by
  obtain ⟨p, hp⟩ := ofText_short
  have hshort :
      let s := (new .standard).performAll
        [.setText "n = 1", .act (.select ⟨.constantPropagation, ∅⟩)]
      s.active.isSome = true ∧ s.text = some "n = 1" ∧ s.program.isSome = true := by
    simp only [performAll, List.foldl_cons, List.foldl_nil, perform, act, select,
      setText_of_accepted hp, Option.isSome_some, and_self]
  have hlong := ofText_overlong
  have hne : overlong ≠ "n = 1" := by
    intro h
    rw [h, hp] at hlong
    cases hlong
  -- neither the session nor the long text is computed in what follows
  generalize (new .standard).performAll _ = s at hshort ⊢
  generalize overlong = long at hlong hne ⊢
  obtain ⟨hactive, htext, hprogram⟩ := hshort
  intro s s'
  have hs' : s' = { s with active := none, text := some long } :=
    congrArg Prod.snd (setText_of_numeral hlong)
  refine ⟨setText_eq_error_iff.mpr hlong, hactive, by rw [hs'], ?_, by rw [hs'], ?_, ?_⟩
  · rw [hs', htext]
    exact fun h => hne (Option.some.inj h)
  · rw [hs']
    exact hprogram
  · intro q hq
    rw [hlong] at hq
    cases hq

end Session

end FlowTrace
