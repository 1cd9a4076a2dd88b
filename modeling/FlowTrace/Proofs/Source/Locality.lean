import FlowTrace.Proofs.Source.Acceptance

/-!
# Reading stays on its line

An instruction is read from a line among others just as it is read from the line alone, even if the
line has another number there.  The two readings are run side by side: they take the same tokens,
end in the same way, and neither goes past the end of the line.  A fault is on the line of the next
token, and a numeral that cannot be read is the last token taken.
-/

namespace FlowTrace

open Token (Lexeme)

/-! ## Other line numbers -/

def Token.renumber (g : Int → Int) (t : Token) : Token := { t with line := g t.line }

def Fault.renumber (g : Int → Int) (f : Fault) : Fault := { f with line := g f.line }

def Instr.renumber (g : Int → Int) (i : Instr) : Instr := { i with line := g i.line }

@[simp] theorem Token.renumber_id : Token.renumber id = id := rfl

@[simp] theorem Fault.renumber_id (f : Fault) : f.renumber id = f := rfl

@[simp] theorem Instr.renumber_id (i : Instr) : i.renumber id = i := rfl

namespace Token.Lexeme

/-- The token carries the text that it should carry, and its numeral can be read. -/
def Readable : Lexeme → Prop
  | integerLiteral digits => (Text.readInt digits).isOk = true
  | blank _ => False
  | _ => True

instance : DecidablePred Readable
  | integerLiteral digits => inferInstanceAs (Decidable ((Text.readInt digits).isOk = true))
  | blank _ => inferInstanceAs (Decidable False)
  | identifier _ | symbol _ | label _ | ifTrue | ifFalse | goto | eol =>
    inferInstanceAs (Decidable True)

/-- An integer literal that cannot be read, for the given reason. -/
inductive Spoils : Lexeme → Text.NumeralError → Prop
  | digits {digits : String} {e : Text.NumeralError} (h : Text.readInt digits = .error e) :
    Spoils (.integerLiteral digits) e
  | blank : Spoils (.blank .integerLiteral) .noText

theorem Spoils.not_readable {L : Lexeme} {e : Text.NumeralError} (h : L.Spoils e) :
    ¬L.Readable := by
  cases h with
  | digits h => simp [Readable, h, Except.isOk, Except.toBool]
  | blank => exact id

theorem kind_ne_eol {L : Lexeme} (hne : L ≠ .eol) : L.kind ≠ .eol := by
  cases L with
  | eol => exact absurd rfl hne
  | blank k => cases k <;> simp [kind, TextKind.kind]
  | _ => simp [kind]

end Token.Lexeme

namespace Reader

variable {g : Int → Int} {rest : List Token} {r r' : Reader}

/-! ## Side by side -/

/-- What is pending of a line that stands among others, and what is pending of it when it stands
alone.  Only the last line of all may lack its end. -/
inductive Among (g : Int → Int) (rest : List Token) : List Token → List Token → Prop
  | stop (h : rest = []) : Among g rest [] []
  | eol (n : Int) : Among g rest (⟨.eol, g n⟩ :: rest) [⟨.eol, n⟩]
  | step {L : Lexeme} {ts ts' : List Token} (n : Int) (hne : L ≠ .eol)
    (h : Among g rest ts ts') : Among g rest (⟨L, g n⟩ :: ts) (⟨L, n⟩ :: ts')

/-- The same, where the tokens of the line can be read. -/
inductive Amid (g : Int → Int) (rest : List Token) : List Token → List Token → Prop
  | stop (h : rest = []) : Amid g rest [] []
  | eol (n : Int) : Amid g rest (⟨.eol, g n⟩ :: rest) [⟨.eol, n⟩]
  | step {L : Lexeme} {ts ts' : List Token} (n : Int) (hL : L.Readable) (hne : L ≠ .eol)
    (h : Amid g rest ts ts') : Amid g rest (⟨L, g n⟩ :: ts) (⟨L, n⟩ :: ts')

theorem Amid.among {ts ts' : List Token} (h : Amid g rest ts ts') : Among g rest ts ts' := by
  induction h with
  | stop hrest => exact .stop hrest
  | eol n => exact .eol n
  | step n _ hne _ ih => exact .step n hne ih

/-- Two readers at the same place of a line, the first one among other lines.  The last line that
was read only counts where nothing is pending. -/
structure Beside (g : Int → Int) (rest : List Token) (r r' : Reader) : Prop where
  among : Among g rest r.pending r'.pending
  lastLine : r'.pending = [] → r.lastLine = g r'.lastLine

/-- Two readers that have read the line. -/
structure Past (rest : List Token) (r r' : Reader) : Prop where
  pending : r.pending = rest
  pending_alone : r'.pending = []

theorem Among.beside {ts ts' : List Token} (h : Among g rest ts ts') (n : Int) :
    Beside g rest ⟨ts, g n⟩ ⟨ts', n⟩ := ⟨h, fun _ => rfl⟩

section Mirrors

variable {α β : Type}

/-- Results of the same kind, when the line that stands alone is read from `r₀` on: related values
at related places, or the same fault of syntax, or the same literal that cannot be read. -/
inductive Matches (g : Int → Int) (rest : List Token) (R : α → α → Prop)
    (Q : Reader → Reader → Prop) (r₀ : Reader) :
    EStateM.Result Stop Reader α → EStateM.Result Stop Reader α → Prop
  | ok {a a' : α} {r r' : Reader} {ls : List Lexeme} (htakes : r₀.Takes ls r') (ha : R a a')
    (hr : Q r r') : Matches g rest R Q r₀ (.ok a r) (.ok a' r')
  | fault {f : Fault} {r r' : Reader} {ls : List Lexeme} (htakes : r₀.Takes ls r')
    (hf : f.code.phase = .syntactic) (hline : f.line = r'.nextLine?.getD r'.lastLine)
    (hr : Beside g rest r r') :
    Matches g rest R Q r₀ (.error (.fault (f.renumber g)) r) (.error (.fault f) r')
  | numeral {e : Text.NumeralError} {r r' : Reader} {ls : List Lexeme} {L : Lexeme}
    (htakes : r₀.Takes (ls ++ [L]) r') (hL : L.Spoils e) (hr : Beside g rest r r') :
    Matches g rest R Q r₀ (.error (.numeral e) r) (.error (.numeral e) r')

/-- Reading among other lines goes like reading alone. -/
def Mirrors (g : Int → Int) (rest : List Token) (R : α → α → Prop) (Q : Reader → Reader → Prop)
    (x x' : Read α) : Prop :=
  ∀ ⦃r r'⦄, Beside g rest r r' → Matches g rest R Q r' (x r) (x' r')

/-- Reading gives the same value among other lines and alone. -/
abbrev Local (g : Int → Int) (rest : List Token) (Q : Reader → Reader → Prop) (x : Read α) :
    Prop :=
  Mirrors g rest Eq Q x x

variable {R : α → α → Prop} {S : β → β → Prop} {Q : Reader → Reader → Prop} {x x' : Read α}

/-- Reading on from where some tokens were taken. -/
theorem Matches.after {r₀ r₁ : Reader} {ls : List Lexeme}
    {result result' : EStateM.Result Stop Reader α} (h : r₀.Takes ls r₁)
    (hmatch : Matches g rest R Q r₁ result result') : Matches g rest R Q r₀ result result' := by
  cases hmatch with
  | ok htakes ha hr => exact .ok (h.append htakes) ha hr
  | fault htakes hf hline hr => exact .fault (h.append htakes) hf hline hr
  | @numeral _ _ _ ks L htakes hL hr =>
    have htakes' := h.append htakes
    rw [← List.append_assoc] at htakes'
    exact .numeral htakes' hL hr

theorem Mirrors.bind {f f' : α → Read β} (hx : Mirrors g rest R (Beside g rest) x x')
    (hf : ∀ a a', R a a' → Mirrors g rest S Q (f a) (f' a')) :
    Mirrors g rest S Q (x >>= f) (x' >>= f') := by
  intro r r' h
  show Matches g rest S Q r' (EStateM.bind x f r) (EStateM.bind x' f' r')
  have hmatch := hx h
  unfold EStateM.bind
  generalize x r = result, x' r' = result' at hmatch ⊢
  cases hmatch with
  | ok htakes ha hr => exact .after htakes (hf _ _ ha hr)
  | fault htakes hf hline hr => exact .fault htakes hf hline hr
  | numeral htakes hL hr => exact .numeral htakes hL hr

/-- What is only computed from the value changes no place. -/
theorem Mirrors.map {f f' : α → β} (hx : Mirrors g rest R Q x x')
    (hf : ∀ a a', R a a' → S (f a) (f' a')) :
    Mirrors g rest S Q (x >>= fun a => pure (f a)) (x' >>= fun a => pure (f' a)) := by
  intro r r' h
  show Matches g rest S Q r' (EStateM.bind x _ r) (EStateM.bind x' _ r')
  have hmatch := hx h
  unfold EStateM.bind
  generalize x r = result, x' r' = result' at hmatch ⊢
  cases hmatch with
  | ok htakes ha hr => exact .ok htakes (hf _ _ ha) hr
  | fault htakes hf hline hr => exact .fault htakes hf hline hr
  | numeral htakes hL hr => exact .numeral htakes hL hr

theorem Local.bind {f : α → Read β} (hx : Local g rest (Beside g rest) x)
    (hf : ∀ a, Local g rest Q (f a)) : Local g rest Q (x >>= f) := by
  apply Mirrors.bind hx
  rintro a _ rfl
  exact hf a

theorem Local.map (hx : Local g rest Q x) (f : α → β) :
    Local g rest Q (x >>= fun a => pure (f a)) :=
  Mirrors.map hx fun _ _ => congrArg f

theorem local_pure (a : α) : Local g rest (Beside g rest) (pure a) :=
  fun _ _ h => .ok (.done _) rfl h

theorem complaint_eq (h : Beside g rest r r') (expected : List String) :
    r.complaint expected = (r'.complaint expected).renumber g ∧
      (r'.complaint expected).code.phase = .syntactic ∧
      (r'.complaint expected).line = r'.nextLine?.getD r'.lastLine := by
  obtain ⟨pending, m⟩ := r
  obtain ⟨pending', m'⟩ := r'
  obtain ⟨hamong, hline⟩ := h
  cases hamong with
  | stop _ =>
    obtain rfl : m = g m' := hline rfl
    exact ⟨rfl, rfl, rfl⟩
  | eol n => exact ⟨rfl, rfl, rfl⟩
  | @step L _ _ n hne _ =>
    have hkind := Lexeme.kind_ne_eol hne
    simp [complaint, Token.kind, hkind, Fault.renumber, Fault.code, Cause.code,
      FaultCode.unexpectedToken, nextLine?]

theorem mirrors_refuse (expected : List String) :
    Mirrors g rest R Q (refuse expected) (refuse expected) := by
  intro r r' h
  obtain ⟨heq, hphase, hline⟩ := complaint_eq h expected
  show Matches g rest R Q r' (.error (.fault (r.complaint expected)) r)
    (.error (.fault (r'.complaint expected)) r')
  rw [heq]
  exact .fault (.done r') hphase hline h

/-- A reader that takes one token within the line, or refuses it, or cannot read its numeral. -/
theorem local_token (expected : List String) (hnil : ∀ m, x ⟨[], m⟩ = refuse expected ⟨[], m⟩)
    (heol : ∀ n ts m, x ⟨⟨.eol, n⟩ :: ts, m⟩ = refuse expected ⟨⟨.eol, n⟩ :: ts, m⟩)
    (hstep : ∀ L : Lexeme,
      (∃ a, ∀ n ts m, x ⟨⟨L, n⟩ :: ts, m⟩ = .ok a ⟨ts, n⟩) ∨
        (∀ n ts m, x ⟨⟨L, n⟩ :: ts, m⟩ = refuse expected ⟨⟨L, n⟩ :: ts, m⟩) ∨
        ∃ e, L.Spoils e ∧ ∀ n ts m, x ⟨⟨L, n⟩ :: ts, m⟩ = .error (.numeral e) ⟨ts, n⟩) :
    Local g rest (Beside g rest) x := by
  rintro ⟨pending, m⟩ ⟨pending', m'⟩ h
  have hrefuse := mirrors_refuse (R := @Eq α) (Q := Beside g rest) expected h
  cases h.among with
  | stop _ => rwa [hnil, hnil]
  | eol n => rwa [heol, heol]
  | @step L ts ts' n hne hts =>
    have htakes : Takes ⟨⟨L, n⟩ :: ts', m'⟩ [L] ⟨ts', n⟩ := .step m' (.done _)
    rcases hstep L with ⟨a, hx⟩ | hx | ⟨e, he, hx⟩
    · rw [hx, hx]
      exact .ok htakes rfl (hts.beside n)
    · rwa [hx, hx]
    · have hlast : Takes ⟨⟨L, n⟩ :: ts', m'⟩ ([] ++ [L]) ⟨ts', n⟩ := htakes
      rw [hx, hx]
      exact .numeral hlast he (hts.beside n)

end Mirrors

/-! ## Readers of one token -/

theorem local_expect {kind : Token.Kind} (hkind : kind ≠ .eol) :
    Local g rest (Beside g rest) (expect kind) := by
  apply local_token [kind.name]
  · intro m
    rfl
  · intro n ts m
    simp [expect, Token.kind, Lexeme.kind, hkind.symm]
  · intro L
    by_cases hL : L.kind = kind
    · exact .inl ⟨(), by simp [expect, Token.kind, hL]⟩
    · exact .inr (.inl (by simp [expect, Token.kind, hL]))

theorem local_expectSymbol (s : String) : Local g rest (Beside g rest) (expectSymbol s) := by
  apply local_token [s]
  · intro m
    rfl
  · intro n ts m
    simp [expectSymbol]
  · intro L
    by_cases hL : L = .symbol s
    · exact .inl ⟨(), by simp [expectSymbol, hL]⟩
    · exact .inr (.inl (by simp [expectSymbol, hL]))

theorem local_identifier : Local g rest (Beside g rest) identifier := by
  apply local_token [Token.Kind.identifier.name]
  · intro m
    rfl
  · intro n ts m
    rfl
  · intro L
    cases L with
    | identifier name => exact .inl ⟨name, fun _ _ _ => rfl⟩
    | blank k =>
      cases k with
      | identifier => exact .inl ⟨namelessName, fun _ _ _ => rfl⟩
      | _ => exact .inr (.inl fun _ _ _ => rfl)
    | _ => exact .inr (.inl fun _ _ _ => rfl)

theorem local_label : Local g rest (Beside g rest) label := by
  apply local_token [Token.Kind.label.name]
  · intro m
    rfl
  · intro n ts m
    rfl
  · intro L
    cases L with
    | label name => exact .inl ⟨some name, fun _ _ _ => rfl⟩
    | blank k =>
      cases k with
      | label => exact .inl ⟨none, fun _ _ _ => rfl⟩
      | _ => exact .inr (.inl fun _ _ _ => rfl)
    | _ => exact .inr (.inl fun _ _ _ => rfl)

theorem local_operand : Local g rest (Beside g rest) operand := by
  apply local_token [Token.Kind.identifier.name, Token.Kind.integerLiteral.name]
  · intro m
    rfl
  · intro n ts m
    rfl
  · intro L
    cases L with
    | identifier name => exact .inl ⟨.var name, fun _ _ _ => rfl⟩
    | integerLiteral digits =>
      cases hvalue : Text.readInt digits with
      | ok value => exact .inl ⟨.lit value, by simp [operand, hvalue]⟩
      | error e => exact .inr (.inr ⟨e, .digits hvalue, by simp [operand, hvalue]⟩)
    | blank k =>
      cases k with
      | identifier => exact .inl ⟨.var namelessName, fun _ _ _ => rfl⟩
      | integerLiteral => exact .inr (.inr ⟨.noText, .blank, fun _ _ _ => rfl⟩)
      | _ => exact .inr (.inl fun _ _ _ => rfl)
    | _ => exact .inr (.inl fun _ _ _ => rfl)

theorem local_operator? {ω : Type} (category : String) (ofSymbol? : String → Option ω) :
    Local g rest (Beside g rest) (operator? category ofSymbol?) := by
  rintro ⟨pending, m⟩ ⟨pending', m'⟩ h
  have hfault : ∀ {L : Lexeme} {n : Int} {ts ts' : List Token} (symbol : Option String),
      Beside g rest ⟨⟨L, g n⟩ :: ts, m⟩ ⟨⟨L, n⟩ :: ts', m'⟩ →
      Matches g rest (@Eq (Option ω)) (Beside g rest) ⟨⟨L, n⟩ :: ts', m'⟩
        (.error (.fault ⟨.invalidOperator symbol category, g n⟩) ⟨⟨L, g n⟩ :: ts, m⟩)
        (.error (.fault ⟨.invalidOperator symbol category, n⟩) ⟨⟨L, n⟩ :: ts', m'⟩) := by
    intro L n ts ts' symbol h
    exact Matches.fault (f := ⟨.invalidOperator symbol category, n⟩) (.done _) rfl rfl h
  cases h.among with
  | stop _ => exact local_pure none h
  | eol n => exact local_pure none h
  | @step L ts ts' n hne hts =>
    cases L with
    | symbol s =>
      cases hop : ofSymbol? s with
      | some op =>
        simp only [operator?, hop]
        exact .ok (.step m' (.done _)) rfl (hts.beside n)
      | none =>
        simp only [operator?, hop]
        exact hfault (some s) h
    | blank k =>
      cases k with
      | symbol => exact hfault none h
      | _ => exact local_pure none h
    | _ => exact local_pure none h

/-- The end of the line is the last thing that is read of it. -/
theorem local_expect_eol : Local g rest (Past rest) (expect .eol) := by
  rintro ⟨pending, m⟩ ⟨pending', m'⟩ h
  have hrefuse := mirrors_refuse (R := @Eq Unit) (Q := Past rest) [Token.Kind.eol.name] h
  cases h.among with
  | stop _ => exact hrefuse
  | eol n => exact .ok (.step m' (.done _)) rfl ⟨rfl, rfl⟩
  | @step L ts ts' n hne hts =>
    simpa [expect, Token.kind, Lexeme.kind_ne_eol hne] using hrefuse

/-! ## Readers of an instruction -/

theorem local_jumpTail : Local g rest (Past rest) jumpTail := by
  refine (local_expect (by decide)).bind fun _ => ?_
  refine local_label.bind fun target => ?_
  exact local_expect_eol.map fun _ => target

theorem local_branchBody : Local g rest (Past rest) branchBody := by
  refine local_operand.bind fun left => ?_
  refine (local_operator? _ _).bind fun op => ?_
  cases op with
  | some op =>
    refine local_operand.bind fun right => ?_
    exact local_jumpTail.map _
  | none =>
    cases left with
    | var name => exact local_jumpTail.map _
    | lit value => exact mirrors_refuse _

theorem local_branchUnlessBody : Local g rest (Past rest) branchUnlessBody := by
  refine local_identifier.bind fun name => ?_
  exact local_jumpTail.map _

theorem local_operand_eol {α : Type} (f : Operand → α) :
    Local g rest (Past rest) (do let o ← operand; expect .eol; return f o) := by
  refine local_operand.bind fun o => ?_
  exact local_expect_eol.map fun _ => f o

/-- What follows an operator or its absence. -/
theorem local_operator?_bind {ω α : Type} {category : String} {ofSymbol? : String → Option ω}
    {k : Option ω → Read α} (hsome : ∀ op, Local g rest (Past rest) (k (some op)))
    (hnone : Local g rest (Past rest) (k none)) :
    Local g rest (Past rest) (operator? category ofSymbol? >>= k) := by
  refine (local_operator? category ofSymbol?).bind fun op => ?_
  cases op with
  | some op => exact hsome op
  | none => exact hnone

theorem local_assignmentBody (dest : String) :
    Local g rest (Past rest) (assignmentBody dest) := by
  refine (local_expectSymbol "=").bind fun _ => ?_
  apply local_operator?_bind
  · intro op
    exact local_operand_eol _
  · refine local_operand.bind fun left => ?_
    -- Both readers look at what comes next, and see the same.
    rintro ⟨pending, m⟩ ⟨pending', m'⟩ h
    rw [get_bind, get_bind]
    cases h.among with
    | stop _ =>
      exact local_operator?_bind (fun op => local_operand_eol _) (mirrors_refuse _) h
    | eol n => exact local_expect_eol.map (fun _ => Instr.Body.copy dest left) h
    | @step L ts ts' n hne hts =>
      cases L with
      | eol => exact absurd rfl hne
      | _ => exact local_operator?_bind (fun op => local_operand_eol _) (mirrors_refuse _) h

/-- The same body, on lines that correspond. -/
def SameBody (g : Int → Int) (b b' : Int × Instr.Body) : Prop := b = (g b'.1, b'.2)

theorem Local.body {x : Read Instr.Body} (hx : Local g rest (Past rest) x) (n : Int) :
    Mirrors g rest (SameBody g) (Past rest) (x >>= fun b => pure (g n, b))
      (x >>= fun b => pure (n, b)) := by
  apply Mirrors.map hx
  rintro b _ rfl
  rfl

theorem mirrors_bodyPart (starts : List String) :
    Mirrors g rest (SameBody g) (Past rest) (bodyPart starts) (bodyPart starts) := by
  rintro ⟨pending, m⟩ ⟨pending', m'⟩ h
  have hrefuse := mirrors_refuse (R := SameBody g) (Q := Past rest) starts h
  cases h.among with
  | stop _ => exact hrefuse
  | eol n => exact hrefuse
  | @step L ts ts' n hne hts =>
    have hnext := hts.beside n
    have htakes : Takes ⟨⟨L, n⟩ :: ts', m'⟩ [L] ⟨ts', n⟩ := .step m' (.done _)
    cases L with
    | goto =>
      refine .after htakes (Mirrors.bind local_label ?_ hnext)
      rintro target _ rfl
      exact Mirrors.map local_expect_eol fun _ _ _ => rfl
    | ifTrue => exact .after htakes (local_branchBody.body n hnext)
    | ifFalse => exact .after htakes (local_branchUnlessBody.body n hnext)
    | identifier dest => exact .after htakes ((local_assignmentBody dest).body n hnext)
    | blank k =>
      cases k with
      | identifier => exact .after htakes ((local_assignmentBody namelessName).body n hnext)
      | _ => exact hrefuse
    | _ => exact hrefuse

theorem local_labelPart : Local g rest (Beside g rest) labelPart := by
  rintro ⟨pending, m⟩ ⟨pending', m'⟩ h
  have hcolon : ∀ {L : Lexeme} {n : Int} {ts ts' : List Token} (label : Option String),
      Among g rest ts ts' →
      Matches g rest (@Eq (Option String)) (Beside g rest) ⟨⟨L, n⟩ :: ts', m'⟩
        ((do expectSymbol ":"; return label : Read _) ⟨ts, g n⟩)
        ((do expectSymbol ":"; return label : Read _) ⟨ts', n⟩) := by
    intro L n ts ts' label hts
    have hmatch := (local_expectSymbol ":").map (fun _ => label) (hts.beside n)
    exact hmatch.after (.step m' (.done _))
  cases h.among with
  | stop _ => exact local_pure none h
  | eol n => exact local_pure none h
  | @step L ts ts' n hne hts =>
    cases L with
    | label name => exact hcolon (some name) hts
    | blank k =>
      cases k with
      | label => exact hcolon none hts
      | _ => exact local_pure none h
    | _ => exact local_pure none h

/-- An instruction is read from its line, whatever follows the line. -/
theorem mirrors_instruction :
    Mirrors g rest (fun i i' => i = i'.renumber g) (Past rest) instruction instruction := by
  apply Mirrors.bind local_labelPart
  rintro label _ rfl
  apply (mirrors_bodyPart _).map
  rintro _ ⟨n, b⟩ rfl
  rfl

/-- What is left of a line after a fault ends where the line ends. -/
theorem Beside.skipLine (h : Beside g rest r r') : r.skipLine.pending = rest := by
  have hgo : ∀ {ts ts' : List Token} (m : Int), Among g rest ts ts' →
      (Reader.skipLine.go ts m).pending = rest := by
    intro ts ts' m hts
    induction hts generalizing m with
    | stop hrest => exact hrest.symm
    | eol n => rfl
    | @step L ts ts' n hne hts ih =>
      simpa [Reader.skipLine.go, Token.kind, Lexeme.kind_ne_eol hne] using ih (g n)
  exact hgo r.lastLine h.among

end Reader

end FlowTrace
