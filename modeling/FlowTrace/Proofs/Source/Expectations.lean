import FlowTrace.Proofs.Source.ViablePrefix

/-!
# What could have followed

A fault lists what was expected in place of its token.  Compared with the tokens that can follow the
longest prefix of a derivable line, the list is complete, with one exception: where an operator may
stand but need not, the reader has passed it by when it complains, and no operator is listed.
-/

namespace FlowTrace

open Token (Lexeme)

/-! ## Where an operator may be left out -/

namespace Instr

/-- The condition or the source of an instruction comes next, which may lack an operator. -/
inductive OperatorOpen : List Lexeme → Prop
  | condition (label : Option String) (name : String) :
    OperatorOpen (labelTokens label ++ [.ifTrue, .identifier name])
  | source (label : Option String) (dest : String) :
    OperatorOpen (labelTokens label ++ [.identifier dest, .symbol "="])

end Instr

namespace Place

variable {A : Place} {ls : List Lexeme} {start rest : List Token.Class}

/-- The forms that are left are the ends of those whose starts the tokens went through. -/
theorem mem_afterAll_iff : rest ∈ A.afterAll ls ↔
    ∃ start, List.Forall₂ (fun C L => Token.Class.accepts C L = true) start ls ∧
      start ++ rest ∈ A := by
  induction ls generalizing A with
  | nil => simp
  | cons L ls ih =>
    simp only [afterAll_cons, ih, mem_after_iff, List.forall₂_cons_right_iff]
    constructor
    · rintro ⟨start, hstart, C, hC, hmem⟩
      exact ⟨C :: start, ⟨C, start, hC, hstart, rfl⟩, hmem⟩
    · rintro ⟨_, ⟨C, start, hC, hstart, rfl⟩, hmem⟩
      exact ⟨start, hstart, C, hC, hmem⟩

theorem not_accepts_of_after_eq_nil {C : Token.Class} {L : Lexeme} (h : A.after L = [])
    (hmem : C :: rest ∈ A) : ¬C.accepts L = true := by
  intro hC
  have hrest := mem_after_iff.mpr ⟨C, hC, hmem⟩
  rw [h] at hrest
  cases hrest

theorem start_of_relation (h : start ++ .relation :: rest ∈ lines) :
    start = [.exactly .ifTrue, .operand] ∨
      start = [.label, .exactly (.symbol ":"), .exactly .ifTrue, .operand] := by
  simp [lines, labelled, bodies, conditions, sources, List.append_eq_cons_iff,
    List.cons_eq_append_iff] at h
  tauto

theorem start_of_unary (h : start ++ .unary :: rest ∈ lines) :
    start = [.identifier, .exactly (.symbol "=")] ∨
      start = [.label, .exactly (.symbol ":"), .identifier, .exactly (.symbol "=")] := by
  simp [lines, labelled, bodies, conditions, sources, List.append_eq_cons_iff,
    List.cons_eq_append_iff] at h
  tauto

theorem afterAll_condition (label : Option String) (name : String) :
    lines.afterAll (Instr.labelTokens label ++ [.ifTrue, .identifier name]) = comparisons := by
  cases label <;> rfl

theorem afterAll_source (label : Option String) (dest : String) :
    lines.afterAll (Instr.labelTokens label ++ [.identifier dest, .symbol "="]) = sources := by
  cases label <;> rfl

/-- A number starts no condition without a comparison. -/
theorem afterAll_condition_literal (label : Option String) (digits : String) :
    jump ∉ lines.afterAll (Instr.labelTokens label ++ [.ifTrue, .integerLiteral digits]) := by
  have hafter : lines.afterAll (Instr.labelTokens label ++ [.ifTrue]) = conditions := by
    cases label <;> rfl
  rw [List.append_cons, afterAll_append, hafter]
  simp [afterAll_cons, mem_after_iff, conditions]

end Place

namespace Instr

variable {ls : List Lexeme}

/-- An operator may be left out exactly behind `"if" identifier` and `identifier "="`. -/
theorem operatorOptional_iff : (Place.lines.afterAll ls).OperatorOptional ↔ OperatorOpen ls := by
  constructor
  · rintro (hplace | hplace)
    · have hrelation : .relation :: .operand :: Place.jump ∈ Place.lines.afterAll ls := by
        simp [hplace, Place.comparisons]
      have hjump : Place.jump ∈ Place.lines.afterAll ls := by simp [hplace, Place.comparisons]
      obtain ⟨label, L, hL, rfl⟩ : ∃ label L, Token.Class.operand.accepts L = true ∧
          ls = labelTokens label ++ [.ifTrue, L] := by
        obtain ⟨start, hstart, hmem⟩ := Place.mem_afterAll_iff.mp hrelation
        rcases Place.start_of_relation hmem with rfl | rfl
        · obtain ⟨L, hL, rfl⟩ : ∃ L, Token.Class.operand.accepts L = true ∧ ls = [.ifTrue, L] := by
            simpa [List.forall₂_cons_left_iff] using hstart
          exact ⟨none, L, hL, rfl⟩
        · obtain ⟨name, L, hL, rfl⟩ : ∃ name L, Token.Class.operand.accepts L = true ∧
              ls = [.label name, .symbol ":", .ifTrue, L] := by
            simpa [List.forall₂_cons_left_iff] using hstart
          exact ⟨some name, L, hL, rfl⟩
      cases L with
      | identifier name => exact .condition label name
      | integerLiteral digits =>
        exact absurd hjump (Place.afterAll_condition_literal label digits)
      | _ => cases hL
    · have hunary : [.unary, .operand, .exactly .eol] ∈ Place.lines.afterAll ls := by
        simp [hplace, Place.sources]
      obtain ⟨start, hstart, hmem⟩ := Place.mem_afterAll_iff.mp hunary
      rcases Place.start_of_unary hmem with rfl | rfl
      · obtain ⟨dest, rfl⟩ : ∃ dest, ls = [.identifier dest, .symbol "="] := by
          simpa [List.forall₂_cons_left_iff] using hstart
        exact .source none dest
      · obtain ⟨name, dest, rfl⟩ : ∃ name dest,
            ls = [.label name, .symbol ":", .identifier dest, .symbol "="] := by
          simpa [List.forall₂_cons_left_iff] using hstart
        exact .source (some name) dest
  · rintro (⟨label, name⟩ | ⟨label, dest⟩)
    · exact .inl (Place.afterAll_condition label name)
    · exact .inr (Place.afterAll_source label dest)

end Instr

/-! ## What is listed there -/

theorem Token.Kind.ofName?_name (k : Kind) : ofName? k.name = some k := by
  cases k <;> rfl

/-- The name of a kind is no symbol. -/
theorem Token.Lexeme.fits_name_iff {L : Lexeme} {k : Kind} : L.Fits k.name ↔ L.kind = k := by
  constructor
  · rintro (hname | ⟨hnone, -⟩)
    · have hkinds := congrArg Kind.ofName? hname
      rw [Kind.ofName?_name, Kind.ofName?_name] at hkinds
      exact Option.some.inj hkinds
    · rw [Kind.ofName?_name] at hnone
      cases hnone
  · rintro rfl
    exact .inl rfl

namespace Reader

variable {α ω : Type} {t : Token} {r : Reader} {n m : Int} {us rest : List Token}
  {names expected : List String}

theorem lists_complaint_iff : (r.complaint names).cause.Lists expected ↔ expected = names := by
  rcases r with ⟨_ | ⟨t, ts⟩, m⟩
  · simp [complaint, Cause.Lists, eq_comm]
  · by_cases ht : t.kind = .eol <;> simp [complaint, Cause.Lists, ht, eq_comm]

/-- There is a fault, and all that it can list is the given names. -/
def ListsOnly (names : List String) : EStateM.Result Stop Reader α → Prop
  | .error (.fault f) _ => ∀ expected, f.cause.Lists expected → expected = names
  | _ => False

theorem listsOnly_refuse : ListsOnly names (refuse names r : EStateM.Result Stop Reader α) :=
  fun _ => lists_complaint_iff.mp

theorem ListsOnly.bind {β : Type} {x : Read α} {f : α → Read β} (h : ListsOnly names (x r)) :
    ListsOnly names ((x >>= f) r) := by
  show ListsOnly names (EStateM.bind x f r)
  unfold EStateM.bind
  generalize x r = result at h ⊢
  rcases result with _ | ⟨_ | _, _⟩
  · exact h.elim
  · exact h
  · exact h.elim

/-- Of a token that is no operator it is not said that there could have been one. -/
theorem listsOnly_operator?_bind {category : String} {ofSymbol? : String → Option ω}
    {k : Option ω → Read α} (hop : ∀ s, t.lexeme = .symbol s → ofSymbol? s = none)
    (hk : ListsOnly names (k none ⟨t :: rest, m⟩)) :
    ListsOnly names ((operator? category ofSymbol? >>= k) ⟨t :: rest, m⟩) := by
  obtain ⟨L, line⟩ := t
  have hsymbol : ∀ symbol, ListsOnly names (.error (.fault ⟨.invalidOperator symbol category, line⟩)
      ⟨⟨L, line⟩ :: rest, m⟩ : EStateM.Result Stop Reader (Option ω)) := by
    rintro symbol _ (hcause | ⟨_, hcause⟩) <;> cases hcause
  cases L with
  | symbol s =>
    refine ListsOnly.bind ?_
    simp only [operator?, hop s rfl]
    exact hsymbol (some s)
  | blank kind =>
    cases kind with
    | symbol =>
      refine ListsOnly.bind ?_
      exact hsymbol none
    | _ => exact hk
  | _ => exact hk

/-- Behind `"if" identifier` a fault expects a jump. -/
theorem listsOnly_branchBody {name : String} (ht : t.lexeme.Readable)
    (hafter : Place.comparisons.after t.lexeme = []) :
    ListsOnly [Token.Kind.goto.name] (branchBody ⟨⟨.identifier name, n⟩ :: t :: rest, m⟩) := by
  obtain ⟨L, line⟩ := t
  refine listsOnly_operator?_bind (m := n) ?_ ?_
  · rintro s rfl
    exact Option.not_isSome_iff_eq_none.mp (Place.not_accepts_of_after_eq_nil hafter (.head _))
  · have hgoto := Place.not_accepts_of_after_eq_nil hafter (.tail _ (.head _))
    refine ListsOnly.bind (ListsOnly.bind ?_)
    rw [recognizes_goto.refuses ht hgoto]
    exact listsOnly_refuse

/-- Behind `identifier "="` a fault expects an operand. -/
theorem listsOnly_assignmentBody {dest : String} (ht : t.lexeme.Readable)
    (hafter : Place.sources.after t.lexeme = []) :
    ListsOnly [Token.Kind.identifier.name, Token.Kind.integerLiteral.name]
      (assignmentBody dest ⟨⟨.symbol "=", n⟩ :: t :: rest, m⟩) := by
  obtain ⟨L, line⟩ := t
  refine listsOnly_operator?_bind (m := n) ?_ ?_
  · rintro s rfl
    exact Option.not_isSome_iff_eq_none.mp (Place.not_accepts_of_after_eq_nil hafter (.head _))
  · have hoperand := Place.not_accepts_of_after_eq_nil hafter (.tail _ (.head _))
    refine ListsOnly.bind ?_
    rw [recognizes_operand.refuses ht hoperand]
    exact listsOnly_refuse

/-- What a body lists, its instruction lists. -/
theorem listsOnly_instruction {label : Option String} {r₁ r' : Reader} {L : Lexeme}
    {ls : List Lexeme} (hlabel : r.Takes (Instr.labelTokens label) r₁)
    (hbody : r₁.Takes (L :: ls) r') (hL : L.kind ≠ .label)
    (h : ∀ starts, ListsOnly names (bodyPart starts r₁)) : ListsOnly names (instruction r) := by
  show ListsOnly names (EStateM.bind labelPart _ r)
  unfold EStateM.bind
  rw [labelPart_of_takes hlabel hbody hL]
  exact (h _).bind

theorem exists_takes_append (us ts : List Token) (m : Int) :
    ∃ n, Takes ⟨us ++ ts, m⟩ (us.map (·.lexeme)) ⟨ts, n⟩ := by
  induction us generalizing m with
  | nil => exact ⟨m, .done _⟩
  | cons u us ih =>
    obtain ⟨n, hn⟩ := ih u.line
    exact ⟨n, .step m hn⟩

/-- Where an operator may be left out, no symbol is listed. -/
theorem exists_listsOnly (hus : Instr.OperatorOpen (us.map (·.lexeme))) (ht : t.lexeme.Readable)
    (hafter : (Place.lines.afterAll (us.map (·.lexeme))).after t.lexeme = []) :
    ∃ names, ListsOnly names (instruction ⟨us ++ t :: rest, m⟩) ∧
      ∀ L : Lexeme, L.kind = .symbol → ∀ name ∈ names, ¬L.Fits name := by
  obtain ⟨n, htakes⟩ := exists_takes_append us (t :: rest) m
  generalize us.map (·.lexeme) = ls at hus hafter htakes
  cases hus with
  | condition label name =>
    rw [Place.afterAll_condition] at hafter
    obtain ⟨r₁, hlabel, hbody⟩ := htakes.split
    refine ⟨[Token.Kind.goto.name], ?_, ?_⟩
    · refine listsOnly_instruction hlabel hbody (by simp [Lexeme.kind]) fun starts => ?_
      rcases hbody with _ | ⟨_, _ | ⟨_, ⟨⟩⟩⟩
      exact (listsOnly_branchBody ht hafter).bind
    · simp +contextual [Lexeme.fits_name_iff]
  | source label dest =>
    rw [Place.afterAll_source] at hafter
    obtain ⟨r₁, hlabel, hbody⟩ := htakes.split
    refine ⟨[Token.Kind.identifier.name, Token.Kind.integerLiteral.name], ?_, ?_⟩
    · refine listsOnly_instruction hlabel hbody (by simp [Lexeme.kind]) fun starts => ?_
      rcases hbody with _ | ⟨_, _ | ⟨_, ⟨⟩⟩⟩
      exact (listsOnly_assignmentBody ht hafter).bind
    · simp +contextual [Lexeme.fits_name_iff]

end Reader

theorem Token.IsLine.readable_of_mem {ts : List Token} {t : Token} (h : IsLine ts) (ht : t ∈ ts) :
    t.lexeme.Readable := by
  induction h with
  | eol n =>
    obtain rfl := List.mem_singleton.mp ht
    trivial
  | step n hL _ _ ih =>
    rcases List.mem_cons.mp ht with rfl | ht
    · exact hL
    · exact ih ht

/-! ## Complete lists -/

namespace Instr

variable {ls : List Lexeme}

theorem viable_concat_iff {L : Lexeme} :
    Viable (ls ++ [L]) ↔ (Place.lines.afterAll ls).after L ≠ [] := by
  rw [viable_iff, Place.afterAll_append]
  rfl

theorem OperatorOpen.exists_viable_symbol (h : OperatorOpen ls) :
    ∃ s, Viable (ls ++ [.symbol s]) := by
  simp only [viable_concat_iff]
  cases h with
  | condition label name =>
    rw [Place.afterAll_condition]
    exact ⟨"==", by decide⟩
  | source label dest =>
    rw [Place.afterAll_source]
    exact ⟨"-", by decide⟩

/-- The fault of a line lists what reading its instruction lists. -/
theorem eq_of_listsOnly {seg : List Token} {f : Fault} {names expected : List String}
    (hseg : Token.IsLine seg) (hf : ofTokens seg = .error (.rejected ⟨[f]⟩))
    (h : Reader.ListsOnly names (Reader.instruction ⟨seg, 0⟩)) (hlists : f.cause.Lists expected) :
    expected = names := by
  have hne : seg ≠ [] := by
    rintro rfl
    cases hseg
  rcases instruction_amid hseg.amid hne 0 with ⟨i, r, hi, -⟩ | ⟨f', r, -, hf', hfault, -⟩
  · rw [hf] at hi
    cases hi
  · rw [hf] at hf'
    cases hf'
    rw [hfault] at h
    exact h expected hlists

/-- **What could have followed.**  Take a line that the grammar does not derive, and its longest
prefix of a derivable line.  If the fault of the line lists what was expected, then all tokens that
can follow the prefix are listed by their kinds, or symbols as such, except behind `"if" identifier`
and `identifier "="`.  There an operator can follow, but just the tokens that are no operators are
listed. -/
theorem expected_complete_iff {seg : List Token} (hseg : Token.IsLine seg)
    (hbad : ¬Derivable (seg.map (·.lexeme))) :
    ∃ us t rest f, seg = us ++ t :: rest ∧
      (∀ vs, vs <+: seg → (Viable (vs.map (·.lexeme)) ↔ vs <+: us)) ∧
      ofTokens seg = .error (.rejected ⟨[f]⟩) ∧
      ∀ expected, f.cause.Lists expected →
        ((∀ L, Viable (us.map (·.lexeme) ++ [L]) → ∃ name ∈ expected, L.Fits name) ↔
          ¬OperatorOpen (us.map (·.lexeme))) ∧
        (OperatorOpen (us.map (·.lexeme)) → ∀ L, Viable (us.map (·.lexeme) ++ [L]) →
          ((∃ name ∈ expected, L.Fits name) ↔ L.kind ≠ .symbol)) := by
  obtain ⟨us, t, rest, f, rfl, hf, hblames⟩ := exists_blames hseg hbad
  have hus : Viable (us.map (·.lexeme)) := viable_iff.mpr hblames.ne_nil
  have ht : ¬Viable ((us ++ [t]).map (·.lexeme)) := by
    rw [List.map_append, List.map_singleton, viable_concat_iff]
    exact not_not.mpr hblames.after_eq_nil
  refine ⟨us, t, rest, f, rfl, fun vs => viable_iff_isPrefix hus ht, hf, fun expected hlists => ?_⟩
  have hnames : ∀ L, Viable (us.map (·.lexeme) ++ [L]) → (∃ name ∈ expected, L.Fits name) ∨
      L.kind = .symbol ∧ OperatorOpen (us.map (·.lexeme)) := by
    intro L hL
    rw [← operatorOptional_iff]
    exact hblames.names expected hlists L (viable_concat_iff.mp hL)
  have hsymbol : OperatorOpen (us.map (·.lexeme)) →
      ∀ L : Lexeme, L.kind = .symbol → ¬∃ name ∈ expected, L.Fits name := by
    rintro hopen L hkind ⟨name, hname, hfits⟩
    have hreadable := hseg.readable_of_mem (t := t) (by simp)
    obtain ⟨names, hlistsOnly, hsymbol⟩ :=
      Reader.exists_listsOnly hopen hreadable hblames.after_eq_nil
    obtain rfl := eq_of_listsOnly hseg hf hlistsOnly hlists
    exact hsymbol L hkind name hname hfits
  refine ⟨⟨fun hcomplete hopen => ?_, fun hclosed L hL => ?_⟩, fun hopen L hL => ⟨?_, ?_⟩⟩
  · obtain ⟨s, hs⟩ := hopen.exists_viable_symbol
    exact hsymbol hopen _ rfl (hcomplete _ hs)
  · exact (hnames L hL).resolve_right fun h => hclosed h.2
  · intro hnamed hkind
    exact hsymbol hopen L hkind hnamed
  · intro hkind
    exact (hnames L hL).resolve_right fun h => hkind h.1

/-- A branch that lacks either the relation or the jump. -/
def bareBranch : List Token :=
  [⟨.ifTrue, 1⟩, ⟨.identifier "x", 1⟩, ⟨.identifier "y", 1⟩, ⟨.goto, 1⟩, ⟨.label "L", 1⟩, ⟨.eol, 1⟩]

theorem bareBranch_isLine : Token.IsLine bareBranch := by
  refine .step 1 ?_ ?_ (.step 1 ?_ ?_ (.step 1 ?_ ?_ (.step 1 ?_ ?_ (.step 1 ?_ ?_ (.eol 1))))) <;>
    decide +kernel

theorem not_derivable_bareBranch : ¬Derivable (bareBranch.map (·.lexeme)) := by
  intro h
  have hviable : Viable (bareBranch.map (·.lexeme)) := ⟨[], by rwa [List.append_nil]⟩
  exact viable_iff.mp hviable (by decide +kernel)

theorem ofTokens_bareBranch :
    ofTokens bareBranch = .error (.rejected ⟨[⟨.unexpectedToken "identifier" ["goto"], 1⟩]⟩) := by
  decide +kernel

/-- The list of its fault is judged by what can follow the longest prefix of a derivable line. -/
theorem expected_in_bareBranch :
    Token.IsLine bareBranch ∧ ¬Derivable (bareBranch.map (·.lexeme)) ∧
      ∃ us t rest, bareBranch = us ++ t :: rest ∧
        (∀ vs, vs <+: bareBranch → (Viable (vs.map (·.lexeme)) ↔ vs <+: us)) ∧
        ((∀ L, Viable (us.map (·.lexeme) ++ [L]) → ∃ name ∈ ["goto"], L.Fits name) ↔
          ¬OperatorOpen (us.map (·.lexeme))) := by
  refine ⟨bareBranch_isLine, not_derivable_bareBranch, ?_⟩
  obtain ⟨us, t, rest, f, hseg, hviable, hf, hexpected⟩ :=
    expected_complete_iff bareBranch_isLine not_derivable_bareBranch
  rw [ofTokens_bareBranch] at hf
  cases hf
  exact ⟨us, t, rest, hseg, hviable, (hexpected _ (.inr ⟨_, rfl⟩)).1⟩

/-- A relation can follow `if x`, but it is not expected in the place of `y`. -/
theorem relation_not_expected_in_bareBranch :
    Token.IsLine bareBranch ∧ ¬Derivable (bareBranch.map (·.lexeme)) ∧
      ofTokens bareBranch = .error (.rejected ⟨[⟨.unexpectedToken "identifier" ["goto"], 1⟩]⟩) ∧
      ¬Viable [.ifTrue, .identifier "x", .identifier "y"] ∧
      Viable ([.ifTrue, .identifier "x"] ++ [.symbol "=="]) ∧
      ¬∃ name ∈ ["goto"], (Lexeme.symbol "==").Fits name := by
  refine ⟨bareBranch_isLine, not_derivable_bareBranch, ofTokens_bareBranch, ?_, ?_, by decide⟩
  · rw [viable_iff]
    decide
  · rw [viable_iff]
    decide

end Instr

end FlowTrace
