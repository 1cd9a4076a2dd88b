import FlowTrace.Proofs.Source.Forms
import FlowTrace.Proofs.Source.Segments

/-!
# The first impossible token

The reader of instructions is followed from place to place along the forms of a line.  A fault is
that of the first token that leads to no place, and whatever is expected instead of it leads to one.
-/

namespace FlowTrace

open Token (Lexeme)

/-! ## Following the reader -/

/-- A whole line: tokens that can be read, and then its end. -/
inductive Token.IsLine : List Token → Prop
  | eol (n : Int) : IsLine [⟨.eol, n⟩]
  | step {L : Lexeme} {ts : List Token} (n : Int) (hL : L.Readable) (hne : L ≠ .eol)
    (h : IsLine ts) : IsLine (⟨L, n⟩ :: ts)

theorem Token.IsLine.readable {L : Lexeme} {n : Int} {ts : List Token}
    (h : IsLine (⟨L, n⟩ :: ts)) : L.Readable := by
  cases h with
  | eol => trivial
  | step _ hL _ _ => exact hL

theorem Token.IsLine.tail {L : Lexeme} {n : Int} {ts : List Token} (h : IsLine (⟨L, n⟩ :: ts))
    (hne : L ≠ .eol) : IsLine ts := by
  cases h with
  | eol => exact absurd rfl hne
  | step _ _ _ hts => exact hts

/-- The token is of the kind with this name, or it is the symbol with this name. -/
def Token.Lexeme.Fits (L : Lexeme) (name : String) : Prop :=
  L.kind.name = name ∨ Kind.ofName? name = none ∧ L = .symbol name

instance (L : Lexeme) (name : String) : Decidable (L.Fits name) :=
  inferInstanceAs (Decidable (_ ∨ _))

/-- The fault lists what would have been accepted. -/
def Cause.Lists (cause : Cause) (expected : List String) : Prop :=
  cause = .unexpectedEnd expected ∨ ∃ got, cause = .unexpectedToken got expected

/-- The kinds of the tokens of a class. -/
def Token.Class.kinds : Token.Class → List Token.Kind
  | exactly L => [L.kind]
  | label => [.label]
  | identifier => [.identifier]
  | operand => [.identifier, .integerLiteral]
  | relation | unary | binary => [.symbol]

theorem Token.Class.kind_mem_kinds {C : Class} {L : Lexeme} (h : C.accepts L = true) :
    L.kind ∈ C.kinds := by
  cases C with
  | exactly K =>
    obtain rfl := accepts_exactly_iff.mp h
    exact List.mem_singleton_self _
  | operand =>
    obtain ⟨o, ho⟩ := accepts_operand_iff.mp h
    cases ho <;> simp [kinds, Lexeme.kind]
  | _ => cases L <;> first | exact .head _ | cases h

namespace Place

/-- What is expected is something, and each of it leads to a place. -/
def Allows (A : Place) (expected : List String) : Prop :=
  expected ≠ [] ∧ ∀ name ∈ expected, ∃ L : Lexeme, L.Fits name ∧ A.after L ≠ []

/-- What can be said against a token that leads to no place. -/
def Explains (A : Place) (L : Lexeme) : Cause → Prop
  | .unexpectedEnd expected => L = .eol ∧ A.Allows expected
  | .unexpectedToken got expected => L ≠ .eol ∧ got = L.kind.name ∧ A.Allows expected
  | .invalidOperator symbol _ => ∃ s, L = .symbol s ∧ symbol = some s
  | _ => False

/-- What follows `"if" identifier`. -/
def comparisons : Place := [.relation :: .operand :: jump, jump]

/-- An operator may stand here, but need not. -/
def OperatorOptional (A : Place) : Prop := A = comparisons ∨ A = sources

/-- Each token that leads to a place is expected, optional operators apart. -/
def Names (A : Place) (expected : List String) : Prop :=
  ∀ L : Lexeme, A.after L ≠ [] →
    (∃ name ∈ expected, L.Fits name) ∨ L.kind = .symbol ∧ A.OperatorOptional

/-- The fault is that of a token that leads to no place. -/
structure Blames (A : Place) (t : Token) (f : Fault) : Prop where
  ne_nil : A ≠ []
  after_eq_nil : A.after t.lexeme = []
  line_eq : f.line = t.line
  explains : A.Explains t.lexeme f.cause
  names : ∀ expected, f.cause.Lists expected → A.Names expected

/-- One token of each sort. -/
def samples : List Lexeme :=
  [.identifier "x", .integerLiteral "0", .symbol ":", .symbol "=", .symbol "==", .label "L",
    .ifTrue, .ifFalse, .goto, .eol]

variable {A A' : Place} {L : Lexeme} {expected : List String}

theorem Allows.of_samples (h : expected ≠ [] ∧ ∀ name ∈ expected, ∃ L ∈ samples,
    L.Fits name ∧ A.after L ≠ []) : A.Allows expected := by
  refine ⟨h.1, fun name hname => ?_⟩
  obtain ⟨L, -, hL⟩ := h.2 name hname
  exact ⟨L, hL⟩

theorem Allows.ne_nil (h : A.Allows expected) : A ≠ [] := by
  rintro rfl
  obtain ⟨name, hname⟩ := List.exists_mem_of_ne_nil _ h.1
  obtain ⟨L, -, hne⟩ := h.2 name hname
  exact hne rfl

theorem after_ne_nil_of_subset (hsubset : A ⊆ A') (h : A.after L ≠ []) : A'.after L ≠ [] := by
  obtain ⟨form, hform⟩ := List.exists_mem_of_ne_nil _ h
  obtain ⟨C, hC, hmem⟩ := mem_after_iff.mp hform
  exact List.ne_nil_of_mem (mem_after_iff.mpr ⟨C, hC, hsubset hmem⟩)

theorem Allows.mono (h : A.Allows expected) (hsubset : A ⊆ A') : A'.Allows expected := by
  refine ⟨h.1, fun name hname => ?_⟩
  obtain ⟨L, hfits, hne⟩ := h.2 name hname
  exact ⟨L, hfits, after_ne_nil_of_subset hsubset hne⟩

theorem Explains.mono {cause : Cause} (h : A.Explains L cause) (hsubset : A ⊆ A') :
    A'.Explains L cause := by
  cases cause with
  | unexpectedEnd expected => exact ⟨h.1, h.2.mono hsubset⟩
  | unexpectedToken got expected => exact ⟨h.1, h.2.1, h.2.2.mono hsubset⟩
  | _ => exact h

/-- It is enough to expect the kinds of all classes that come next. -/
theorem Names.of_kinds (h : ∀ form ∈ A, ∀ C ∈ form.head?, ∀ k ∈ C.kinds, k.name ∈ expected) :
    A.Names expected := by
  intro L hL
  obtain ⟨form, hform⟩ := List.exists_mem_of_ne_nil _ hL
  obtain ⟨C, hC, hmem⟩ := mem_after_iff.mp hform
  exact .inl ⟨_, h _ hmem C rfl _ (Token.Class.kind_mem_kinds hC), .inl rfl⟩

/-- The operators that may stand here are not expected. -/
theorem Names.widen {B : Place} {K : Token.Class} (h : A.Names expected)
    (hK : K.kinds = [.symbol]) (hA : OperatorOptional (B.map (K :: ·) ++ A)) :
    Names (B.map (K :: ·) ++ A) expected := by
  intro L hL
  by_cases hsymbol : L.kind = .symbol
  · exact .inr ⟨hsymbol, hA⟩
  · have hL' : ¬K.accepts L = true := fun haccepts => by
      simpa [hK, hsymbol] using Token.Class.kind_mem_kinds haccepts
    rw [after_append, after_map_cons, if_neg hL', List.nil_append] at hL
    rcases h L hL with hnamed | ⟨hkind, -⟩
    · exact .inl hnamed
    · exact absurd hkind hsymbol

theorem Blames.mono {t : Token} {f : Fault} (h : A.Blames t f) (hsubset : A ⊆ A')
    (hafter : A'.after t.lexeme = A.after t.lexeme)
    (hnames : ∀ expected, A.Names expected → A'.Names expected) : A'.Blames t f where
  ne_nil := by
    obtain ⟨form, hform⟩ := List.exists_mem_of_ne_nil _ h.ne_nil
    exact List.ne_nil_of_mem (hsubset hform)
  after_eq_nil := hafter.trans h.after_eq_nil
  line_eq := h.line_eq
  explains := h.explains.mono hsubset
  names expected hlists := hnames expected (h.names expected hlists)

end Place

namespace Reader

variable {α β : Type} {A B C : Place} {Q : α → List Token → Prop} {Q' : β → List Token → Prop}
  {L : Lexeme} {n m : Int} {ts : List Token} {x : Read α} {expected : List String}

/-- Reading from a place on leads to another place, or else to a fault of the first token that
leads to none. -/
inductive Follows (A B : Place) (Q : α → List Token → Prop) (ts : List Token) :
    EStateM.Result Stop Reader α → Prop
  | ok {a : α} {r : Reader} (us : List Token) (hts : ts = us ++ r.pending)
    (hplace : A.afterAll (us.map (·.lexeme)) = B) (hr : Q a r.pending) : Follows A B Q ts (.ok a r)
  | fault {f : Fault} {t : Token} {rest : List Token} {m : Int} (us : List Token)
    (hts : ts = us ++ t :: rest) (hf : (A.afterAll (us.map (·.lexeme))).Blames t f) :
    Follows A B Q ts (.error (.fault f) ⟨t :: rest, m⟩)

/-- The rest of the line is still to be read. -/
def Within (_ : α) (ts : List Token) : Prop := Token.IsLine ts

/-- The line was read to its end. -/
def Over (_ : α) (ts : List Token) : Prop := ts = []

/-- Reading what starts with a certain token. -/
def TracksAt (L : Lexeme) (A B : Place) (Q : α → List Token → Prop) (x : Read α) : Prop :=
  ∀ ⦃n ts m⦄, Token.IsLine (⟨L, n⟩ :: ts) → Follows A B Q (⟨L, n⟩ :: ts) (x ⟨⟨L, n⟩ :: ts, m⟩)

/-- Reading from one place to another. -/
def Tracks (A B : Place) (Q : α → List Token → Prop) (x : Read α) : Prop :=
  ∀ L, TracksAt L A B Q x

theorem Follows.append {result : EStateM.Result Stop Reader α} (us : List Token)
    (h : Follows (A.afterAll (us.map (·.lexeme))) B Q ts result) :
    Follows A B Q (us ++ ts) result := by
  cases h with
  | ok vs hts hplace hr =>
    refine .ok (us ++ vs) (by rw [hts, List.append_assoc]) ?_ hr
    rw [List.map_append, Place.afterAll_append, hplace]
  | fault vs hts hf =>
    refine .fault (us ++ vs) (by rw [hts, List.append_assoc]) ?_
    rwa [List.map_append, Place.afterAll_append]

theorem Follows.step {result : EStateM.Result Stop Reader α}
    (h : Follows (A.after L) B Q ts result) : Follows A B Q (⟨L, n⟩ :: ts) result :=
  h.append [⟨L, n⟩]

theorem Tracks.follows (h : Tracks A B Q x) (hline : Token.IsLine ts) (m : Int) :
    Follows A B Q ts (x ⟨ts, m⟩) := by
  cases hline with
  | eol n => exact h _ (.eol n)
  | step n hL hne hts => exact h _ (.step n hL hne hts)

theorem TracksAt.bind {f : α → Read β} (hx : TracksAt L A B Q x)
    (hf : ∀ ⦃a ts m⦄, Q a ts → Follows B C Q' ts (f a ⟨ts, m⟩)) :
    TracksAt L A C Q' (x >>= f) := by
  intro n ts m hline
  show Follows A C Q' _ (EStateM.bind x f _)
  have hfollows := hx (m := m) hline
  unfold EStateM.bind
  generalize x ⟨⟨L, n⟩ :: ts, m⟩ = result at hfollows ⊢
  cases hfollows with
  | ok us hts hplace hr =>
    rw [hts]
    exact .append us (hplace ▸ hf hr)
  | fault us hts hf => exact .fault us hts hf

theorem TracksAt.andThen {f : α → Read β} (hx : TracksAt L A B Within x)
    (hf : ∀ a, Tracks B C Q' (f a)) : TracksAt L A C Q' (x >>= f) :=
  hx.bind fun a _ _ hline => (hf a).follows hline _

/-- Taking a token leads to the next place. -/
theorem tracksAt_of_ok {a : α} (hne : L ≠ .eol)
    (hx : ∀ n ts m, x ⟨⟨L, n⟩ :: ts, m⟩ = .ok a ⟨ts, n⟩) :
    TracksAt L A (A.after L) (fun b ts => b = a ∧ Token.IsLine ts) x := by
  intro n ts m hline
  rw [hx]
  exact .ok [⟨L, n⟩] rfl rfl ⟨rfl, hline.tail hne⟩

/-- What is only computed from the value takes no token. -/
theorem TracksAt.map (hx : TracksAt L A B Over x) (f : α → β) :
    TracksAt L A B Over (x >>= fun a => pure (f a)) :=
  hx.bind fun _ _ _ hend => .ok [] rfl rfl hend

theorem Tracks.map (hx : Tracks A B Over x) (f : α → β) :
    Tracks A B Over (x >>= fun a => pure (f a)) :=
  fun L => (hx L).map f

theorem tracksAt_refuse (hafter : A.after L = []) (hallows : A.Allows expected)
    (hnames : A.Names expected) : TracksAt L A B Q (refuse expected : Read α) := by
  intro n ts m hline
  by_cases heol : L = .eol
  · subst heol
    refine .fault [] rfl ⟨hallows.ne_nil, hafter, rfl, ⟨rfl, hallows⟩, ?_⟩
    rintro _ (hcause | ⟨_, hcause⟩) <;> cases hcause
    exact hnames
  · have hcomplaint : complaint ⟨⟨L, n⟩ :: ts, m⟩ expected =
        ⟨.unexpectedToken L.kind.name expected, n⟩ := by
      simp [complaint, Token.kind, Lexeme.kind_ne_eol heol]
    show Follows A B Q _ (.error (.fault (complaint _ _)) _)
    rw [hcomplaint]
    refine .fault [] rfl ⟨hallows.ne_nil, hafter, rfl, ⟨heol, rfl, hallows⟩, ?_⟩
    rintro _ (hcause | ⟨_, hcause⟩) <;> cases hcause
    exact hnames

/-- Among more forms, reading goes as before if the first token leads to the same place. -/
theorem TracksAt.widen {A' : Place} (h : TracksAt L A B Over x) (hsubset : A ⊆ A')
    (hafter : A'.after L = A.after L)
    (hnames : A.after L = [] → ∀ expected, A.Names expected → A'.Names expected) :
    TracksAt L A' B Over x := by
  intro n ts m hline
  have hfollows := h (m := m) hline
  generalize x ⟨⟨L, n⟩ :: ts, m⟩ = result at hfollows ⊢
  cases hfollows with
  | @ok a r us hts hplace hr =>
    cases us with
    | nil =>
      -- The line is over, so at least one token was taken.
      rw [List.nil_append, show r.pending = [] from hr] at hts
      cases hts
    | cons u us =>
      obtain ⟨rfl, rfl⟩ := List.cons.inj hts
      refine .ok (⟨L, n⟩ :: us) rfl ?_ hr
      rw [← hplace, List.map_cons, Place.afterAll_cons, Place.afterAll_cons, hafter]
  | fault us hts hf =>
    cases us with
    | nil =>
      obtain ⟨rfl, rfl⟩ := List.cons.inj hts
      exact .fault [] rfl (hf.mono hsubset hafter (hnames hf.after_eq_nil))
    | cons u us =>
      obtain ⟨rfl, rfl⟩ := List.cons.inj hts
      refine .fault (⟨L, n⟩ :: us) rfl ?_
      rw [List.map_cons, Place.afterAll_cons] at hf ⊢
      rwa [hafter]

/-! ## Readers of one token -/

/-- Taking one token of a class, and refusing all others. -/
structure Recognizes (K : Token.Class) (expected : List String) (x : Read α) : Prop where
  takes {L : Lexeme} (hL : L.Readable) (h : K.accepts L = true) :
    ∃ a, ∀ n ts m, x ⟨⟨L, n⟩ :: ts, m⟩ = .ok a ⟨ts, n⟩
  refuses {L : Lexeme} (hL : L.Readable) (h : ¬K.accepts L = true) (n : Int) (ts : List Token)
    (m : Int) : x ⟨⟨L, n⟩ :: ts, m⟩ = refuse expected ⟨⟨L, n⟩ :: ts, m⟩
  expected_ne_nil : expected ≠ []
  fits : ∀ name ∈ expected, ∃ L : Lexeme, L.Fits name ∧ K.accepts L = true
  named {L : Lexeme} (h : K.accepts L = true) : ∃ name ∈ expected, L.Fits name

section Recognizes

variable {K : Token.Class}

theorem Recognizes.allows (hx : Recognizes K expected x) (hA : A ≠ []) :
    Place.Allows (A.map (K :: ·)) expected := by
  refine ⟨hx.expected_ne_nil, fun name hname => ?_⟩
  obtain ⟨L, hfits, hL⟩ := hx.fits name hname
  exact ⟨L, hfits, by rwa [Place.after_map_cons, if_pos hL]⟩

theorem Recognizes.names (hx : Recognizes K expected x) :
    Place.Names (A.map (K :: ·)) expected := by
  intro L hL
  rw [Place.after_map_cons] at hL
  split at hL
  · next hK => exact .inl (hx.named hK)
  · exact absurd rfl hL

theorem Recognizes.tracks (hx : Recognizes K expected x) (heol : K.accepts .eol = false)
    (hA : A ≠ []) : Tracks (A.map (K :: ·)) A Within x := by
  intro L n ts m hline
  have hafter := Place.after_map_cons K A L
  by_cases hK : K.accepts L = true
  · obtain ⟨a, ha⟩ := hx.takes hline.readable hK
    rw [if_pos hK] at hafter
    have hne : L ≠ .eol := by
      rintro rfl
      rw [heol] at hK
      cases hK
    rw [ha]
    exact .ok [⟨L, n⟩] rfl hafter (hline.tail hne)
  · rw [if_neg hK] at hafter
    rw [hx.refuses hline.readable hK]
    exact tracksAt_refuse hafter (hx.allows hA) hx.names hline

end Recognizes

theorem recognizes_goto : Recognizes (.exactly .goto) [Token.Kind.goto.name] (expect .goto) where
  takes _ h := by
    obtain rfl := Token.Class.accepts_exactly_iff.mp h
    exact ⟨(), fun _ _ _ => rfl⟩
  refuses {L} hL h n ts m := by
    cases L with
    | goto => exact absurd rfl h
    | blank k => exact hL.elim
    | _ => rfl
  expected_ne_nil := List.cons_ne_nil _ _
  fits := List.forall_mem_singleton.mpr ⟨.goto, by decide⟩
  named h := by
    obtain rfl := Token.Class.accepts_exactly_iff.mp h
    exact ⟨_, List.mem_singleton_self _, .inl rfl⟩

theorem recognizes_expectSymbol {s : String} (hs : Token.Kind.ofName? s = none) :
    Recognizes (.exactly (.symbol s)) [s] (expectSymbol s) where
  takes _ h := by
    obtain rfl := Token.Class.accepts_exactly_iff.mp h
    exact ⟨(), fun _ _ _ => if_pos rfl⟩
  refuses _ h n ts m := if_neg fun hL => h (Token.Class.accepts_exactly_iff.mpr hL)
  expected_ne_nil := List.cons_ne_nil _ _
  fits := List.forall_mem_singleton.mpr
    ⟨.symbol s, .inr ⟨hs, rfl⟩, Token.Class.accepts_exactly_iff.mpr rfl⟩
  named h := ⟨s, List.mem_singleton_self s, .inr ⟨hs, Token.Class.accepts_exactly_iff.mp h⟩⟩

theorem recognizes_identifier :
    Recognizes .identifier [Token.Kind.identifier.name] identifier where
  takes _ h := by
    obtain ⟨name, rfl⟩ := Token.Class.accepts_identifier_iff.mp h
    exact ⟨name, fun _ _ _ => rfl⟩
  refuses {L} hL h n ts m := by
    cases L with
    | identifier name => exact absurd rfl h
    | blank k => exact hL.elim
    | _ => rfl
  expected_ne_nil := List.cons_ne_nil _ _
  fits := List.forall_mem_singleton.mpr ⟨.identifier "x", by decide⟩
  named h := by
    obtain ⟨name, rfl⟩ := Token.Class.accepts_identifier_iff.mp h
    exact ⟨_, List.mem_singleton_self _, .inl rfl⟩

theorem recognizes_label : Recognizes .label [Token.Kind.label.name] label where
  takes _ h := by
    obtain ⟨name, rfl⟩ := Token.Class.accepts_label_iff.mp h
    exact ⟨some name, fun _ _ _ => rfl⟩
  refuses {L} hL h n ts m := by
    cases L with
    | label name => exact absurd rfl h
    | blank k => exact hL.elim
    | _ => rfl
  expected_ne_nil := List.cons_ne_nil _ _
  fits := List.forall_mem_singleton.mpr ⟨.label "L", by decide⟩
  named h := by
    obtain ⟨name, rfl⟩ := Token.Class.accepts_label_iff.mp h
    exact ⟨_, List.mem_singleton_self _, .inl rfl⟩

theorem recognizes_operand :
    Recognizes .operand [Token.Kind.identifier.name, Token.Kind.integerLiteral.name] operand where
  takes _ h := by
    obtain ⟨o, ho⟩ := Token.Class.accepts_operand_iff.mp h
    refine ⟨o, fun n ts m => ?_⟩
    cases ho with
    | var name => rfl
    | lit hvalue => simp [operand, hvalue]
  refuses {L} hL h n ts m := by
    cases L with
    | identifier name => exact absurd rfl h
    | integerLiteral digits => exact absurd hL h
    | blank k => exact hL.elim
    | _ => rfl
  expected_ne_nil := List.cons_ne_nil _ _
  fits := List.forall_mem_cons.mpr ⟨⟨.identifier "x", by decide⟩,
    List.forall_mem_singleton.mpr ⟨.integerLiteral "0", by decide⟩⟩
  named h := by
    obtain ⟨o, ho⟩ := Token.Class.accepts_operand_iff.mp h
    cases ho with
    | var name => exact ⟨_, .head _, .inl rfl⟩
    | lit hvalue => exact ⟨_, .tail _ (.head _), .inl rfl⟩

/-- The end of the line is the last thing that is read of it. -/
theorem tracks_expect_eol : Tracks [[.exactly .eol]] [[]] Over (expect .eol) := by
  intro L n ts m hline
  cases hline with
  | eol => exact .ok [⟨.eol, n⟩] rfl rfl rfl
  | step _ hL hne hts =>
    have hrefuse : expect .eol ⟨⟨L, n⟩ :: ts, m⟩ = refuse [Token.Kind.eol.name] ⟨⟨L, n⟩ :: ts, m⟩ :=
      if_neg (Lexeme.kind_ne_eol hne)
    have hafter : Place.after [[.exactly .eol]] L = [] := by simp [Place.after, hne]
    rw [hrefuse]
    exact tracksAt_refuse hafter (.of_samples (by decide)) (.of_kinds (by decide))
      (.step n hL hne hts)

/-! ## Readers of an instruction -/

section Operator

variable {ω : Type} {category : String} {ofSymbol? : String → Option ω} {K : Token.Class}

/-- What follows an operator or its absence, where no other form starts with a symbol. -/
theorem tracksAt_operator?_bind {k : Option ω → Read α}
    (hK : ∀ {L}, K.accepts L = true ↔ ∃ s op, L = .symbol s ∧ ofSymbol? s = some op)
    (hA : A ≠ []) (hB : ∀ s, B.after (.symbol s) = []) (hsome : ∀ op, Tracks A C Q (k (some op)))
    (hnone : Place.after (A.map (K :: ·) ++ B) L = B.after L →
      TracksAt L (A.map (K :: ·) ++ B) C Q (k none)) :
    TracksAt L (A.map (K :: ·) ++ B) C Q (operator? category ofSymbol? >>= k) := by
  intro n ts m hline
  have hafter := Place.after_append (A := A.map (K :: ·)) (B := B) (L := L)
  rw [Place.after_map_cons] at hafter
  cases L with
  | symbol s =>
    rw [hB, List.append_nil] at hafter
    cases hop : ofSymbol? s with
    | some op =>
      have heq : (operator? category ofSymbol? >>= k) ⟨⟨.symbol s, n⟩ :: ts, m⟩ =
          k (some op) ⟨ts, n⟩ := by
        simp [bind, EStateM.bind, operator?, hop]
      rw [if_pos (hK.mpr ⟨s, op, rfl, hop⟩)] at hafter
      rw [heq]
      refine .step ?_
      rw [hafter]
      exact (hsome op).follows (hline.tail (by simp)) n
    | none =>
      have heq : (operator? category ofSymbol? >>= k) ⟨⟨.symbol s, n⟩ :: ts, m⟩ =
          .error (.fault ⟨.invalidOperator (some s) category, n⟩) ⟨⟨.symbol s, n⟩ :: ts, m⟩ := by
        simp [bind, EStateM.bind, operator?, hop]
      have hs : ¬K.accepts (.symbol s) = true := by simp [hK, hop]
      rw [if_neg hs] at hafter
      rw [heq]
      refine .fault [] rfl ⟨by simp [hA], hafter, rfl, ⟨s, rfl, rfl⟩, ?_⟩
      rintro _ (hcause | ⟨_, hcause⟩) <;> cases hcause
  | blank k => exact hline.readable.elim
  | _ => exact hnone (by simpa [hK] using hafter) hline

end Operator

theorem tracks_label_eol (f : Option String → α) :
    Tracks [[.label, .exactly .eol]] [[]] Over
      (do let target ← label; expect .eol; return f target) := by
  intro L
  refine (recognizes_label.tracks (A := [[.exactly .eol]]) rfl (by simp) L).andThen fun target => ?_
  exact tracks_expect_eol.map fun _ => f target

theorem tracks_jumpTail : Tracks [Place.jump] [[]] Over jumpTail := by
  intro L
  refine (recognizes_goto.tracks (A := [[.label, .exactly .eol]]) rfl (by simp) L).andThen
    fun _ => ?_
  exact tracks_label_eol id

theorem tracks_operand_eol (f : Operand → α) :
    Tracks [[.operand, .exactly .eol]] [[]] Over
      (do let o ← operand; expect .eol; return f o) := by
  intro L
  refine (recognizes_operand.tracks (A := [[.exactly .eol]]) rfl (by simp) L).andThen fun o => ?_
  exact tracks_expect_eol.map fun _ => f o

theorem tracks_operand_jumpTail (f : Operand → Option String → α) :
    Tracks [.operand :: Place.jump] [[]] Over
      (do let o ← operand; let target ← jumpTail; return f o target) := by
  intro L
  refine (recognizes_operand.tracks (A := [Place.jump]) rfl (by simp) L).andThen fun o => ?_
  exact tracks_jumpTail.map (f o)

theorem tracks_branchBody : Tracks Place.conditions [[]] Over branchBody := by
  intro L
  cases L with
  | identifier name =>
    refine (tracksAt_of_ok (a := .var name) (by simp) fun _ _ _ => rfl).bind ?_
    rintro _ ts m ⟨rfl, hline⟩
    refine Tracks.follows (fun L => ?_) hline m
    apply tracksAt_operator?_bind (A := [.operand :: Place.jump]) (B := [Place.jump])
      Token.Class.accepts_relation_iff (List.cons_ne_nil _ _) (fun _ => rfl)
    · intro op
      exact tracks_operand_jumpTail _
    · intro hafter
      refine ((tracks_jumpTail L).map _).widen (List.subset_append_right _ _) hafter ?_
      exact fun _ _ hnames => hnames.widen rfl (.inl rfl)
  | integerLiteral digits =>
    cases hvalue : Text.readInt digits with
    | error e =>
      have hL : ¬(Lexeme.integerLiteral digits).Readable := by
        simp [Lexeme.Readable, hvalue, Except.isOk, Except.toBool]
      exact fun _ _ _ hline => absurd hline.readable hL
    | ok value =>
      have hafter : Place.conditions.after (.integerLiteral digits) =
          [.operand :: Place.jump].map (.relation :: ·) ++ [] := by
        simp [Place.after, Place.conditions, Token.Class.accepts, hvalue, Except.isOk,
          Except.toBool]
      refine (tracksAt_of_ok (a := .lit value) (by simp) ?_).bind ?_
      · simp [operand, hvalue]
      · rintro _ ts m ⟨rfl, hline⟩
        rw [hafter]
        refine Tracks.follows (fun L => ?_) hline m
        apply tracksAt_operator?_bind Token.Class.accepts_relation_iff (List.cons_ne_nil _ _)
          (fun _ => rfl)
        · intro op
          exact tracks_operand_jumpTail _
        · intro hafter
          exact tracksAt_refuse hafter (.of_samples (by decide)) (.of_kinds (by decide))
  | blank k => exact fun _ _ _ hline => hline.readable.elim
  | _ => exact tracksAt_refuse rfl (.of_samples (by decide)) (.of_kinds (by decide))

theorem tracks_branchUnlessBody :
    Tracks [.identifier :: Place.jump] [[]] Over branchUnlessBody := by
  intro L
  refine (recognizes_identifier.tracks (A := [Place.jump]) rfl (by simp) L).andThen fun name => ?_
  exact tracks_jumpTail.map _

theorem tracks_assignmentBody (dest : String) :
    Tracks (Place.sources.map (.exactly (.symbol "=") :: ·)) [[]] Over (assignmentBody dest) := by
  intro L
  refine ((recognizes_expectSymbol (s := "=") (by decide)).tracks rfl (by simp [Place.sources])
    L).andThen fun _ => ?_
  intro L
  apply tracksAt_operator?_bind (A := [[.operand, .exactly .eol]])
    (B := [[.operand, .binary, .operand, .exactly .eol], [.operand, .exactly .eol]])
    Token.Class.accepts_unary_iff (List.cons_ne_nil _ _) (fun _ => rfl)
  · intro op
    exact tracks_operand_eol _
  · intro hafter
    refine TracksAt.widen ?_ (List.subset_append_right _ _) hafter
      fun _ _ hnames => hnames.widen rfl (.inr rfl)
    refine (recognizes_operand.tracks (A := [[.binary, .operand, .exactly .eol], [.exactly .eol]])
      rfl (by simp) L).andThen fun left => ?_
    -- The reader looks at what comes next before it takes anything.
    intro L n ts m hline
    rw [get_bind]
    cases L with
    | eol =>
      exact ((tracks_expect_eol _).map _).widen (List.subset_cons_self _ _) rfl
        (fun hnil => absurd hnil (by simp [Place.after])) hline
    | _ =>
      refine tracksAt_operator?_bind (A := [[.operand, .exactly .eol]]) (B := [[.exactly .eol]])
        Token.Class.accepts_binary_iff (List.cons_ne_nil _ _) (fun _ => rfl)
        (fun op => tracks_operand_eol _) (fun hafter => ?_) hline
      exact tracksAt_refuse hafter (.of_samples (by decide)) (.of_kinds (by decide))

theorem tracksAt_bodyPart {starts : List String} (hafter : A.after L = Place.bodies.after L)
    (hallows : A.Allows starts) (hnames : A.Names starts) :
    TracksAt L A [[]] Over (bodyPart starts) := by
  intro n ts m hline
  have hbody : ∀ {x : Read (Int × Instr.Body)}, L ≠ .eol →
      Tracks (Place.bodies.after L) [[]] Over x →
        Follows A [[]] Over (⟨L, n⟩ :: ts) (x ⟨ts, n⟩) := by
    intro x hne hx
    refine .step ?_
    rw [hafter]
    exact hx.follows (hline.tail hne) n
  cases L with
  | goto => exact hbody (by simp) (tracks_label_eol _)
  | ifTrue => exact hbody (by simp) (tracks_branchBody.map _)
  | ifFalse => exact hbody (by simp) (tracks_branchUnlessBody.map _)
  | identifier dest => exact hbody (by simp) ((tracks_assignmentBody dest).map _)
  | blank k => exact hline.readable.elim
  | _ => exact tracksAt_refuse hafter hallows hnames hline

theorem tracksAt_labelPart (name : String) :
    TracksAt (.label name) Place.lines Place.bodies
      (fun label ts => label = some name ∧ Token.IsLine ts) labelPart := by
  intro n ts m hline
  have hcolon : Tracks (Place.bodies.map (.exactly (.symbol ":") :: ·)) Place.bodies
      (fun label ts => label = some name ∧ Token.IsLine ts)
      (do expectSymbol ":"; return some name) := by
    intro L
    refine ((recognizes_expectSymbol (s := ":") (by decide)).tracks rfl (List.cons_ne_nil _ _)
      L).bind ?_
    intro _ ts m hline
    exact .ok [] rfl rfl ⟨rfl, hline⟩
  exact .step (hcolon.follows (hline.tail (by simp)) n)

/-- An instruction is read along the forms of its line. -/
theorem tracks_instruction : Tracks Place.lines [[]] Over instruction := by
  have hbodies : Place.bodies.Allows bodyStarts := .of_samples (by decide)
  have hlines : Place.lines.Allows (Token.Kind.label.name :: bodyStarts) := .of_samples (by decide)
  intro L
  cases L with
  | label name =>
    refine (tracksAt_labelPart name).bind ?_
    rintro _ ts m ⟨rfl, hline⟩
    exact Tracks.follows (fun L => (tracksAt_bodyPart rfl hbodies (.of_kinds (by decide))).map _)
      hline m
  | blank k => exact fun _ _ _ hline => hline.readable.elim
  | _ =>
    -- There is no label, so the body starts here.
    intro n ts m hline
    exact (tracksAt_bodyPart (A := Place.lines) rfl hlines (.of_kinds (by decide))).map
      (fun b => Instr.mk b.1 none b.2) hline

end Reader

/-! ## Faults -/

theorem Token.IsLine.amid {ts : List Token} (h : IsLine ts) : Reader.Amid id [] ts ts := by
  induction h with
  | eol n => exact .eol n
  | step n hL hne _ ih => exact .step n hL hne ih

namespace Instr

theorem Viable.of_isPrefix {ls ks : List Lexeme} (h : Viable ks) (hls : ls <+: ks) : Viable ls := by
  obtain ⟨ks', rfl⟩ := hls
  obtain ⟨rest, hrest⟩ := h
  exact ⟨ks' ++ rest, by rwa [← List.append_assoc]⟩

/-- The viable prefixes of a line are those before its first impossible token. -/
theorem viable_iff_isPrefix {us vs rest : List Token} {t : Token}
    (hus : Viable (us.map (·.lexeme))) (ht : ¬Viable ((us ++ [t]).map (·.lexeme)))
    (hvs : vs <+: us ++ t :: rest) : Viable (vs.map (·.lexeme)) ↔ vs <+: us := by
  constructor
  · intro hviable
    have hnext : us ++ [t] <+: us ++ t :: rest := ⟨rest, by simp⟩
    rcases List.prefix_or_prefix_of_prefix hvs hnext with hshort | hlong
    · rcases List.prefix_concat_iff.mp hshort with rfl | hshorter
      · exact absurd hviable ht
      · exact hshorter
    · exact absurd (hviable.of_isPrefix (hlong.map _)) ht
  · intro hshorter
    exact hus.of_isPrefix (hshorter.map _)

/-- A line that the grammar does not derive has a fault at its first impossible token. -/
theorem exists_blames {seg : List Token} (hseg : Token.IsLine seg)
    (hbad : ¬Derivable (seg.map (·.lexeme))) :
    ∃ us t rest f, seg = us ++ t :: rest ∧ ofTokens seg = .error (.rejected ⟨[f]⟩) ∧
      (Place.lines.afterAll (us.map (·.lexeme))).Blames t f := by
  have hfollows := Reader.tracks_instruction.follows hseg 0
  have hne : seg ≠ [] := by
    rintro rfl
    cases hseg
  rcases instruction_amid hseg.amid hne 0 with ⟨i, r, -, hi, hr⟩ | ⟨f, r, -, hf, hfault, -⟩
  · rw [hi] at hfollows
    cases hfollows with
    | ok us hts hplace _ =>
      rw [hr, List.append_nil] at hts
      subst hts
      refine absurd ?_ hbad
      rw [derivable_iff, ← List.append_nil (seg.map _), Place.accepts_append_iff, hplace]
      exact ⟨[], List.mem_singleton_self _, .nil⟩
  · rw [hfault] at hfollows
    cases hfollows with
    | fault us hts hblames => exact ⟨us, _, _, f, hts, hf, hblames⟩

/-- **The first impossible token.**  A line that the grammar does not derive has one fault.  It is
on the line of the token after the longest prefix of a derivable line; it says that the line ends
there, or that the token is no operator of the expected sort, or else which kind of token it is.
Whatever is expected in its place can follow the prefix. -/
theorem fault_at_first_impossible {seg : List Token} (hseg : Token.IsLine seg)
    (hbad : ¬Derivable (seg.map (·.lexeme))) :
    ∃ us t rest f, seg = us ++ t :: rest ∧
      (∀ vs, vs <+: seg → (Viable (vs.map (·.lexeme)) ↔ vs <+: us)) ∧
      ofTokens seg = .error (.rejected ⟨[f]⟩) ∧ f.line = t.line ∧
      ((∃ expected, f.cause = .unexpectedEnd expected) ↔ t.lexeme = .eol) ∧
      (t.lexeme ≠ .eol →
        (∃ s category, t.lexeme = .symbol s ∧ f.cause = .invalidOperator (some s) category) ∨
          ∃ expected, f.cause = .unexpectedToken t.kind.name expected) ∧
      ∀ expected,
        (f.cause = .unexpectedEnd expected ∨ ∃ got, f.cause = .unexpectedToken got expected) →
          expected ≠ [] ∧ ∀ name ∈ expected, ∃ L : Lexeme, L.Fits name ∧
            Viable (us.map (·.lexeme) ++ [L]) := by
  obtain ⟨us, t, rest, ⟨cause, line⟩, rfl, hf, hblames⟩ := exists_blames hseg hbad
  have hstep : ∀ L, Viable (us.map (·.lexeme) ++ [L]) ↔
      (Place.lines.afterAll (us.map (·.lexeme))).after L ≠ [] := by
    intro L
    rw [viable_iff, Place.afterAll_append]
    rfl
  have hus : Viable (us.map (·.lexeme)) := viable_iff.mpr hblames.ne_nil
  have ht : ¬Viable ((us ++ [t]).map (·.lexeme)) := by
    rw [List.map_append, List.map_singleton, hstep]
    exact not_not.mpr hblames.after_eq_nil
  refine ⟨us, t, rest, _, rfl, fun vs => viable_iff_isPrefix hus ht, hf, hblames.line_eq, ?_⟩
  have hexplains := hblames.explains
  simp only [hstep]
  cases cause with
  | unexpectedEnd expected =>
    obtain ⟨heol, hallows⟩ := hexplains
    refine ⟨⟨fun _ => heol, fun _ => ⟨expected, rfl⟩⟩, fun hne => absurd heol hne, ?_⟩
    rintro _ (hcause | ⟨_, hcause⟩) <;> cases hcause
    exact hallows
  | unexpectedToken got expected =>
    obtain ⟨hne, rfl, hallows⟩ := hexplains
    refine ⟨⟨?_, fun heol => absurd heol hne⟩, fun _ => .inr ⟨expected, rfl⟩, ?_⟩
    · rintro ⟨_, ⟨⟩⟩
    · rintro _ (hcause | ⟨_, hcause⟩) <;> cases hcause
      exact hallows
  | invalidOperator symbol category =>
    obtain ⟨s, hs, rfl⟩ := hexplains
    have hne : t.lexeme ≠ .eol := by simp [hs]
    refine ⟨⟨?_, fun heol => absurd heol hne⟩, fun _ => .inl ⟨s, category, hs, rfl⟩, ?_⟩
    · rintro ⟨_, ⟨⟩⟩
    · rintro _ (hcause | ⟨_, hcause⟩) <;> cases hcause
  | _ => exact hexplains.elim

/-- A labelled branch on a number that lacks its comparison. -/
def brokenBranch : List Token :=
  [⟨.label "TOP", 1⟩, ⟨.symbol ":", 1⟩, ⟨.ifTrue, 2⟩, ⟨.integerLiteral "7", 2⟩, ⟨.goto, 3⟩,
    ⟨.label "TOP", 3⟩, ⟨.eol, 3⟩]

/-- The fault is the jump in place of an operator, and there are tokens that can stand there. -/
theorem fault_in_brokenBranch :
    Token.IsLine brokenBranch ∧ ¬Derivable (brokenBranch.map (·.lexeme)) ∧
      ofTokens brokenBranch = .error (.rejected ⟨[⟨.unexpectedToken "goto" ["symbol"], 3⟩]⟩) ∧
      ∃ us t rest, brokenBranch = us ++ t :: rest ∧ t.line = 3 ∧
        (∀ vs, vs <+: brokenBranch → (Viable (vs.map (·.lexeme)) ↔ vs <+: us)) ∧
        ∃ L : Lexeme, L.Fits "symbol" ∧ Viable (us.map (·.lexeme) ++ [L]) := by
  have hline : Token.IsLine brokenBranch := by
    refine .step 1 ?_ ?_ (.step 1 ?_ ?_ (.step 2 ?_ ?_ (.step 2 ?_ ?_ (.step 3 ?_ ?_
      (.step 3 ?_ ?_ (.eol 3)))))) <;> decide +kernel
  have hread : ofTokens brokenBranch =
      .error (.rejected ⟨[⟨.unexpectedToken "goto" ["symbol"], 3⟩]⟩) := by
    decide +kernel
  have hbad : ¬Derivable (brokenBranch.map (·.lexeme)) := by
    intro h
    have hviable : Viable (brokenBranch.map (·.lexeme)) := ⟨[], by rwa [List.append_nil]⟩
    exact viable_iff.mp hviable (by decide +kernel)
  obtain ⟨us, t, rest, f, hseg, hviable, hf, hfline, -, -, hexpected⟩ :=
    fault_at_first_impossible hline hbad
  rw [hread] at hf
  cases hf
  exact ⟨hline, hbad, hread, us, t, rest, hseg, hfline.symm, hviable,
    (hexpected _ (.inr ⟨_, rfl⟩)).2 "symbol" (by simp)⟩

end Instr

end FlowTrace
