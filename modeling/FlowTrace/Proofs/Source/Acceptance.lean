import FlowTrace.Proofs.Source.Grammar

/-!
# What is accepted

The reader of instructions takes just the tokens that the grammar derives, so tokens are accepted if
and only if they are those of instructions, one after the other.  All tokens are taken to carry the
text that they should carry.
-/

namespace FlowTrace

open Token (Lexeme)

namespace Reader

variable {r r₁ r' : Reader} {L : Lexeme} {ls : List Lexeme}

/-! ## Readers of one token -/

section Monad

variable {α β : Type}

theorem bind_eq_ok_iff {x : Read α} {f : α → Read β} {b : β} :
    (x >>= f) r = .ok b r' ↔ ∃ a r₁, x r = .ok a r₁ ∧ f a r₁ = .ok b r' := by
  show EStateM.bind x f r = _ ↔ _
  unfold EStateM.bind
  cases x r with
  | ok a r₁ =>
    constructor
    · intro h
      exact ⟨a, r₁, rfl, h⟩
    · rintro ⟨_, _, ⟨⟩, h⟩
      exact h
  | error e r₁ => simp

theorem pure_eq_ok_iff {a b : α} : (pure a : Read α) r = .ok b r' ↔ a = b ∧ r = r' := by
  show EStateM.Result.ok a r = .ok b r' ↔ _
  simp

theorem get_bind {f : Reader → Read β} : ((get : Read Reader) >>= f) r = f r r := rfl

@[simp] theorem refuse_ne_ok {expected : List String} {a : α} :
    (refuse expected : Read α) r ≠ .ok a r' := nofun

end Monad

theorem expect_eq_ok_iff {kind : Token.Kind} {u : Unit}
    (hkind : ∀ K : Lexeme, K.kind = kind ↔ K = L) : expect kind r = .ok u r' ↔ r.Takes [L] r' := by
  obtain ⟨_ | ⟨⟨K, n⟩, ts⟩, m⟩ := r
  · simp [expect, takes_singleton_iff]
  · obtain ⟨ts', n'⟩ := r'
    by_cases hK : K = L
    · simp [expect, Token.kind, takes_singleton_iff, hkind, hK, and_comm]
    · simp [expect, Token.kind, takes_singleton_iff, hkind, hK]

theorem expect_goto_eq_ok_iff {u : Unit} : expect .goto r = .ok u r' ↔ r.Takes [.goto] r' := by
  apply expect_eq_ok_iff
  rintro (_ | _ | _ | _ | _ | _ | _ | _ | ⟨_ | _ | _ | _⟩) <;>
    simp [Lexeme.kind, Token.TextKind.kind]

theorem expect_eol_eq_ok_iff {u : Unit} : expect .eol r = .ok u r' ↔ r.Takes [.eol] r' := by
  apply expect_eq_ok_iff
  rintro (_ | _ | _ | _ | _ | _ | _ | _ | ⟨_ | _ | _ | _⟩) <;>
    simp [Lexeme.kind, Token.TextKind.kind]

theorem expectSymbol_eq_ok_iff {s : String} {u : Unit} :
    expectSymbol s r = .ok u r' ↔ r.Takes [.symbol s] r' := by
  obtain ⟨_ | ⟨⟨K, n⟩, ts⟩, m⟩ := r
  · simp [expectSymbol, takes_singleton_iff]
  · obtain ⟨ts', n'⟩ := r'
    by_cases hK : K = .symbol s
    · simp [expectSymbol, takes_singleton_iff, hK, and_comm]
    · simp [expectSymbol, takes_singleton_iff, hK]

theorem identifier_eq_ok_iff (hr : r.Whole) {name : String} :
    identifier r = .ok name r' ↔ r.Takes [.identifier name] r' := by
  obtain ⟨_ | ⟨⟨K, n⟩, ts⟩, m⟩ := r
  · simp [identifier, takes_singleton_iff]
  · obtain ⟨ts', n'⟩ := r'
    cases K with
    | identifier s =>
      simp [identifier, takes_singleton_iff, and_assoc, and_comm, and_left_comm]
    | blank k => exact absurd rfl (hr _ List.mem_cons_self k)
    | _ => simp [identifier, takes_singleton_iff]

theorem label_eq_ok_iff (hr : r.Whole) {target : Option String} :
    label r = .ok target r' ↔ ∃ name, target = some name ∧ r.Takes [.label name] r' := by
  obtain ⟨_ | ⟨⟨K, n⟩, ts⟩, m⟩ := r
  · simp [label, takes_singleton_iff]
  · obtain ⟨ts', n'⟩ := r'
    cases K with
    | label s => simp [label, takes_singleton_iff, and_comm, and_assoc, eq_comm]
    | blank k => exact absurd rfl (hr _ List.mem_cons_self k)
    | _ => simp [label, takes_singleton_iff]

theorem operand_eq_ok_iff (hr : r.Whole) {o : Operand} :
    operand r = .ok o r' ↔ ∃ L, o.Derives L ∧ r.Takes [L] r' := by
  constructor
  · intro h
    obtain ⟨_ | ⟨⟨K, n⟩, ts⟩, m⟩ := r
    · cases h
    · cases K with
      | identifier s =>
        obtain ⟨rfl, rfl⟩ := by simpa [operand] using h
        exact ⟨_, .var s, .step m (.done _)⟩
      | integerLiteral digits =>
        cases hvalue : Text.readInt digits with
        | ok value =>
          obtain ⟨rfl, rfl⟩ := by simpa [operand, hvalue] using h
          exact ⟨_, .lit hvalue, .step m (.done _)⟩
        | error e => simp [operand, hvalue] at h
      | blank k => exact absurd rfl (hr _ List.mem_cons_self k)
      | _ => simp [operand] at h
  · rintro ⟨L, hL, h⟩
    rcases h with _ | ⟨m, ⟨⟩⟩
    cases hL with
    | var name => rfl
    | lit hvalue => simp [operand, hvalue]

section Operator

variable {ω : Type} {category : String} {ofSymbol? : String → Option ω}

theorem operator?_cases (hr : r.Whole) {o : Option ω}
    (h : operator? category ofSymbol? r = .ok o r') :
    (∃ s op, o = some op ∧ ofSymbol? s = some op ∧ r.Takes [.symbol s] r') ∨
      (o = none ∧ r = r') := by
  obtain ⟨_ | ⟨⟨K, n⟩, ts⟩, m⟩ := r
  · exact .inr (by simpa [operator?, eq_comm] using h)
  · cases K with
    | symbol s =>
      cases hop : ofSymbol? s with
      | some op =>
        obtain ⟨rfl, rfl⟩ := by simpa [operator?, hop] using h
        exact .inl ⟨s, op, rfl, hop, .step m (.done _)⟩
      | none => simp [operator?, hop] at h
    | blank k => exact absurd rfl (hr _ List.mem_cons_self k)
    | _ => exact .inr (by simpa [operator?, eq_comm] using h)

theorem operator?_of_takes {s : String} {op : ω} (h : r.Takes [.symbol s] r')
    (hop : ofSymbol? s = some op) : operator? category ofSymbol? r = .ok (some op) r' := by
  rcases h with _ | ⟨m, ⟨⟩⟩
  simp [operator?, hop]

/-- No operator is taken where there is no symbol. -/
theorem operator?_of_not_symbol (h : r.Takes (L :: ls) r') (hL : L.kind ≠ .symbol) :
    operator? category ofSymbol? r = .ok none r := by
  obtain ⟨n, ts, hr⟩ := h.head
  cases L with
  | symbol s => exact absurd rfl hL
  | blank k =>
    cases k with
    | symbol => exact absurd rfl hL
    | _ => simp [operator?, hr]
  | _ => simp [operator?, hr]

end Operator

/-! ## Readers of an instruction -/

theorem jumpTail_eq_ok_iff (hr : r.Whole) {target : Option String} :
    jumpTail r = .ok target r' ↔
      ∃ name, target = some name ∧ r.Takes [.goto, .label name, .eol] r' := by
  simp only [jumpTail, bind_eq_ok_iff, pure_eq_ok_iff, expect_goto_eq_ok_iff,
    expect_eol_eq_ok_iff]
  constructor
  · rintro ⟨-, r₁, hgoto, _, r₂, elabel, -, _, heol, rfl, rfl⟩
    obtain ⟨name, rfl, hlabel⟩ := (label_eq_ok_iff (hgoto.whole hr)).mp elabel
    exact ⟨name, rfl, hgoto.append (hlabel.append heol)⟩
  · rintro ⟨name, rfl, h⟩
    obtain ⟨r₁, hgoto, h⟩ := h.uncons
    obtain ⟨r₂, hlabel, heol⟩ := h.uncons
    have elabel := (label_eq_ok_iff (hgoto.whole hr)).mpr ⟨name, rfl, hlabel⟩
    exact ⟨(), r₁, hgoto, _, r₂, elabel, (), r', heol, rfl, rfl⟩

theorem derives_of_branchBody (hr : r.Whole) {b : Instr.Body} (h : branchBody r = .ok b r') :
    ∃ ls, b.Derives (.ifTrue :: ls) ∧ r.Takes (ls ++ [.eol]) r' := by
  obtain ⟨left, r₁, eleft, h⟩ := bind_eq_ok_iff.mp h
  obtain ⟨A, hA, hleft⟩ := (operand_eq_ok_iff hr).mp eleft
  have hr₁ := hleft.whole hr
  obtain ⟨o, r₂, eop, h⟩ := bind_eq_ok_iff.mp h
  rcases operator?_cases hr₁ eop with ⟨s, op, rfl, hs, hop⟩ | ⟨rfl, rfl⟩
  · have hr₂ := hop.whole hr₁
    obtain ⟨right, r₃, eright, h⟩ := bind_eq_ok_iff.mp h
    obtain ⟨B, hB, hright⟩ := (operand_eq_ok_iff hr₂).mp eright
    obtain ⟨_, r₄, etail, h⟩ := bind_eq_ok_iff.mp h
    obtain ⟨target, rfl, htail⟩ := (jumpTail_eq_ok_iff (hright.whole hr₂)).mp etail
    obtain ⟨rfl, rfl⟩ := pure_eq_ok_iff.mp h
    exact ⟨_, .branch hA hs hB target, hleft.append (hop.append (hright.append htail))⟩
  · cases hA with
    | var name =>
      obtain ⟨_, r₃, etail, h⟩ := bind_eq_ok_iff.mp h
      obtain ⟨target, rfl, htail⟩ := (jumpTail_eq_ok_iff hr₁).mp etail
      obtain ⟨rfl, rfl⟩ := pure_eq_ok_iff.mp h
      exact ⟨_, .branchIf name target, hleft.append htail⟩
    | lit _ => cases h

theorem branchBody_of_derives (hr : r.Whole) {b : Instr.Body} (hb : b.Derives (.ifTrue :: ls))
    (h : r.Takes (ls ++ [.eol]) r') : branchBody r = .ok b r' := by
  cases hb with
  | branch hA hs hB target =>
    obtain ⟨r₁, hleft, h⟩ := h.uncons
    obtain ⟨r₂, hop, h⟩ := h.uncons
    obtain ⟨r₃, hright, htail⟩ := h.uncons
    have hr₂ := hop.whole (hleft.whole hr)
    refine bind_eq_ok_iff.mpr ⟨_, r₁, (operand_eq_ok_iff hr).mpr ⟨_, hA, hleft⟩, ?_⟩
    refine bind_eq_ok_iff.mpr ⟨_, r₂, operator?_of_takes hop hs, ?_⟩
    refine bind_eq_ok_iff.mpr ⟨_, r₃, (operand_eq_ok_iff hr₂).mpr ⟨_, hB, hright⟩, ?_⟩
    have etail := (jumpTail_eq_ok_iff (hright.whole hr₂)).mpr ⟨target, rfl, htail⟩
    exact bind_eq_ok_iff.mpr ⟨_, r', etail, rfl⟩
  | branchIf name target =>
    obtain ⟨r₁, hleft, htail⟩ := h.uncons
    refine bind_eq_ok_iff.mpr ⟨_, r₁, (operand_eq_ok_iff hr).mpr ⟨_, .var name, hleft⟩, ?_⟩
    refine bind_eq_ok_iff.mpr ⟨_, r₁, operator?_of_not_symbol htail (by decide), ?_⟩
    have etail := (jumpTail_eq_ok_iff (hleft.whole hr)).mpr ⟨target, rfl, htail⟩
    exact bind_eq_ok_iff.mpr ⟨_, r', etail, rfl⟩

theorem derives_of_branchUnlessBody (hr : r.Whole) {b : Instr.Body}
    (h : branchUnlessBody r = .ok b r') :
    ∃ ls, b.Derives (.ifFalse :: ls) ∧ r.Takes (ls ++ [.eol]) r' := by
  obtain ⟨name, r₁, ename, h⟩ := bind_eq_ok_iff.mp h
  have hname := (identifier_eq_ok_iff hr).mp ename
  obtain ⟨_, r₂, etail, h⟩ := bind_eq_ok_iff.mp h
  obtain ⟨target, rfl, htail⟩ := (jumpTail_eq_ok_iff (hname.whole hr)).mp etail
  obtain ⟨rfl, rfl⟩ := pure_eq_ok_iff.mp h
  exact ⟨_, .branchUnless name target, hname.append htail⟩

theorem branchUnlessBody_of_derives (hr : r.Whole) {b : Instr.Body}
    (hb : b.Derives (.ifFalse :: ls)) (h : r.Takes (ls ++ [.eol]) r') :
    branchUnlessBody r = .ok b r' := by
  cases hb with
  | branchUnless name target =>
    obtain ⟨r₁, hname, htail⟩ := h.uncons
    refine bind_eq_ok_iff.mpr ⟨_, r₁, (identifier_eq_ok_iff hr).mpr hname, ?_⟩
    have etail := (jumpTail_eq_ok_iff (hname.whole hr)).mpr ⟨target, rfl, htail⟩
    exact bind_eq_ok_iff.mpr ⟨_, r', etail, rfl⟩

theorem derives_of_assignmentBody (hr : r.Whole) {dest : String} {b : Instr.Body}
    (h : assignmentBody dest r = .ok b r') :
    ∃ ls, b.Derives (.identifier dest :: ls) ∧ r.Takes (ls ++ [.eol]) r' := by
  obtain ⟨_, r₁, eeq, h⟩ := bind_eq_ok_iff.mp h
  have heq := expectSymbol_eq_ok_iff.mp eeq
  have hr₁ := heq.whole hr
  obtain ⟨o, r₂, eop, h⟩ := bind_eq_ok_iff.mp h
  rcases operator?_cases hr₁ eop with ⟨s, op, rfl, hs, hop⟩ | ⟨rfl, rfl⟩
  · obtain ⟨source, r₃, esource, h⟩ := bind_eq_ok_iff.mp h
    obtain ⟨A, hA, hsource⟩ := (operand_eq_ok_iff (hop.whole hr₁)).mp esource
    obtain ⟨_, r₄, eeol, h⟩ := bind_eq_ok_iff.mp h
    obtain ⟨rfl, rfl⟩ := pure_eq_ok_iff.mp h
    exact ⟨_, .unary dest hs hA,
      heq.append (hop.append (hsource.append (expect_eol_eq_ok_iff.mp eeol)))⟩
  · obtain ⟨left, r₂, eleft, h⟩ := bind_eq_ok_iff.mp h
    obtain ⟨A, hA, hleft⟩ := (operand_eq_ok_iff hr₁).mp eleft
    have hr₂ := hleft.whole hr₁
    -- What comes next is only looked at here, to tell a copy from a binary operation.
    rw [get_bind] at h
    generalize r₂.pending = pending at h
    split at h
    · obtain ⟨_, r₃, eeol, h⟩ := bind_eq_ok_iff.mp h
      obtain ⟨rfl, rfl⟩ := pure_eq_ok_iff.mp h
      exact ⟨_, .copy dest hA, heq.append (hleft.append (expect_eol_eq_ok_iff.mp eeol))⟩
    · obtain ⟨o, r₃, eop, h⟩ := bind_eq_ok_iff.mp h
      rcases operator?_cases hr₂ eop with ⟨s, op, rfl, hs, hop⟩ | ⟨rfl, rfl⟩
      · obtain ⟨right, r₄, eright, h⟩ := bind_eq_ok_iff.mp h
        obtain ⟨B, hB, hright⟩ := (operand_eq_ok_iff (hop.whole hr₂)).mp eright
        obtain ⟨_, r₅, eeol, h⟩ := bind_eq_ok_iff.mp h
        obtain ⟨rfl, rfl⟩ := pure_eq_ok_iff.mp h
        exact ⟨_, .binary dest hA hs hB, heq.append (hleft.append (hop.append
          (hright.append (expect_eol_eq_ok_iff.mp eeol))))⟩
      · cases h

theorem assignmentBody_of_derives (hr : r.Whole) {dest : String} {b : Instr.Body}
    (hb : b.Derives (.identifier dest :: ls)) (h : r.Takes (ls ++ [.eol]) r') :
    assignmentBody dest r = .ok b r' := by
  cases hb with
  | copy _ hA =>
    obtain ⟨r₁, heq, h⟩ := h.uncons
    obtain ⟨r₂, hleft, heol⟩ := h.uncons
    have hr₁ := heq.whole hr
    refine bind_eq_ok_iff.mpr ⟨(), r₁, expectSymbol_eq_ok_iff.mpr heq, ?_⟩
    refine bind_eq_ok_iff.mpr ⟨_, r₁, operator?_of_not_symbol hleft hA.kind_ne_symbol, ?_⟩
    refine bind_eq_ok_iff.mpr ⟨_, r₂, (operand_eq_ok_iff hr₁).mpr ⟨_, hA, hleft⟩, ?_⟩
    rw [get_bind, takes_singleton_iff.mp heol]
    exact bind_eq_ok_iff.mpr ⟨(), r', expect_eol_eq_ok_iff.mpr heol, rfl⟩
  | unary _ hs hA =>
    obtain ⟨r₁, heq, h⟩ := h.uncons
    obtain ⟨r₂, hop, h⟩ := h.uncons
    obtain ⟨r₃, hsource, heol⟩ := h.uncons
    have hr₂ := hop.whole (heq.whole hr)
    refine bind_eq_ok_iff.mpr ⟨(), r₁, expectSymbol_eq_ok_iff.mpr heq, ?_⟩
    refine bind_eq_ok_iff.mpr ⟨_, r₂, operator?_of_takes hop hs, ?_⟩
    refine bind_eq_ok_iff.mpr ⟨_, r₃, (operand_eq_ok_iff hr₂).mpr ⟨_, hA, hsource⟩, ?_⟩
    exact bind_eq_ok_iff.mpr ⟨(), r', expect_eol_eq_ok_iff.mpr heol, rfl⟩
  | binary _ hA hs hB =>
    obtain ⟨r₁, heq, h⟩ := h.uncons
    obtain ⟨r₂, hleft, h⟩ := h.uncons
    obtain ⟨r₃, hop, h⟩ := h.uncons
    obtain ⟨r₄, hright, heol⟩ := h.uncons
    have hr₁ := heq.whole hr
    have hr₃ := hop.whole (hleft.whole hr₁)
    refine bind_eq_ok_iff.mpr ⟨(), r₁, expectSymbol_eq_ok_iff.mpr heq, ?_⟩
    refine bind_eq_ok_iff.mpr ⟨_, r₁, operator?_of_not_symbol hleft hA.kind_ne_symbol, ?_⟩
    refine bind_eq_ok_iff.mpr ⟨_, r₂, (operand_eq_ok_iff hr₁).mpr ⟨_, hA, hleft⟩, ?_⟩
    rw [get_bind, takes_singleton_iff.mp hop]
    refine bind_eq_ok_iff.mpr ⟨_, r₃, operator?_of_takes hop hs, ?_⟩
    refine bind_eq_ok_iff.mpr ⟨_, r₄, (operand_eq_ok_iff hr₃).mpr ⟨_, hB, hright⟩, ?_⟩
    exact bind_eq_ok_iff.mpr ⟨(), r', expect_eol_eq_ok_iff.mpr heol, rfl⟩

theorem derives_of_bodyPart (hr : r.Whole) {starts : List String} {n : Int} {b : Instr.Body}
    (h : bodyPart starts r = .ok (n, b) r') :
    ∃ ls, b.Derives ls ∧ r.Takes (ls ++ [.eol]) r' ∧ r.nextLine? = some n := by
  obtain ⟨_ | ⟨⟨L, k⟩, ts⟩, m⟩ := r
  · cases h
  have htake : Takes ⟨⟨L, k⟩ :: ts, m⟩ [L] ⟨ts, k⟩ := .step m (.done _)
  have hts := htake.whole hr
  cases L with
  | goto =>
    obtain ⟨_, r₁, elabel, h⟩ := bind_eq_ok_iff.mp h
    obtain ⟨target, rfl, hlabel⟩ := (label_eq_ok_iff hts).mp elabel
    obtain ⟨_, r₂, eeol, h⟩ := bind_eq_ok_iff.mp h
    obtain ⟨⟨rfl, rfl⟩, rfl⟩ := by simpa [pure_eq_ok_iff] using h
    exact ⟨_, .jump target, htake.append (hlabel.append (expect_eol_eq_ok_iff.mp eeol)), rfl⟩
  | ifTrue =>
    obtain ⟨_, r₁, ebody, h⟩ := bind_eq_ok_iff.mp h
    obtain ⟨⟨rfl, rfl⟩, rfl⟩ := by simpa [pure_eq_ok_iff] using h
    obtain ⟨ls, hb, hls⟩ := derives_of_branchBody hts ebody
    exact ⟨_, hb, htake.append hls, rfl⟩
  | ifFalse =>
    obtain ⟨_, r₁, ebody, h⟩ := bind_eq_ok_iff.mp h
    obtain ⟨⟨rfl, rfl⟩, rfl⟩ := by simpa [pure_eq_ok_iff] using h
    obtain ⟨ls, hb, hls⟩ := derives_of_branchUnlessBody hts ebody
    exact ⟨_, hb, htake.append hls, rfl⟩
  | identifier dest =>
    obtain ⟨_, r₁, ebody, h⟩ := bind_eq_ok_iff.mp h
    obtain ⟨⟨rfl, rfl⟩, rfl⟩ := by simpa [pure_eq_ok_iff] using h
    obtain ⟨ls, hb, hls⟩ := derives_of_assignmentBody hts ebody
    exact ⟨_, hb, htake.append hls, rfl⟩
  | blank k => exact absurd rfl (hr _ List.mem_cons_self k)
  | integerLiteral _ => cases h
  | symbol _ => cases h
  | label _ => cases h
  | eol => cases h

theorem bodyPart_of_derives (hr : r.Whole) {starts : List String} {n : Int} {b : Instr.Body}
    (hb : b.Derives ls) (h : r.Takes (ls ++ [.eol]) r') (hn : r.nextLine? = some n) :
    bodyPart starts r = .ok (n, b) r' := by
  cases ls with
  | nil => cases hb
  | cons L ls =>
    rcases h with _ | @⟨_, _, ts, k, _, m, h⟩
    obtain rfl := Option.some.inj hn
    have hts : Whole ⟨ts, k⟩ := fun t ht => hr t (List.mem_cons_of_mem _ ht)
    cases L with
    | goto =>
      cases hb with
      | jump target =>
        obtain ⟨r₁, hlabel, heol⟩ := h.uncons
        refine bind_eq_ok_iff.mpr ⟨_, r₁, (label_eq_ok_iff hts).mpr ⟨target, rfl, hlabel⟩, ?_⟩
        exact bind_eq_ok_iff.mpr ⟨(), r', expect_eol_eq_ok_iff.mpr heol, rfl⟩
    | ifTrue => exact bind_eq_ok_iff.mpr ⟨b, r', branchBody_of_derives hts hb h, rfl⟩
    | ifFalse => exact bind_eq_ok_iff.mpr ⟨b, r', branchUnlessBody_of_derives hts hb h, rfl⟩
    | identifier dest =>
      exact bind_eq_ok_iff.mpr ⟨b, r', assignmentBody_of_derives hts hb h, rfl⟩
    | integerLiteral _ => cases hb
    | symbol _ => cases hb
    | label _ => cases hb
    | eol => cases hb
    | blank _ => cases hb

theorem takes_of_labelPart (hr : r.Whole) {o : Option String} (h : labelPart r = .ok o r') :
    r.Takes (Instr.labelTokens o) r' := by
  obtain ⟨_ | ⟨⟨L, k⟩, ts⟩, m⟩ := r
  · obtain ⟨rfl, rfl⟩ := by simpa [labelPart] using h
    exact .done _
  cases L with
  | label name =>
    obtain ⟨_, r₁, ecolon, h⟩ := bind_eq_ok_iff.mp h
    obtain ⟨rfl, rfl⟩ := pure_eq_ok_iff.mp h
    exact .step m (expectSymbol_eq_ok_iff.mp ecolon)
  | blank k => exact absurd rfl (hr _ List.mem_cons_self k)
  | _ =>
    obtain ⟨rfl, rfl⟩ := by simpa [labelPart] using h
    exact .done _

/-- A label is taken if one is there; what follows is the start of a body. -/
theorem labelPart_of_takes {o : Option String} (h : r.Takes (Instr.labelTokens o) r₁)
    (hrest : r₁.Takes (L :: ls) r') (hL : L.kind ≠ .label) : labelPart r = .ok o r₁ := by
  cases o with
  | some name =>
    rcases h with _ | ⟨m, h⟩
    exact bind_eq_ok_iff.mpr ⟨(), r₁, expectSymbol_eq_ok_iff.mpr h, rfl⟩
  | none =>
    obtain rfl := takes_nil_iff.mp h
    obtain ⟨n, ts, hpending⟩ := hrest.head
    cases L with
    | label name => exact absurd rfl hL
    | blank k =>
      cases k with
      | label => exact absurd rfl hL
      | _ => simp [labelPart, hpending]
    | _ => simp [labelPart, hpending]

/-- Reading an instruction takes just what the grammar derives. -/
theorem instruction_eq_ok_iff (hr : r.Whole) {i : Instr} :
    instruction r = .ok i r' ↔ r.TakesInstr i r' := by
  constructor
  · intro h
    obtain ⟨o, r₁, elabel, h⟩ := bind_eq_ok_iff.mp h
    have hlabel := takes_of_labelPart hr elabel
    obtain ⟨⟨n, b⟩, r₂, ebody, h⟩ := bind_eq_ok_iff.mp h
    obtain ⟨ls, hb, hls, hn⟩ := derives_of_bodyPart (hlabel.whole hr) ebody
    obtain ⟨rfl, rfl⟩ := pure_eq_ok_iff.mp h
    exact ⟨ls, r₁, hb, hlabel, hls, hn⟩
  · rintro ⟨ls, r₁, hb, hlabel, hls, hn⟩
    obtain ⟨L, ks, rfl, hL⟩ := hb.head
    refine bind_eq_ok_iff.mpr ⟨i.label, r₁, labelPart_of_takes hlabel hls hL, ?_⟩
    exact bind_eq_ok_iff.mpr ⟨_, r', bodyPart_of_derives (hlabel.whole hr) hb hls hn, rfl⟩

end Reader

/-! ## All instructions -/

namespace Parsing

variable {p : Parsing} {fuel : Nat} {is : List Instr}

theorem mapError_result_eq_ok_iff :
    p.result.mapError SourceError.rejected = .ok is ↔ p.faults = [] ∧ p.instrs = is := by
  unfold result
  cases p.faults with
  | nil =>
    show Except.ok p.instrs = .ok is ↔ _
    simp
  | cons f faults =>
    show Except.error (SourceError.rejected ⟨f :: faults⟩) = .ok is ↔ _
    simp

/-- Faults are never forgotten. -/
theorem faults_readOn_ne_nil (h : p.faults ≠ []) : (readOn fuel p).2.faults ≠ [] := by
  fun_induction readOn fuel p with
  | case1 p => exact h
  | case2 fuel p hempty => exact h
  | case3 fuel p hne i r hi ih => exact ih h
  | case4 fuel p hne f r hf ih => exact ih (by simp)
  | case5 fuel p hne e r he => exact h

theorem readOn_step {r' : Reader} {i : Instr} (hr : p.reader.Whole)
    (hi : p.reader.TakesInstr i r') :
    readOn (fuel + 1) p =
      readOn fuel
        { p with
          reader := r'
          instrs := p.instrs ++ [i]
          nameless := p.nameless || p.reader.hasNameless } := by
  have hne : p.reader.pending ≠ [] := by
    have hlt := hi.length_lt
    rintro hnil
    rw [hnil] at hlt
    exact Nat.not_lt_zero _ hlt
  simp [readOn, hne, (Reader.instruction_eq_ok_iff hr).mpr hi]

/-- Enough fuel reads all instructions that the tokens hold. -/
theorem readOn_of_reads {r : Reader} (hr : r.Whole) (h : r.Reads is) (hp : p.reader = r)
    (hfuel : r.pending.length ≤ fuel) :
    (readOn fuel p).1 = .ok () ∧ (readOn fuel p).2.faults = p.faults ∧
      (readOn fuel p).2.instrs = p.instrs ++ is := by
  induction h generalizing p fuel with
  | done n => cases fuel <;> simp [readOn, hp]
  | @step r r' i is hi his ih =>
    subst hp
    -- An instruction takes at least one token, so there is fuel left for the others.
    have hlt := hi.length_lt
    obtain ⟨fuel, rfl⟩ : ∃ k, fuel = k + 1 := Nat.exists_eq_succ_of_ne_zero (by omega)
    have hrest : r'.pending.length ≤ fuel := by omega
    rw [readOn_step hr hi, List.append_cons p.instrs i is]
    refine ih (hi.whole hr) ?_ hrest
    rfl

/-- If there is no fault, the tokens hold the instructions that were read. -/
theorem reads_of_readOn (hr : p.reader.Whole) (hfuel : p.reader.pending.length ≤ fuel)
    (hok : (readOn fuel p).1 = .ok ()) (hfaults : (readOn fuel p).2.faults = []) :
    ∃ is, p.reader.Reads is ∧ (readOn fuel p).2.instrs = p.instrs ++ is := by
  have hdone : ∀ p : Parsing, p.reader.pending = [] → p.reader.Reads [] := by
    rintro ⟨⟨pending, n⟩, -⟩ rfl
    exact .done n
  fun_induction readOn fuel p with
  | case1 p => exact ⟨[], hdone p (by simpa using hfuel), by simp⟩
  | case2 fuel p hempty => exact ⟨[], hdone p (by simpa using hempty), by simp⟩
  | case3 fuel p hne i r hi ih =>
    have htakes := (Reader.instruction_eq_ok_iff hr).mp hi
    have hlt := htakes.length_lt
    obtain ⟨is, his, hinstrs⟩ := ih (htakes.whole hr) (by simp only; omega) hok hfaults
    exact ⟨i :: is, .step htakes his, by simpa using hinstrs⟩
  | case4 fuel p hne f r hf ih => exact absurd hfaults (faults_readOn_ne_nil (by simp))
  | case5 fuel p hne e r he => cases hok

end Parsing

theorem Instr.ofTokens_eq (tokens : List Token) :
    ofTokens tokens =
      match Parsing.readOn tokens.length (.ofTokens tokens) with
      | (.ok (), p) => p.result.mapError .rejected
      | (.error e, _) => .error (.numeral e) := by
  show (Parsing.parse (.ofTokens tokens)).1 = _
  have hrun : (if (Parsing.ofTokens tokens).complete then (.ok (), Parsing.ofTokens tokens)
      else Parsing.readOn (Parsing.ofTokens tokens).reader.pending.length (.ofTokens tokens)) =
      Parsing.readOn tokens.length (.ofTokens tokens) := rfl
  unfold Parsing.parse
  rw [hrun]
  rcases Parsing.readOn tokens.length (.ofTokens tokens) with ⟨_ | _, p⟩
  · rfl
  · rfl

theorem Instr.ofTokens_eq_ok_iff_readOn {tokens : List Token} {is : List Instr} :
    ofTokens tokens = .ok is ↔
      (Parsing.readOn tokens.length (.ofTokens tokens)).1 = .ok () ∧
        (Parsing.readOn tokens.length (.ofTokens tokens)).2.faults = [] ∧
        (Parsing.readOn tokens.length (.ofTokens tokens)).2.instrs = is := by
  rw [ofTokens_eq]
  rcases Parsing.readOn tokens.length (.ofTokens tokens) with ⟨_ | _, p⟩
  · simp
  · simp [Parsing.mapError_result_eq_ok_iff]

/-- Tokens are accepted if and only if they hold instructions, one after the other. -/
theorem Instr.ofTokens_eq_ok_iff {tokens : List Token} {is : List Instr}
    (hr : (Reader.ofTokens tokens).Whole) :
    ofTokens tokens = .ok is ↔ (Reader.ofTokens tokens).Reads is := by
  rw [ofTokens_eq_ok_iff_readOn]
  constructor
  · rintro ⟨hok, hfaults, rfl⟩
    obtain ⟨is, his, hinstrs⟩ :=
      Parsing.reads_of_readOn (p := .ofTokens tokens) hr (Nat.le_refl _) hok hfaults
    have hall : (Parsing.readOn tokens.length (.ofTokens tokens)).2.instrs = is := hinstrs
    rwa [hall]
  · intro h
    exact Parsing.readOn_of_reads hr h rfl (Nat.le_refl _)

end FlowTrace
