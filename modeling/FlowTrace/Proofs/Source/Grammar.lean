import FlowTrace.Source.Parse

/-!
# The grammar of instructions

Which tokens make up an instruction, and what it means that they are the tokens that come next.
-/

namespace FlowTrace

open Token (Lexeme)

/-! ## Derivations -/

/-- The token that an operand is. -/
inductive Operand.Derives : Operand → Lexeme → Prop
  | var (name : String) : Derives (.var name) (.identifier name)
  | lit {digits : String} {value : Int} (h : Text.readInt digits = .ok value) :
    Derives (.lit value) (.integerLiteral digits)

theorem Operand.Derives.kind_ne_symbol {o : Operand} {L : Lexeme} (h : o.Derives L) :
    L.kind ≠ .symbol := by
  cases h <;> simp [Lexeme.kind]

namespace Instr

/-- The tokens that make up what an instruction does. -/
inductive Body.Derives : Body → List Lexeme → Prop
  | jump (target : String) : Derives (.jump (some target)) [.goto, .label target]
  | branch {left right : Operand} {a b : Lexeme} {op : Relation} {s : String}
    (ha : left.Derives a) (hs : Relation.ofSymbol? s = some op) (hb : right.Derives b)
    (target : String) :
    Derives (.branch left op right (some target))
      [.ifTrue, a, .symbol s, b, .goto, .label target]
  | branchIf (name target : String) :
    Derives (.branchIf name (some target)) [.ifTrue, .identifier name, .goto, .label target]
  | branchUnless (name target : String) :
    Derives (.branchUnless name (some target)) [.ifFalse, .identifier name, .goto, .label target]
  | copy (dest : String) {source : Operand} {a : Lexeme} (ha : source.Derives a) :
    Derives (.copy dest source) [.identifier dest, .symbol "=", a]
  | unary (dest : String) {operand : Operand} {a : Lexeme} {op : UnaryOp} {s : String}
    (hs : UnaryOp.ofSymbol? s = some op) (ha : operand.Derives a) :
    Derives (.unary dest op operand) [.identifier dest, .symbol "=", .symbol s, a]
  | binary (dest : String) {left right : Operand} {a b : Lexeme} {op : BinaryOp} {s : String}
    (ha : left.Derives a) (hs : BinaryOp.ofSymbol? s = some op) (hb : right.Derives b) :
    Derives (.binary dest left op right) [.identifier dest, .symbol "=", a, .symbol s, b]

/-- A body does not start with a label. -/
theorem Body.Derives.head {b : Body} {ls : List Lexeme} (h : b.Derives ls) :
    ∃ L ks, ls = L :: ks ∧ L.kind ≠ .label := by
  cases h <;> exact ⟨_, _, rfl, by simp [Lexeme.kind]⟩

/-- The tokens of a label in front of a body. -/
def labelTokens : Option String → List Lexeme
  | some label => [.label label, .symbol ":"]
  | none => []

/-- The tokens that make up an instruction, up to the end of its line. -/
def Derives (i : Instr) (ls : List Lexeme) : Prop :=
  ∃ body, i.body.Derives body ∧ ls = labelTokens i.label ++ body

end Instr

namespace Reader

/-! ## Taking tokens -/

/-- The given tokens come next; taking them leads to the other reader. -/
inductive Takes : Reader → List Lexeme → Reader → Prop
  | done (r : Reader) : Takes r [] r
  | step {L : Lexeme} {ls : List Lexeme} {ts : List Token} {n : Int} {r' : Reader} (m : Int)
    (h : Takes ⟨ts, n⟩ ls r') : Takes ⟨⟨L, n⟩ :: ts, m⟩ (L :: ls) r'

/-- Every token carries the text that it should carry. -/
def Whole (r : Reader) : Prop := ∀ t ∈ r.pending, ∀ k, t.lexeme ≠ .blank k

/-- The line of the token that comes next. -/
def nextLine? (r : Reader) : Option Int := r.pending.head?.map (·.line)

variable {r r₁ r' : Reader} {L : Lexeme} {ls ks : List Lexeme}

@[simp] theorem takes_nil_iff : r.Takes [] r' ↔ r = r' := by
  constructor
  · rintro ⟨⟩
    rfl
  · rintro rfl
    exact .done r

theorem takes_singleton_iff :
    r.Takes [L] r' ↔ r.pending = ⟨L, r'.lastLine⟩ :: r'.pending := by
  constructor
  · rintro (_ | ⟨m, ⟨⟩⟩)
    rfl
  · intro h
    obtain ⟨pending, m⟩ := r
    obtain rfl : pending = _ := h
    exact .step m (.done r')

theorem Takes.append (h : r.Takes ls r₁) (h' : r₁.Takes ks r') : r.Takes (ls ++ ks) r' := by
  induction h with
  | done r => exact h'
  | step m _ ih => exact .step m (ih h')

theorem Takes.split (h : r.Takes (ls ++ ks) r') : ∃ r₁, r.Takes ls r₁ ∧ r₁.Takes ks r' := by
  induction ls generalizing r with
  | nil => exact ⟨r, .done r, h⟩
  | cons L ls ih =>
    rcases h with _ | ⟨m, h⟩
    obtain ⟨r₁, h₁, h'⟩ := ih h
    exact ⟨r₁, .step m h₁, h'⟩

/-- The first token, and then the others. -/
theorem Takes.uncons (h : r.Takes (L :: ls) r') : ∃ r₁, r.Takes [L] r₁ ∧ r₁.Takes ls r' := by
  change r.Takes ([L] ++ ls) r' at h
  exact h.split

theorem Takes.head (h : r.Takes (L :: ls) r') : ∃ n ts, r.pending = ⟨L, n⟩ :: ts := by
  obtain ⟨r₁, h₁, -⟩ := h.uncons
  exact ⟨_, _, takes_singleton_iff.mp h₁⟩

theorem Takes.length_add (h : r.Takes ls r') :
    r'.pending.length + ls.length = r.pending.length := by
  induction h with
  | done r => rfl
  | step m _ ih => simp only [List.length_cons, ← ih, Nat.add_assoc]

/-- The tokens that are taken were pending. -/
theorem Takes.exists_mem (h : r.Takes ls r') (hL : L ∈ ls) : ∃ t ∈ r.pending, t.lexeme = L := by
  induction h with
  | done r => cases hL
  | step m _ ih =>
    rcases List.mem_cons.mp hL with rfl | hL
    · exact ⟨_, List.mem_cons_self, rfl⟩
    · obtain ⟨t, ht, rfl⟩ := ih hL
      exact ⟨t, List.mem_cons_of_mem _ ht, rfl⟩

/-- The tokens that are left were pending. -/
theorem Takes.pending_subset (h : r.Takes ls r') : r'.pending ⊆ r.pending := by
  induction h with
  | done r => exact fun t ht => ht
  | step m _ ih => exact fun t ht => List.mem_cons_of_mem _ (ih ht)

theorem Takes.whole (h : r.Takes ls r') (hr : r.Whole) : r'.Whole :=
  fun t ht => hr t (h.pending_subset ht)

/-- The tokens of an instruction come next, and its line is that of its first token after the
label. -/
def TakesInstr (r : Reader) (i : Instr) (r' : Reader) : Prop :=
  ∃ ls r₁, i.body.Derives ls ∧ r.Takes (Instr.labelTokens i.label) r₁ ∧
    r₁.Takes (ls ++ [.eol]) r' ∧ r₁.nextLine? = some i.line

theorem TakesInstr.derives {i : Instr} (h : r.TakesInstr i r') :
    ∃ ls, i.Derives ls ∧ r.Takes (ls ++ [.eol]) r' := by
  obtain ⟨ls, r₁, hb, hlabel, hls, -⟩ := h
  refine ⟨_, ⟨ls, hb, rfl⟩, ?_⟩
  rw [List.append_assoc]
  exact hlabel.append hls

theorem TakesInstr.length_lt {i : Instr} (h : r.TakesInstr i r') :
    r'.pending.length < r.pending.length := by
  obtain ⟨ls, -, h⟩ := h.derives
  have hlength := h.length_add
  rw [List.length_append, List.length_singleton] at hlength
  omega

theorem TakesInstr.whole {i : Instr} (h : r.TakesInstr i r') (hr : r.Whole) : r'.Whole := by
  obtain ⟨ls, -, h⟩ := h.derives
  exact h.whole hr

/-- The pending tokens are those of the given instructions, one after the other. -/
inductive Reads : Reader → List Instr → Prop
  | done (n : Int) : Reads ⟨[], n⟩ []
  | step {r r' : Reader} {i : Instr} {is : List Instr} (hi : r.TakesInstr i r')
    (his : Reads r' is) : Reads r (i :: is)

end Reader

end FlowTrace
