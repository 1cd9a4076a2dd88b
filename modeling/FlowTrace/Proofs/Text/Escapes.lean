import FlowTrace.Text.Style
import Mathlib.Data.List.Forall2
import Std.Data.String.ToNat

/-!
# Escape sequences

A coloured text is the text with sequences around it that select a rendition: an escape character,
`[`, digits and `m`.  This is all that is asked of a way of colouring.  Taking the sequences out
again leaves the text, if it has no escape character of its own.  It also does so where coloured and
plain parts are put together, since no sequence begins in one part and ends in another.
-/

namespace FlowTrace.Text

/-- The character that a sequence starts with. -/
def escapeChar : Char := '\x1b'

/-- What follows a sequence, whose first character has been read. -/
def afterSequence? : List Char → Option (List Char)
  | '[' :: cs =>
    match cs.takeWhile Char.isDigit, cs.dropWhile Char.isDigit with
    | _ :: _, 'm' :: rest => some rest
    | _, _ => none
  | _ => none

theorem length_of_afterSequence? {cs rest : List Char} (h : afterSequence? cs = some rest) :
    rest.length < cs.length := by
  unfold afterSequence? at h
  split at h
  · next cs =>
    split at h
    · next hdrop =>
      obtain rfl := Option.some.inj h
      have hle := (List.dropWhile_suffix Char.isDigit (l := cs)).length_le
      rw [hdrop, List.length_cons] at hle
      rw [List.length_cons]
      omega
    · cases h
  · cases h

/-- The text with all sequences taken out. -/
def unstyledChars : List Char → List Char
  | [] => []
  | c :: cs =>
    if c = escapeChar then
      match h : afterSequence? cs with
      | some rest =>
        have := length_of_afterSequence? h
        unstyledChars rest
      | none => c :: unstyledChars cs
    else c :: unstyledChars cs
termination_by cs => cs.length

def unstyled (s : String) : String := String.ofList (unstyledChars s.toList)

/-! ## Texts without an escape character -/

/-- The text has no escape character of its own. -/
def EscapeFree (s : String) : Prop := escapeChar ∉ s.toList

instance (s : String) : Decidable (EscapeFree s) :=
  inferInstanceAs (Decidable (escapeChar ∉ s.toList))

namespace EscapeFree

@[simp] theorem append_iff {s t : String} : EscapeFree (s ++ t) ↔ EscapeFree s ∧ EscapeFree t := by
  simp [EscapeFree]

@[simp] theorem repr_nat (n : Nat) : EscapeFree n.repr := by
  intro h
  rw [Nat.toList_repr] at h
  exact absurd (Nat.isDigit_of_mem_toDigits (by decide) (Nat.le_refl 10) h) (by decide)

@[simp] theorem repr_int (k : Int) : EscapeFree k.repr := by
  cases k with
  | ofNat n => exact repr_nat n
  | negSucc n => exact append_iff.mpr ⟨by decide, repr_nat (n + 1)⟩

theorem intercalate {sep : String} {l : List String} (hsep : EscapeFree sep)
    (h : ∀ s ∈ l, EscapeFree s) : EscapeFree (sep.intercalate l) := by
  induction l with
  | nil => exact List.not_mem_nil
  | cons s l ih =>
    obtain ⟨hs, hl⟩ := List.forall_mem_cons.mp h
    cases l with
    | nil => simpa using hs
    | cons t l =>
      rw [String.intercalate_cons_cons]
      exact append_iff.mpr ⟨append_iff.mpr ⟨hs, hsep⟩, ih hl⟩

end EscapeFree

/-! ## Styled texts -/

theorem afterSequence?_eq_some {ds : List Char} (hne : ds ≠ [])
    (hds : ∀ c ∈ ds, c.isDigit = true) (rest : List Char) :
    afterSequence? ('[' :: (ds ++ 'm' :: rest)) = some rest := by
  have htake : (ds ++ 'm' :: rest).takeWhile Char.isDigit = ds := by
    rw [List.takeWhile_append_of_pos hds, List.takeWhile_cons_of_neg (by decide), List.append_nil]
  have hdrop : (ds ++ 'm' :: rest).dropWhile Char.isDigit = 'm' :: rest := by
    rw [List.dropWhile_append_of_pos hds, List.dropWhile_cons_of_neg (by decide)]
  obtain ⟨d, ds, rfl⟩ := List.exists_cons_of_ne_nil hne
  rw [afterSequence?, htake, hdrop]
  rfl

theorem unstyledChars_of_afterSequence? {cs rest : List Char}
    (h : afterSequence? cs = some rest) :
    unstyledChars (escapeChar :: cs) = unstyledChars rest := by
  rw [unstyledChars, if_pos rfl]
  split
  · next h' =>
    obtain rfl := Option.some.inj (h'.symm.trans h)
    rfl
  · next h' => cases h'.symm.trans h

/-- An escape character, `[`, digits and `m`. -/
def IsSequence (s : String) : Prop :=
  ∃ ds : List Char, ds ≠ [] ∧ (∀ d ∈ ds, d.isDigit = true) ∧
    s.toList = escapeChar :: '[' :: (ds ++ ['m'])

theorem isSequence_escape (code : Nat) : IsSequence (escape code) :=
  ⟨Nat.toDigits 10 code, Nat.toDigits_ne_nil,
    fun _ => Nat.isDigit_of_mem_toDigits (by decide) (Nat.le_refl 10), by simp [escape, escapeChar]⟩

theorem IsSequence.unstyledChars_append {s : String} (h : IsSequence s) (rest : List Char) :
    unstyledChars (s.toList ++ rest) = unstyledChars rest := by
  obtain ⟨ds, hne, hds, hs⟩ := h
  have hchars : s.toList ++ rest = escapeChar :: '[' :: (ds ++ 'm' :: rest) := by simp [hs]
  rw [hchars]
  exact unstyledChars_of_afterSequence? (afterSequence?_eq_some hne hds rest)

/-- The first text is the second with sequences in it: they come out again, whatever follows. -/
def Styles (s t : String) : Prop :=
  ∀ rest, unstyledChars (s.toList ++ rest) = t.toList ++ unstyledChars rest

namespace Styles

variable {s t s' t' : String}

theorem unstyled_eq (h : Styles s t) : unstyled s = t := by
  have hchars := h []
  rw [List.append_nil, unstyledChars, List.append_nil] at hchars
  rw [unstyled, hchars, String.ofList_toList]

theorem of_escapeFree (h : EscapeFree s) : Styles s s := by
  intro rest
  generalize hcs : s.toList = cs
  have hfree : escapeChar ∉ cs := hcs ▸ h
  clear hcs
  induction cs with
  | nil => rfl
  | cons c cs ih =>
    obtain ⟨hc, hcs⟩ := not_or.mp (mt List.mem_cons.mpr hfree)
    rw [List.cons_append, unstyledChars, if_neg (Ne.symm hc), ih hcs, List.cons_append]

theorem append (h : Styles s t) (h' : Styles s' t') : Styles (s ++ s') (t ++ t') := by
  intro rest
  rw [String.toList_append, String.toList_append, List.append_assoc, h, h', List.append_assoc]

theorem sequences_append {qs : List String} (hqs : ∀ q ∈ qs, IsSequence q) (h : Styles s t) :
    Styles (String.join qs ++ s) t := by
  induction qs with
  | nil => simpa using h
  | cons q qs ih =>
    obtain ⟨hq, hqs⟩ := List.forall_mem_cons.mp hqs
    intro rest
    rw [String.join_cons, String.append_assoc, String.toList_append, List.append_assoc,
      hq.unstyledChars_append]
    exact ih hqs rest

theorem of_sequences {qs : List String} (hqs : ∀ q ∈ qs, IsSequence q) :
    Styles (String.join qs) "" := by
  simpa using sequences_append hqs (of_escapeFree (s := "") List.not_mem_nil)

theorem intercalate {sep : String} {l l' : List String} (hsep : EscapeFree sep)
    (h : List.Forall₂ Styles l l') : Styles (sep.intercalate l) (sep.intercalate l') := by
  induction h with
  | nil => exact of_escapeFree List.not_mem_nil
  | @cons s t l l' hst hl ih =>
    cases hl with
    | nil => simpa using hst
    | cons _ _ =>
      rw [String.intercalate_cons_cons, String.intercalate_cons_cons]
      exact (hst.append (of_escapeFree hsep)).append ih

end Styles

/-! ## Ways of colouring -/

namespace Coloring

/-- What is asked of a way of colouring: it puts sequences around a text, and does nothing else. -/
def Wraps (colored : Coloring) : Prop :=
  ∀ st s, ∃ before after : List String, (∀ q ∈ before ++ after, IsSequence q) ∧
    colored st s = String.join before ++ s ++ String.join after

/-- Texts of the first way are those of the second with sequences in them. -/
def Restyles (paint plain : Coloring) : Prop :=
  ∀ st s, EscapeFree s → Styles (paint st s) (plain st s)

theorem Wraps.restyles {colored : Coloring} (h : colored.Wraps) :
    Restyles (painter colored true) (painter colored false) := by
  intro st s hs
  obtain ⟨before, after, hqs, heq⟩ := h st s
  obtain ⟨hbefore, hafter⟩ := List.forall_mem_append.mp hqs
  have hstyles := (Styles.sequences_append hbefore (.of_escapeFree hs)).append
    (.of_sequences hafter)
  rw [← heq, String.append_empty] at hstyles
  exact hstyles

end Coloring

/-- Each emphasis is one more sequence in front. -/
theorem foldl_emphases (es : List Emphasis) (s : String) :
    es.foldl (fun acc e => escape e.code ++ acc) s =
      String.join (es.reverse.map fun e => escape e.code) ++ s := by
  induction es generalizing s with
  | nil => simp
  | cons e es ih => simp [ih, String.append_assoc]

theorem wraps_terminalColoring : terminalColoring.Wraps := by
  intro st s
  refine ⟨st.emphases.reverse.map (fun e => escape e.code) ++
    st.color.toList.map (fun c => escape c.code), [escape 0], ?_, ?_⟩
  · simp only [List.forall_mem_append, List.forall_mem_map, List.forall_mem_singleton]
    exact ⟨⟨fun _ _ => isSequence_escape _, fun _ _ => isSequence_escape _⟩, isSequence_escape 0⟩
  · rw [terminalColoring, foldl_emphases]
    cases st.color with
    | none => simp
    | some c => simp [String.append_assoc]

end FlowTrace.Text
