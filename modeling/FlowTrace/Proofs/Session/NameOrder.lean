import FlowTrace.Session.View
import FlowTrace.Proofs.Dataflow.Tags
import FlowTrace.Proofs.Sort
import FlowTrace.Proofs.Source.Spelling
import FlowTrace.Proofs.Text.NaturalKey

/-!
# Names in natural order

The names that views show are identifiers and tags.  They all have keys, unless they have more
digits in a row than can be read, and keys are totally ordered.  A set is shown in the order of the
keys of its members.  So tags are shown by number, and it does not matter in which order a set is
gone through, unless two of its members have equal keys.
-/

namespace FlowTrace

/-- A list of results, if all are good. -/
theorem mapM_eq_ok_iff {α β ε : Type} {f : α → Except ε β} {l : List α} {l' : List β} :
    l.mapM f = .ok l' ↔ List.Forall₂ (fun a b => f a = .ok b) l l' := by
  induction l generalizing l' with
  | nil => cases l' <;> simp [pure, Except.pure]
  | cons a l ih =>
    rw [List.mapM_cons]
    cases ha : f a with
    | error e => cases l' <;> simp [bind, Except.bind, ha]
    | ok b =>
      cases hl : l.mapM f with
      | error e => cases l' <;> simp [bind, Except.bind, ha, ← ih, hl]
      | ok bs => cases l' <;> simp [bind, Except.bind, pure, Except.pure, ha, ← ih, hl]

namespace Text

/-! ## Sorting by keys -/

/-- The key of a name that has one. -/
def keyOf (s : String) : List KeyPiece := (naturalKey s).toOption.getD []

theorem keyOf_eq {s : String} {k : List KeyPiece} (h : naturalKey s = .ok k) : keyOf s = k := by
  rw [keyOf, h]
  rfl

/-- Whether the first name may come before the second. -/
def keyOfLe (a b : String) : Bool := keyLe (keyOf a) (keyOf b)

theorem keyOfLe_total (a b : String) : keyOfLe a b || keyOfLe b a :=
  (Bool.or_eq_true _ _).mpr (keyLe_total _ _)

theorem keyOfLe_trans (a b c : String) (hab : keyOfLe a b) (hbc : keyOfLe b c) : keyOfLe a c :=
  keyLe_trans _ _ _ hab hbc

theorem sortNaturally_eq {names : List String}
    (h : ∀ a ∈ names, naturalKey a = .ok (keyOf a)) :
    sortNaturally names = .ok (names.mergeSort keyOfLe) := by
  have hkeyed : (names.mapM fun a => do return (← naturalKey (id a), a)) =
      (.ok (names.map fun a => (keyOf a, a)) : Except NumeralError _) := by
    rw [mapM_eq_ok_iff, List.forall₂_map_right_iff, List.forall₂_same]
    intro a ha
    rw [id, h a ha]
    rfl
  rw [sortNaturally, sortNaturallyBy, hkeyed]
  have hsorted : (names.map fun a => (keyOf a, a)).mergeSort (fun x y => keyLe x.1 y.1) =
      (names.mergeSort keyOfLe).map fun a => (keyOf a, a) := by
    rw [List.map_mergeSort]
    exact fun _ _ _ _ => rfl
  change Except.ok (((names.map _).mergeSort _).map _) = _
  rw [hsorted, List.map_map]
  exact congrArg Except.ok (List.map_id _)

/-! ## Names -/

theorem isDecimal_iff {c : Char} :
    isDecimal c = true ↔ ∃ z ∈ decimalZeros, z ≤ c.toNat ∧ c.toNat < z + 10 := by
  simp [isDecimal, decimalValue?]

theorem isDigit_iff_toNat {c : Char} : c.isDigit = true ↔ 0x30 ≤ c.toNat ∧ c.toNat < 0x3A := by
  have h : c.isDigit = true ↔ 0x30 ≤ c.toNat ∧ c.toNat ≤ 0x39 := by
    simp [Char.isDigit, UInt32.le_iff_toNat_le]
  rw [h]
  omega

/-- All digits of ASCII are plain. -/
theorem plainDigits_of_ascii {cs : List Char} (h : ∀ c ∈ cs, c.toNat < 0x80) : PlainDigits cs := by
  have hzeros : ∀ z ∈ decimalZeros, z = 0x30 ∨ 0x80 ≤ z := by decide
  have hsigns : ∀ r ∈ digitSignRanges, 0x80 ≤ r.1 := by decide
  intro c hc
  have hlt := h c hc
  constructor
  · rw [Bool.eq_iff_iff, isDecimal_iff, isDigit_iff_toNat]
    constructor
    · rintro ⟨z, hz, hle, hgt⟩
      have := hzeros z hz
      omega
    · rintro ⟨hle, hgt⟩
      exact ⟨0x30, by decide, hle, hgt⟩
  · rw [isDigitSign, ← Bool.not_eq_true, inRanges_iff]
    rintro ⟨r, hr, hle, -⟩
    have := hsigns r hr
    omega

end Text

open Text

/-- The names that a program can bring into a fact: identifiers and tags, without a run of more
digits than can be read. -/
structure IsName (s : String) : Prop where
  spelled : (Token.Lexeme.identifier s).Legal ∨ ∃ k, s = Reaching.tagAt k
  short : ShortRuns s.toList

namespace Reaching

theorem toList_tagAt (k : Nat) : (tagAt k).toList = 'd' :: Nat.toDigits 10 (k + 1) := by
  simp [tagAt]

theorem isDigit_of_mem_toDigits {n : Nat} {c : Char} (h : c ∈ Nat.toDigits 10 n) :
    c.isDigit = true :=
  Nat.isDigit_of_mem_toDigits (by decide) (Nat.le_refl 10) h

theorem ofDigits_toDigits (n : Nat) : ofDigits ((Nat.toDigits 10 n).map digitOf) = n := by
  have hfold : ofDigits ((Nat.toDigits 10 n).map digitOf) =
      Nat.ofDigitChars 10 (Nat.toDigits 10 n) 0 := by
    rw [Nat.ofDigitChars_eq_foldl, ofDigits, List.foldl_map]
    simp only [Nat.mul_comm 10]
    rfl
  rw [hfold, Nat.ofDigitChars_ten_toDigits]

theorem length_toDigits_mono {m n : Nat} (h : m ≤ n) :
    (Nat.toDigits 10 m).length ≤ (Nat.toDigits 10 n).length := by
  have hpos := Nat.length_toDigits_pos (b := 10) (n := n)
  rw [Nat.length_toDigits_le_iff (by decide) hpos]
  exact h.trans_lt ((Nat.length_toDigits_le_iff (by decide) hpos).mp le_rfl)

variable {i k : Nat}

/-- The key of a tag holds its number. -/
theorem isKey_tagAt (hk : (Nat.toDigits 10 (k + 1)).length ≤ digitLimit) :
    IsKey (tagAt k).toList [.text "d", .number ↑(k + 1), .text ""] := by
  have hd : NoDigits ['d'] := List.forall_mem_singleton.mpr (by decide)
  have hrest : NotInDigits [] := fun _ h => by cases h
  have hnil : IsKey [] [.text ""] := .text (List.forall_mem_nil _)
  have hkey := IsKey.number hd Nat.toDigits_ne_nil (fun c => isDigit_of_mem_toDigits) hk hrest hnil
  rw [ofDigits_toDigits] at hkey
  rw [toList_tagAt]
  simpa using hkey

/-- Tags are compared by their numbers. -/
theorem keyOfLe_tagAt (hi : (Nat.toDigits 10 (i + 1)).length ≤ digitLimit)
    (hk : (Nat.toDigits 10 (k + 1)).length ≤ digitLimit) :
    keyOfLe (tagAt i) (tagAt k) = true ↔ i ≤ k := by
  rw [keyOfLe, keyOf_eq (isKey_tagAt hi).mapM_keyPiece, keyOf_eq (isKey_tagAt hk).mapM_keyPiece,
    keyLe_eq_isLE]
  simp only [List.compareLex_cons_cons, List.compareLex_nil_nil, KeyPiece.compare,
    Std.ReflOrd.compare_self, Ordering.eq_then, Ordering.then_eq]
  rw [Std.isLE_compare]
  omega

/-- Tags in any order are sorted by their numbers. -/
theorem sortNaturally_tags (hk : (toString k).length ≤ digitLimit) {l : List String}
    (hl : l.Perm ((List.range k).map tagAt)) :
    sortNaturally l = .ok ((List.range k).map tagAt) := by
  have hshort : ∀ i ∈ List.range k, (Nat.toDigits 10 (i + 1)).length ≤ digitLimit := by
    intro i hi
    rw [Nat.toString_eq_ofList_toDigits, String.length_ofList] at hk
    exact (length_toDigits_mono (List.mem_range.mp hi)).trans hk
  have hkeys : ∀ a ∈ l, naturalKey a = .ok (keyOf a) := by
    intro a ha
    obtain ⟨i, hi, rfl⟩ := List.mem_map.mp (hl.mem_iff.mp ha)
    have hkey := (isKey_tagAt (hshort i hi)).mapM_keyPiece
    rw [keyOf_eq hkey]
    exact hkey
  have hsorted : ((List.range k).map tagAt).Pairwise (keyOfLe · ·) := by
    rw [List.pairwise_map]
    refine List.pairwise_lt_range.imp_of_mem fun hi hj hij => ?_
    exact (keyOfLe_tagAt (hshort _ hi) (hshort _ hj)).mpr hij.le
  have hanti : ∀ a ∈ (List.range k).map tagAt, ∀ b ∈ (List.range k).map tagAt,
      keyOfLe a b → keyOfLe b a → a = b := by
    intro a ha b hb hab hba
    obtain ⟨i, hi, rfl⟩ := List.mem_map.mp ha
    obtain ⟨j, hj, rfl⟩ := List.mem_map.mp hb
    have hij := (keyOfLe_tagAt (hshort i hi) (hshort j hj)).mp hab
    have hji := (keyOfLe_tagAt (hshort j hj) (hshort i hi)).mp hba
    rw [hij.antisymm hji]
  rw [sortNaturally_eq hkeys, mergeSort_eq_of_perm keyOfLe_trans keyOfLe_total hanti hl,
    List.mergeSort_of_pairwise hsorted]

end Reaching

namespace IsName

variable {a b : String}

theorem plainDigits (h : IsName a) : PlainDigits a.toList := by
  refine plainDigits_of_ascii fun c hc => ?_
  rcases h.spelled with hlegal | ⟨k, rfl⟩
  · have := (Token.toNat_of_continuesWord (hlegal.shaped.2 c hc)).2.1
    omega
  · rw [Reaching.toList_tagAt, List.mem_cons] at hc
    rcases hc with rfl | hc
    · decide
    · have := isDigit_iff_toNat.mp (Reaching.isDigit_of_mem_toDigits hc)
      omega

theorem isKey (h : IsName a) : IsKey a.toList (keyOf a) := by
  obtain ⟨k, hk⟩ := exists_isKey h.plainDigits h.short
  rwa [keyOf_eq hk.mapM_keyPiece]

theorem naturalKey_eq (h : IsName a) : naturalKey a = .ok (keyOf a) := h.isKey.mapM_keyPiece

/-- The pieces of two keys at the same place are of the same sort. -/
theorem isNumber_eq (ha : IsName a) (hb : IsName b) {i : Nat} {p q : KeyPiece}
    (hp : (keyOf a)[i]? = some p) (hq : (keyOf b)[i]? = some q) : p.isNumber = q.isNumber :=
  (ha.isKey.isNumber_eq hp).trans (hb.isKey.isNumber_eq hq).symm

/-- Names that may come before each other have equal keys. -/
theorem keyOfLe_and_iff (ha : IsName a) (hb : IsName b) :
    keyOfLe a b ∧ keyOfLe b a ↔ naturalKey a = naturalKey b := by
  rw [ha.naturalKey_eq, hb.naturalKey_eq, Except.ok.injEq]
  constructor
  · exact fun h => keyLe_antisymm h.1 h.2
  · intro h
    rw [keyOfLe, keyOfLe, h]
    exact ⟨keyLe_refl _, keyLe_refl _⟩

end IsName

/-- A set is shown in the same order however it is gone through, exactly if no two of its members
have equal keys. -/
theorem NameSet.view_eq_iff (order : NameSet.Enumeration) {s : NameSet} (hs : ∀ a ∈ s, IsName a) :
    (∀ l : List String, l.Nodup → (∀ a, a ∈ l ↔ a ∈ s) →
      (sortNaturally l).map FactData.names = Viewable.view order s) ↔
    ∀ a ∈ s, ∀ b ∈ s, naturalKey a = naturalKey b → a = b := by
  have hnodup : (order.members s).Nodup := (order.perm s).nodup_iff.mpr s.nodup_toList
  have hmembers : ∀ a, a ∈ order.members s ↔ a ∈ s := fun a => by
    rw [(order.perm s).mem_iff, Std.ExtTreeSet.mem_toList]
  have hperm : ∀ l : List String, (l.Nodup ∧ ∀ a, a ∈ l ↔ a ∈ s) ↔ l.Perm (order.members s) := by
    intro l
    constructor
    · rintro ⟨hl, hmem⟩
      rw [List.perm_ext_iff_of_nodup hl hnodup]
      exact fun a => (hmem a).trans (hmembers a).symm
    · intro h
      exact ⟨h.nodup_iff.mpr hnodup, fun a => h.mem_iff.trans (hmembers a)⟩
  have hsort : ∀ l : List String, l.Perm (order.members s) →
      (sortNaturally l).map FactData.names = .ok (.names (l.mergeSort keyOfLe)) := by
    intro l hl
    rw [sortNaturally_eq fun a ha => (hs a (((hperm l).mpr hl).2 a |>.mp ha)).naturalKey_eq]
    rfl
  have hview : Viewable.view order s = .ok (.names ((order.members s).mergeSort keyOfLe)) :=
    hsort _ (.refl _)
  rw [hview]
  calc (∀ l : List String, l.Nodup → (∀ a, a ∈ l ↔ a ∈ s) →
        (sortNaturally l).map FactData.names =
          .ok (.names ((order.members s).mergeSort keyOfLe)))
      ↔ ∀ l : List String, l.Perm (order.members s) →
          l.mergeSort keyOfLe = (order.members s).mergeSort keyOfLe := by
        refine forall_congr' fun l => ?_
        rw [← and_imp, hperm]
        refine imp_congr_right fun hl => ?_
        rw [hsort l hl, Except.ok.injEq, FactData.names.injEq]
    _ ↔ ∀ a ∈ order.members s, ∀ b ∈ order.members s, keyOfLe a b → keyOfLe b a → a = b :=
        mergeSort_eq_of_perm_iff keyOfLe_trans keyOfLe_total hnodup
    _ ↔ ∀ a ∈ s, ∀ b ∈ s, naturalKey a = naturalKey b → a = b := by
        simp only [hmembers]
        refine forall₂_congr fun a ha => forall₂_congr fun b hb => ?_
        rw [← and_imp, IsName.keyOfLe_and_iff (hs a ha) (hs b hb)]

/-! ## The natural order -/

/-- The first name may come before the second. -/
def NaturallyLe (a b : String) : Prop :=
  ∃ j k, naturalKey a = .ok j ∧ naturalKey b = .ok k ∧ keyLe j k = true

theorem IsName.naturallyLe_iff {a b : String} (ha : IsName a) (hb : IsName b) :
    NaturallyLe a b ↔ keyOfLe a b := by
  simp [NaturallyLe, ha.naturalKey_eq, hb.naturalKey_eq, keyOfLe]

theorem NaturallyLe.trans {a b c : String} (hab : NaturallyLe a b) (hbc : NaturallyLe b c) :
    NaturallyLe a c := by
  obtain ⟨i, j, hi, hj, hij⟩ := hab
  obtain ⟨j', k, hj', hk, hjk⟩ := hbc
  obtain rfl := Except.ok.inj (hj.symm.trans hj')
  exact ⟨i, k, hi, hk, keyLe_trans i j k hij hjk⟩

/-- A name with no superfluous zeros in its numbers. -/
def withoutZeros (s : String) : String := String.ofList (dropZeros false s.toList)

/-- **Natural order.**  The keys of two names exist, and where they are compared they have pieces of
the same sort; they are equal exactly if the names differ in superfluous zeros only.  The order is a
total preorder.  Tags are sorted by their numbers.  A set of names is shown in the same order
however it is gone through, exactly if no two of its members have equal keys. -/
theorem names_in_natural_order :
    (∀ a b, IsName a → IsName b → ∃ j k, naturalKey a = .ok j ∧ naturalKey b = .ok k ∧
      (∀ (i : Nat) p q, j[i]? = some p → k[i]? = some q → p.isNumber = q.isNumber) ∧
      (j = k ↔ withoutZeros a = withoutZeros b)) ∧
    ((∀ a, IsName a → NaturallyLe a a) ∧
      (∀ a b c, NaturallyLe a b → NaturallyLe b c → NaturallyLe a c) ∧
      ∀ a b, IsName a → IsName b → NaturallyLe a b ∨ NaturallyLe b a) ∧
    (∀ k, (toString k).length ≤ digitLimit →
      ∀ l, l.Perm ((List.range k).map fun i => "d" ++ toString (i + 1)) →
        sortNaturally l = .ok ((List.range k).map fun i => "d" ++ toString (i + 1))) ∧
    ∀ (order : NameSet.Enumeration) (s : NameSet), (∀ a ∈ s, IsName a) →
      ((∀ l : List String, l.Nodup → (∀ a, a ∈ l ↔ a ∈ s) →
        (sortNaturally l).map FactData.names = Viewable.view order s) ↔
      ∀ a ∈ s, ∀ b ∈ s, naturalKey a = naturalKey b → a = b) := by
  refine ⟨fun a b ha hb => ?_,
    ⟨fun a ha => ?_, fun a b c => NaturallyLe.trans, fun a b ha hb => ?_⟩,
    fun k hk l => Reaching.sortNaturally_tags hk, fun order s => NameSet.view_eq_iff order⟩
  · refine ⟨_, _, ha.naturalKey_eq, hb.naturalKey_eq, fun i p q => ha.isNumber_eq hb, ?_⟩
    rw [ha.isKey.eq_iff hb.isKey, withoutZeros, withoutZeros, String.ofList_inj]
  · exact (ha.naturallyLe_iff ha).mpr (keyLe_refl _)
  · rw [ha.naturallyLe_iff hb, hb.naturallyLe_iff ha]
    exact keyLe_total _ _

theorem shortRuns_of_length_le {cs : List Char} (h : cs.length ≤ digitLimit) : ShortRuns cs :=
  fun _ hds _ => hds.length_le.trans h

/-- Two identifiers that differ in a superfluous zero: the order in which a set of both is shown
depends on how it is gone through.  Ten tags are sorted by number. -/
theorem padded_names_in_natural_order :
    IsName "x1" ∧ IsName "x01" ∧ naturalKey "x1" = naturalKey "x01" ∧
    (¬ ∀ l : List String, l.Nodup → (∀ a, a ∈ l ↔ a ∈ NameSet.ofList ["x1", "x01"]) →
      (sortNaturally l).map FactData.names =
        Viewable.view .byCodePoints (NameSet.ofList ["x1", "x01"])) ∧
    sortNaturally ((List.range 10).map fun i => "d" ++ toString (i + 1)).reverse =
      .ok ((List.range 10).map fun i => "d" ++ toString (i + 1)) := by
  have hfirst : IsName "x1" := by
    refine ⟨.inl ?_, shortRuns_of_length_le (by decide)⟩
    show Token.classify? "x1".toList = some (.identifier "x1")
    decide
  have hsecond : IsName "x01" := by
    refine ⟨.inl ?_, shortRuns_of_length_le (by decide)⟩
    show Token.classify? "x01".toList = some (.identifier "x01")
    decide
  obtain ⟨hpairs, -, htags, hsets⟩ := names_in_natural_order
  have hkeys : naturalKey "x1" = naturalKey "x01" := by
    obtain ⟨j, k, hj, hk, -, heq⟩ := hpairs "x1" "x01" hfirst hsecond
    rw [hj, hk, heq.mpr (by decide)]
  have hmem : ∀ a ∈ NameSet.ofList ["x1", "x01"], IsName a := by
    simp [hfirst, hsecond]
  refine ⟨hfirst, hsecond, hkeys, ?_, htags 10 (by decide) _ (List.reverse_perm _)⟩
  rw [hsets _ _ hmem]
  exact fun h => absurd (h "x1" (by simp) "x01" (by simp) hkeys) (by decide)

end FlowTrace
