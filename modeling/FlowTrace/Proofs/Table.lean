import FlowTrace.Table
import Mathlib.Data.List.Nodup
import Mathlib.Data.List.Perm.Subperm

/-!
# Lookups in tables

What a key has after each operation on a table.  A list of entries is put in from left to right,
so the last entry of a key counts; where no key comes twice the order does not matter.
-/

namespace FlowTrace.Table

universe u v w

variable {κ : Type u} {ν : Type v} {μ : Type w} [DecidableEq κ]

/-! ## Lists of entries -/

theorem lookup_map (f : κ → ν → μ) (k : κ) (es : List (κ × ν)) :
    List.lookup k (es.map fun e => (e.1, f e.1 e.2)) = (List.lookup k es).map (f k) := by
  induction es with
  | nil => rfl
  | cons e es ih =>
    by_cases h : e.1 = k
    · simp [lookup_cons, h]
    · simpa [lookup_cons, h] using ih

/-- A value that is computed from its key. -/
theorem lookup_map_key (f : κ → ν) (k : κ) (ks : List κ) :
    List.lookup k (ks.map fun i => (i, f i)) = if k ∈ ks then some (f k) else none := by
  induction ks with
  | nil => rfl
  | cons i ks ih =>
    by_cases h : i = k
    · simp [lookup_cons, h]
    · have h' : ¬ k = i := fun e => h e.symm
      simpa [lookup_cons, h, h'] using ih

theorem mem_of_lookup {k : κ} {v : ν} {es : List (κ × ν)} (h : List.lookup k es = some v) :
    (k, v) ∈ es := by
  obtain ⟨before, after, rfl, -⟩ := List.lookup_eq_some_iff.mp h
  simp

theorem exists_lookup {k : κ} {v : ν} {es : List (κ × ν)} (h : (k, v) ∈ es) :
    ∃ w, List.lookup k es = some w := by
  induction es with
  | nil => cases h
  | cons e es ih =>
    by_cases he : e.1 = k
    · exact ⟨e.2, by simp [lookup_cons, he]⟩
    · rcases List.mem_cons.mp h with rfl | h
      · exact absurd rfl he
      · simpa [lookup_cons, he] using ih h

theorem lookup_of_mem {k : κ} {v : ν} {es : List (κ × ν)} (hes : (es.map Prod.fst).Nodup)
    (h : (k, v) ∈ es) : List.lookup k es = some v := by
  induction es with
  | nil => cases h
  | cons e es ih =>
    rw [List.map_cons, List.nodup_cons] at hes
    rcases List.mem_cons.mp h with rfl | h
    · simp [lookup_cons]
    · have he : e.1 ≠ k := fun he => hes.1 (he ▸ List.mem_map.mpr ⟨(k, v), h, rfl⟩)
      simpa [lookup_cons, he] using ih hes.2 h

theorem lookup_eq_some_iff {k : κ} {v : ν} {es : List (κ × ν)}
    (hes : (es.map Prod.fst).Nodup) : List.lookup k es = some v ↔ (k, v) ∈ es :=
  ⟨mem_of_lookup, lookup_of_mem hes⟩

/-- Where no key comes twice, a list may be searched from either end. -/
theorem lookup_reverse {es : List (κ × ν)} (hes : (es.map Prod.fst).Nodup) (k : κ) :
    List.lookup k es.reverse = List.lookup k es := by
  have hrev : (es.reverse.map Prod.fst).Nodup := by
    rw [List.map_reverse]; exact List.nodup_reverse.mpr hes
  apply Option.ext
  intro v
  rw [lookup_eq_some_iff hrev, lookup_eq_some_iff hes, List.mem_reverse]

/-- A new key goes to the end. -/
theorem putEntry_of_notMem {e : κ × ν} {es : List (κ × ν)} (h : e.1 ∉ es.map Prod.fst) :
    putEntry e.1 e.2 es = es ++ [e] := by
  induction es with
  | nil => rfl
  | cons d es ih =>
    rw [List.map_cons, List.mem_cons, not_or] at h
    have hd : ¬ d.1 = e.1 := fun he => h.1 he.symm
    simp [putEntry, hd, ih h.2]

/-! ## Tables -/

theorem get?_eq_some_iff {t : Table κ ν} {k : κ} {v : ν} :
    t.get? k = some v ↔ (k, v) ∈ t.entries :=
  lookup_eq_some_iff t.nodup

theorem mem_keys_iff {t : Table κ ν} {k : κ} : k ∈ t.keys ↔ ∃ v, t.get? k = some v := by
  simp only [keys, List.mem_map, get?_eq_some_iff]
  constructor
  · rintro ⟨e, he, rfl⟩
    exact ⟨e.2, he⟩
  · rintro ⟨v, hv⟩
    exact ⟨(k, v), hv, rfl⟩

theorem mem_values_iff {t : Table κ ν} {v : ν} : v ∈ t.values ↔ ∃ k, t.get? k = some v := by
  simp only [values, List.mem_map, get?_eq_some_iff]
  constructor
  · rintro ⟨e, he, rfl⟩
    exact ⟨e.1, he⟩
  · rintro ⟨k, hk⟩
    exact ⟨(k, v), hk, rfl⟩

theorem contains_iff {t : Table κ ν} {k : κ} : t.contains k = true ↔ k ∈ t.keys := by
  rw [mem_keys_iff, contains, Option.isSome_iff_exists]

omit [DecidableEq κ] in
theorem length_keys (t : Table κ ν) : t.keys.length = t.size := List.length_map _

/-- Tables with the same entries have the same size, in whatever order the entries are. -/
theorem size_eq_of_get?_eq {s t : Table κ ν} (h : ∀ k, s.get? k = t.get? k) :
    s.size = t.size := by
  have hperm : s.keys.Perm t.keys := by
    rw [List.perm_ext_iff_of_nodup s.keys_nodup t.keys_nodup]
    intro k
    simp only [mem_keys_iff, h]
  rw [← length_keys, ← length_keys, hperm.length_eq]

/-- A table that has all entries of another one of its size has no others. -/
theorem get?_eq_of_size_eq {s t : Table κ ν} (hsize : s.size = t.size)
    (h : ∀ k v, s.get? k = some v → t.get? k = some v) (k : κ) : s.get? k = t.get? k := by
  have hsub : s.keys ⊆ t.keys := by
    intro k hk
    obtain ⟨v, hv⟩ := mem_keys_iff.mp hk
    exact mem_keys_iff.mpr ⟨v, h k v hv⟩
  have hperm : s.keys.Perm t.keys := by
    refine (List.subperm_of_subset s.keys_nodup hsub).perm_of_length_le ?_
    rw [length_keys, length_keys]
    exact Nat.le_of_eq hsize.symm
  apply Option.ext
  intro v
  refine ⟨h k v, fun hv => ?_⟩
  obtain ⟨w, hw⟩ := mem_keys_iff.mp (hperm.mem_iff.mpr (mem_keys_iff.mpr ⟨v, hv⟩))
  rw [hw, ← h k w hw, hv]

@[simp] theorem get?_mapEntries (t : Table κ ν) (f : κ → ν → μ) (k : κ) :
    (t.mapEntries f).get? k = (t.get? k).map (f k) :=
  lookup_map f k t.entries

@[simp] theorem get?_modify (t : Table κ ν) (k k' : κ) (f : ν → ν) :
    (t.modify k f).get? k' = if k' = k then (t.get? k').map f else t.get? k' := by
  rw [modify, get?_mapEntries]
  split
  · simp
  · simp

theorem get?_insertAll (t : Table κ ν) (es : List (κ × ν)) (k : κ) :
    (t.insertAll es).get? k = (List.lookup k es.reverse).or (t.get? k) := by
  induction es generalizing t with
  | nil => rfl
  | cons e es ih =>
    have hstep : t.insertAll (e :: es) = (t.insert e.1 e.2).insertAll es := rfl
    rw [hstep, ih, List.reverse_cons, List.lookup_append, Option.or_assoc, get?_insert]
    by_cases h : k = e.1
    · simp [lookup_cons, h]
    · have h' : ¬ e.1 = k := fun e => h e.symm
      simp [lookup_cons, h, h']

theorem get?_ofList (es : List (κ × ν)) (k : κ) :
    (ofList es).get? k = List.lookup k es.reverse := by
  rw [ofList, get?_insertAll, get?_empty, Option.or_none]

theorem mem_of_get?_ofList {es : List (κ × ν)} {k : κ} {v : ν} (h : (ofList es).get? k = some v) :
    (k, v) ∈ es := by
  rw [get?_ofList] at h
  exact List.mem_reverse.mp (mem_of_lookup h)

theorem mem_keys_ofList {es : List (κ × ν)} {k : κ} : k ∈ (ofList es).keys ↔ ∃ v, (k, v) ∈ es := by
  rw [mem_keys_iff]
  constructor
  · rintro ⟨v, hv⟩
    exact ⟨v, mem_of_get?_ofList hv⟩
  · rintro ⟨v, hv⟩
    rw [get?_ofList]
    exact exists_lookup (List.mem_reverse.mpr hv)

/-- The last entry of a list counts. -/
theorem ofList_concat (es : List (κ × ν)) (e : κ × ν) :
    ofList (es ++ [e]) = (ofList es).insert e.1 e.2 := List.foldl_append

/-- Keys and values in their order. -/
theorem flatMap_keys (t : Table κ (List μ)) :
    t.keys.flatMap (fun k => (t.get? k).getD []) = t.entries.flatMap Prod.snd := by
  rw [keys, List.flatMap_map]
  refine List.flatMap_congr fun e he => ?_
  rw [get?_eq_some_iff.mpr he]
  rfl

theorem get?_overlay (s t : Table κ ν) (k : κ) :
    (s.overlay t).get? k = (t.get? k).or (s.get? k) := by
  rw [overlay, get?_insertAll, lookup_reverse t.nodup]
  rfl

/-- Entries with new keys come after those that are there. -/
theorem entries_insertAll {t : Table κ ν} {es : List (κ × ν)}
    (h : (t.keys ++ es.map Prod.fst).Nodup) : (t.insertAll es).entries = t.entries ++ es := by
  induction es generalizing t with
  | nil => simp [insertAll]
  | cons e es ih =>
    have hnew : e.1 ∉ t.keys := by
      intro he
      exact (List.nodup_append.mp h).2.2 e.1 he e.1 (by simp) rfl
    have hput : (t.insert e.1 e.2).entries = t.entries ++ [e] :=
      putEntry_of_notMem hnew
    have hkeys : (t.insert e.1 e.2).keys = t.keys ++ [e.1] := by
      rw [keys_insert, if_neg hnew]
    have hstep : t.insertAll (e :: es) = (t.insert e.1 e.2).insertAll es := rfl
    rw [hstep, ih (by simpa [hkeys] using h), hput, List.append_assoc, List.singleton_append]

/-- A list without repeated keys is the list of entries of its table. -/
theorem entries_ofList {es : List (κ × ν)} (h : (es.map Prod.fst).Nodup) :
    (ofList es).entries = es := by
  rw [ofList, entries_insertAll (by simpa [keys, empty] using h)]
  rfl

/-! ## Renamed keys -/

section Renamed

variable {κ' : Type*} [DecidableEq κ'] {σ : κ → κ'} (hσ : Function.Injective σ) (f : ν → μ)

include hσ

theorem lookup_rename (k : κ) (es : List (κ × ν)) :
    List.lookup (σ k) (es.map (Prod.map σ f)) = (List.lookup k es).map f := by
  induction es with
  | nil => rfl
  | cons e es ih =>
    by_cases h : e.1 = k
    · simp [lookup_cons, h]
    · simpa [lookup_cons, h, hσ.eq_iff] using ih

theorem putEntry_rename (k : κ) (v : ν) (es : List (κ × ν)) :
    putEntry (σ k) (f v) (es.map (Prod.map σ f)) = (putEntry k v es).map (Prod.map σ f) := by
  induction es with
  | nil => rfl
  | cons e es ih =>
    by_cases h : e.1 = k
    · simp [putEntry, h]
    · simpa [putEntry, h, hσ.eq_iff] using ih

/-- Renaming the keys keeps the order of the entries. -/
theorem entries_insertAll_rename {t : Table κ ν} {t' : Table κ' μ}
    (h : t'.entries = t.entries.map (Prod.map σ f)) (es : List (κ × ν)) :
    (t'.insertAll (es.map (Prod.map σ f))).entries =
      (t.insertAll es).entries.map (Prod.map σ f) := by
  induction es generalizing t t' with
  | nil => exact h
  | cons e es ih =>
    have hput : (t'.insert (σ e.1) (f e.2)).entries =
        (t.insert e.1 e.2).entries.map (Prod.map σ f) := by
      change putEntry (σ e.1) (f e.2) t'.entries = _
      rw [h, putEntry_rename hσ]
      rfl
    exact ih hput

theorem entries_ofList_rename (es : List (κ × ν)) :
    (ofList (es.map (Prod.map σ f))).entries = (ofList es).entries.map (Prod.map σ f) :=
  entries_insertAll_rename hσ f rfl es

theorem get?_rename {t : Table κ ν} {t' : Table κ' μ}
    (h : t'.entries = t.entries.map (Prod.map σ f)) (k : κ) : t'.get? (σ k) = (t.get? k).map f := by
  rw [get?, h, lookup_rename hσ]
  rfl

end Renamed

end FlowTrace.Table
