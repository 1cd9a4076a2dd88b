/-!
# Tables

A table maps keys to values and keeps its keys in the order in which they were first put in.
Putting in a key again changes its value and leaves its place.
-/

namespace FlowTrace

universe u v w

/-- A finite map that remembers the order of its keys. -/
@[ext] structure Table (κ : Type u) (ν : Type v) where
  entries : List (κ × ν)
  nodup : (entries.map Prod.fst).Nodup

namespace Table

variable {κ : Type u} {ν : Type v} {μ : Type w}

instance [DecidableEq κ] [DecidableEq ν] : DecidableEq (Table κ ν) := fun s t =>
  decidable_of_iff (s.entries = t.entries) ⟨Table.ext, fun h => h ▸ rfl⟩

instance [Repr κ] [Repr ν] : Repr (Table κ ν) where
  reprPrec t n := reprPrec t.entries n

def empty : Table κ ν := ⟨[], .nil⟩

instance : Inhabited (Table κ ν) := ⟨empty⟩

/-- The keys in their order. -/
def keys (t : Table κ ν) : List κ := t.entries.map Prod.fst

def values (t : Table κ ν) : List ν := t.entries.map Prod.snd

def size (t : Table κ ν) : Nat := t.entries.length

theorem keys_nodup (t : Table κ ν) : t.keys.Nodup := t.nodup

/-- Compute new values from keys and values. -/
def mapEntries (t : Table κ ν) (f : κ → ν → μ) : Table κ μ where
  entries := t.entries.map fun e => (e.1, f e.1 e.2)
  nodup := by
    have h : (t.entries.map fun e => (e.1, f e.1 e.2)).map Prod.fst = t.entries.map Prod.fst := by
      simp
    rw [h]; exact t.nodup

@[simp] theorem keys_mapEntries (t : Table κ ν) (f : κ → ν → μ) :
    (t.mapEntries f).keys = t.keys := by
  simp [keys, mapEntries]

section Lookup

variable [DecidableEq κ]

theorem lookup_cons (k : κ) (e : κ × ν) (es : List (κ × ν)) :
    (e :: es).lookup k = if e.1 = k then some e.2 else es.lookup k := by
  rw [List.lookup_cons]
  by_cases h : e.1 = k
  · simp [h]
  · have h' : (k == e.1) = false := beq_eq_false_iff_ne.mpr fun e => h e.symm
    simp [h, h']

/-- The value of a key. -/
def get? (t : Table κ ν) (k : κ) : Option ν := t.entries.lookup k

def contains (t : Table κ ν) (k : κ) : Bool := (t.get? k).isSome

/-- Put a value under a key in a list of entries. -/
def putEntry (k : κ) (v : ν) : List (κ × ν) → List (κ × ν)
  | [] => [(k, v)]
  | e :: es => if e.1 = k then (k, v) :: es else e :: putEntry k v es

theorem map_fst_putEntry (k : κ) (v : ν) (es : List (κ × ν)) :
    (putEntry k v es).map Prod.fst =
      if k ∈ es.map Prod.fst then es.map Prod.fst else es.map Prod.fst ++ [k] := by
  induction es with
  | nil => rfl
  | cons e es ih =>
    by_cases h : e.1 = k
    · simp [putEntry, h]
    · have h' : ¬ k = e.1 := fun e => h e.symm
      simp only [putEntry, h, if_false, List.map_cons, ih, List.mem_cons, h', false_or]
      split <;> simp

theorem nodup_putEntry (k : κ) (v : ν) {es : List (κ × ν)} (h : (es.map Prod.fst).Nodup) :
    ((putEntry k v es).map Prod.fst).Nodup := by
  rw [map_fst_putEntry]
  split
  · exact h
  · next hk =>
    refine List.nodup_append.mpr ⟨h, by simp, fun a ha b hb => ?_⟩
    rw [List.mem_singleton] at hb
    exact fun e => hk (hb ▸ e ▸ ha)

/-- Put a value under a key. -/
def insert (t : Table κ ν) (k : κ) (v : ν) : Table κ ν :=
  ⟨putEntry k v t.entries, nodup_putEntry k v t.nodup⟩

theorem keys_insert (t : Table κ ν) (k : κ) (v : ν) :
    (t.insert k v).keys = if k ∈ t.keys then t.keys else t.keys ++ [k] :=
  map_fst_putEntry k v t.entries

theorem lookup_putEntry (k k' : κ) (v : ν) (es : List (κ × ν)) :
    (putEntry k v es).lookup k' = if k' = k then some v else es.lookup k' := by
  induction es with
  | nil => simp [putEntry, lookup_cons, eq_comm]
  | cons e es ih =>
    by_cases h : e.1 = k
    · by_cases h' : k' = k
      · simp [putEntry, lookup_cons, h, h']
      · have hk : ¬ k = k' := fun e => h' e.symm
        simp [putEntry, lookup_cons, h, h', hk]
    · by_cases h' : k' = k
      · simpa [putEntry, lookup_cons, h, h'] using ih
      · simp [putEntry, lookup_cons, h, ih, h']

@[simp] theorem get?_insert (t : Table κ ν) (k k' : κ) (v : ν) :
    (t.insert k v).get? k' = if k' = k then some v else t.get? k' :=
  lookup_putEntry k k' v t.entries

@[simp] theorem get?_empty (k : κ) : (empty : Table κ ν).get? k = none := rfl

/-- Put in the entries of a list, one after the other. -/
def insertAll (t : Table κ ν) (es : List (κ × ν)) : Table κ ν :=
  es.foldl (fun t e => t.insert e.1 e.2) t

def ofList (es : List (κ × ν)) : Table κ ν := empty.insertAll es

/-- Put the entries of the second table over those of the first. -/
def overlay (s t : Table κ ν) : Table κ ν := s.insertAll t.entries

/-- Change the value of a key that is there. -/
def modify (t : Table κ ν) (k : κ) (f : ν → ν) : Table κ ν :=
  t.mapEntries fun k' v => if k' = k then f v else v

@[simp] theorem keys_modify (t : Table κ ν) (k : κ) (f : ν → ν) : (t.modify k f).keys = t.keys :=
  keys_mapEntries t _

end Lookup

end Table

end FlowTrace
