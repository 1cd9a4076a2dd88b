import Std.Data.ExtTreeSet

/-!
# Lattices of facts

The operations of a join-semilattice with a least element, as a dataflow analysis uses them, and the
lattice of sets of names.  Sets are joined by union and ordered by inclusion; there is a greatest
set only if the universe is given.
-/

namespace FlowTrace

/-- Why a lattice has no greatest element to give. -/
inductive NoTop where
  /-- None was given. -/
  | unspecified
  /-- The sets are over an open universe. -/
  | openUniverse
deriving DecidableEq, Repr

def NoTop.message : NoTop → String
  | unspecified => "top() not implemented for this lattice"
  | openUniverse => "open powerset has no top"

/-- Facts that can be joined and compared. -/
structure FactLattice (α : Type) where
  bottom : α
  join : α → α → α
  leq : α → α → Bool
  eq : α → α → Bool := fun a b => leq a b && leq b a
  top : Except NoTop α := .error .unspecified

/-- The join of a list, from the least element on. -/
def FactLattice.joinAll {α : Type} (L : FactLattice α) (values : List α) : α :=
  values.foldl L.join L.bottom

/-! ## Sets of names -/

/-- A finite set of variable names or definition tags.  Two sets with the same members are equal. -/
abbrev NameSet := Std.ExtTreeSet String

namespace NameSet

def ofList (names : List String) : NameSet := Std.ExtTreeSet.ofList names

/-- Whether every member of the first set is one of the second. -/
def isSubset (s t : NameSet) : Bool := s.toList.all t.contains

def lattice (whole : Option NameSet) : FactLattice NameSet where
  bottom := ∅
  join := (· ∪ ·)
  leq := isSubset
  eq := fun s t => s == t
  top := match whole with
    | some u => .ok u
    | none => .error .openUniverse

/-- Sets over an open universe. -/
def openLattice : FactLattice NameSet := lattice none

/-- An order in which the members of each set come. -/
structure Enumeration where
  members : NameSet → List String
  perm : ∀ s, (members s).Perm s.toList

/-- The members by code points. -/
def Enumeration.byCodePoints : Enumeration := ⟨Std.ExtTreeSet.toList, fun _ => .refl _⟩

end NameSet

end FlowTrace
