import FlowTrace.Lattice.Const
import FlowTrace.Table

/-!
# Pointwise lattices

Tables from names to facts are joined and compared name by name; a name that is missing stands for
the least fact.  Equality also tells a missing name from one that is there with the least fact.
-/

namespace FlowTrace

namespace Pointwise

variable {α : Type}

/-- The fact of a name. -/
def lookup (L : FactLattice α) (m : Table String α) (name : String) : α :=
  (m.get? name).getD L.bottom

/-- Join the entries of the second table into the first: its order stays, new names come after. -/
def join (L : FactLattice α) (s t : Table String α) : Table String α :=
  t.entries.foldl (fun m e => m.insert e.1 (L.join (lookup L m e.1) e.2)) s

def leq (L : FactLattice α) (s t : Table String α) : Bool :=
  s.entries.all fun e => L.leq e.2 (lookup L t e.1)

def eq (L : FactLattice α) (s t : Table String α) : Bool :=
  s.size == t.size && s.entries.all fun e =>
    match t.get? e.1 with
    | some b => L.eq e.2 b
    | none => false

def lattice (L : FactLattice α) : FactLattice (Table String α) where
  bottom := .empty
  join := join L
  leq := leq L
  eq := eq L

end Pointwise

/-- What is known of the variables at a point of a program. -/
abbrev ConstMap := Table String Const

namespace ConstMap

def lattice : FactLattice ConstMap := Pointwise.lattice Const.lattice

/-- What is known of a variable. -/
def lookup (m : ConstMap) (name : String) : Const := Pointwise.lookup Const.lattice m name

end ConstMap

end FlowTrace
