import FlowTrace.Lattice.Basic
import FlowTrace.Text.Numeral

/-!
# The lattice of constants

A variable is undefined, holds one known integer, or is not a constant: `unset ⊑ known k ⊑ nac`.
-/

namespace FlowTrace

inductive Const where
  | unset
  | known (value : Int)
  /-- Not a constant. -/
  | nac
deriving DecidableEq, Repr

namespace Const

def isKnown : Const → Bool
  | known _ => true
  | unset | nac => false

/-- The least upper bound: two different integers have none but `nac`. -/
def join : Const → Const → Const
  | nac, _ => nac
  | _, nac => nac
  | unset, b => b
  | a, unset => a
  | known m, known n => if m = n then known m else nac

def leq : Const → Const → Bool
  | unset, _ => true
  | _, nac => true
  | a, b => a == b

def lattice : FactLattice Const where
  bottom := unset
  join := join
  leq := leq
  eq := fun a b => a == b
  top := .ok nac

/-- The constant as text; an integer can be too long to be written. -/
def text : Const → Except Text.NumeralError String
  | unset => .ok "UNDEF"
  | known value => Text.writeInt value
  | nac => .ok "NAC"

/-- The constant that a text stands for. -/
def ofText (s : String) : Except Text.NumeralError Const :=
  if s = "UNDEF" then .ok unset
  else if s = "NAC" then .ok nac
  else (Text.readInt s).map known

end Const

end FlowTrace
