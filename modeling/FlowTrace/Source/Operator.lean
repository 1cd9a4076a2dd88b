/-!
# Operators

The operators of three-address code on unbounded integers.  A relation that holds has the value 0
and one that does not has the value -1, so `!`, which complements all bits, is their negation.
Division rounds down, the remainder has the sign of the dividend, and neither has a value when the
divisor is zero.
-/

namespace FlowTrace

inductive Relation where
  | eq | le | ge | lt | gt | ne
deriving DecidableEq, Repr

inductive Arithmetic where
  | add | sub | mul | div | mod
deriving DecidableEq, Repr

inductive UnaryOp where
  | neg | not
deriving DecidableEq, Repr

inductive BinaryOp where
  | relation (r : Relation)
  | arithmetic (a : Arithmetic)
deriving DecidableEq, Repr

/-- The integer that stands for a truth value. -/
def truthValue (b : Bool) : Int := if b then 0 else -1

namespace Relation

def all : List Relation := [eq, le, ge, lt, gt, ne]

def symbol : Relation → String
  | eq => "=="
  | le => "<="
  | ge => ">="
  | lt => "<"
  | gt => ">"
  | ne => "!="

def ofSymbol? (s : String) : Option Relation := all.find? (·.symbol == s)

def holds : Relation → Int → Int → Bool
  | eq, a, b => a == b
  | le, a, b => a ≤ b
  | ge, a, b => b ≤ a
  | lt, a, b => a < b
  | gt, a, b => b < a
  | ne, a, b => a != b

def eval (r : Relation) (a b : Int) : Int := truthValue (r.holds a b)

end Relation

namespace Arithmetic

def all : List Arithmetic := [add, sub, mul, div, mod]

def symbol : Arithmetic → String
  | add => "+"
  | sub => "-"
  | mul => "*"
  | div => "/"
  | mod => "%"

def ofSymbol? (s : String) : Option Arithmetic := all.find? (·.symbol == s)

/-- The remainder of the absolute values, with the sign of the dividend. -/
def truncatedRemainder (a b : Int) : Int :=
  let r := Int.fmod a.natAbs b.natAbs
  if a < 0 then -r else r

def eval : Arithmetic → Int → Int → Option Int
  | add, a, b => some (a + b)
  | sub, a, b => some (a - b)
  | mul, a, b => some (a * b)
  | div, a, b => if b = 0 then none else some (Int.fdiv a b)
  | mod, a, b => if b = 0 then none else some (truncatedRemainder a b)

end Arithmetic

namespace UnaryOp

def all : List UnaryOp := [neg, not]

def symbol : UnaryOp → String
  | neg => "-"
  | not => "!"

def ofSymbol? (s : String) : Option UnaryOp := all.find? (·.symbol == s)

def eval : UnaryOp → Int → Int
  | neg, a => -a
  | not, a => -a - 1

end UnaryOp

namespace BinaryOp

def symbol : BinaryOp → String
  | relation r => r.symbol
  | arithmetic a => a.symbol

/-- Relations are looked up before arithmetic. -/
def ofSymbol? (s : String) : Option BinaryOp :=
  (Relation.ofSymbol? s).map relation <|> (Arithmetic.ofSymbol? s).map arithmetic

def eval : BinaryOp → Int → Int → Option Int
  | relation r, a, b => some (r.eval a b)
  | arithmetic o, a, b => o.eval a b

end BinaryOp

end FlowTrace
