import FlowTrace.Lattice.Basic
import FlowTrace.Source.Operator

/-!
# Instructions

Three-address code: jumps, conditional jumps and assignments over variables and integer literals.
An instruction may carry a label, and it knows the line it comes from.  A jump whose target is
`none` goes nowhere and does not count as a jump; no program text has one.
-/

namespace FlowTrace

inductive Operand where
  | var (name : String)
  | lit (value : Int)
deriving DecidableEq, Repr

namespace Operand

def text : Operand → String
  | var name => name
  | lit value => toString value

def name? : Operand → Option String
  | var name => some name
  | lit _ => none

end Operand

namespace Instr

/-- What an instruction does. -/
inductive Body where
  /-- `goto L` -/
  | jump (target : Option String)
  /-- `if a < b goto L` -/
  | branch (left : Operand) (op : Relation) (right : Operand) (target : Option String)
  /-- `if x goto L` -/
  | branchIf (name : String) (target : Option String)
  /-- `ifFalse x goto L` -/
  | branchUnless (name : String) (target : Option String)
  /-- `x = y` -/
  | copy (dest : String) (source : Operand)
  /-- `x = - y` -/
  | unary (dest : String) (op : UnaryOp) (operand : Operand)
  /-- `x = a + b` -/
  | binary (dest : String) (left : Operand) (op : BinaryOp) (right : Operand)
deriving DecidableEq, Repr

namespace Body

/-- The label that control may go to. -/
def target? : Body → Option String
  | jump target | branch _ _ _ target | branchIf _ target | branchUnless _ target => target
  | copy _ _ | unary _ _ _ | binary _ _ _ _ => none

/-- The variable that is written. -/
def defines? : Body → Option String
  | copy dest _ | unary dest _ _ | binary dest _ _ _ => some dest
  | jump _ | branch _ _ _ _ | branchIf _ _ | branchUnless _ _ => none

/-- What is read, in the order of the text. -/
def operands : Body → List Operand
  | jump _ => []
  | branch left _ right _ => [left, right]
  | branchIf name _ => [.var name]
  | branchUnless name _ => [.var name]
  | copy _ source => [source]
  | unary _ _ operand => [operand]
  | binary _ left _ right => [left, right]

/-- Whether control may also go on to the next instruction although this one jumps. -/
def isConditional : Body → Bool
  | branch _ _ _ _ | branchIf _ _ | branchUnless _ _ => true
  | jump _ | copy _ _ | unary _ _ _ | binary _ _ _ _ => false

/-- The end of a jump. -/
def gotoText (target : Option String) : String := "goto " ++ target.getD "None"

def text : Body → String
  | jump target => gotoText target
  | branch left op right target =>
    "if " ++ left.text ++ " " ++ op.symbol ++ " " ++ right.text ++ " " ++ gotoText target
  | branchIf name target => "if " ++ name ++ " " ++ gotoText target
  | branchUnless name target => "ifFalse " ++ name ++ " " ++ gotoText target
  | copy dest source => dest ++ " = " ++ source.text
  | unary dest op operand => dest ++ " = " ++ op.symbol ++ " " ++ operand.text
  | binary dest left op right =>
    dest ++ " = " ++ left.text ++ " " ++ op.symbol ++ " " ++ right.text

end Body

end Instr

/-- An instruction of a program. -/
structure Instr where
  line : Int
  label : Option String
  body : Instr.Body
deriving DecidableEq, Repr

namespace Instr

def target? (i : Instr) : Option String := i.body.target?

def defines? (i : Instr) : Option String := i.body.defines?

def operands (i : Instr) : List Operand := i.body.operands

def isJump (i : Instr) : Bool := i.target?.isSome

def isConditional (i : Instr) : Bool := i.body.isConditional

def isAssignment (i : Instr) : Bool := i.defines?.isSome

/-- The variables that are read, in the order of the text. -/
def reads (i : Instr) : List String := i.operands.filterMap Operand.name?

/-- The set of the variables that are read. -/
def uses (i : Instr) : NameSet := NameSet.ofList i.reads

/-- The set of the variables that are read or written. -/
def references (i : Instr) : NameSet := NameSet.ofList (i.reads ++ i.defines?.toList)

/-- The instruction as text; an empty label is not shown. -/
def text (i : Instr) : String :=
  match i.label with
  | some label => if label.isEmpty then i.body.text else label ++ ": " ++ i.body.text
  | none => i.body.text

end Instr

end FlowTrace
