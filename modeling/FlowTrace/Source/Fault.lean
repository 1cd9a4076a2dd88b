import FlowTrace.Text.Numeral

/-!
# Faults of a source text

What can be wrong with a program text: the phase that finds a fault, its code, its wording and its
line.  The faults of one phase are reported together as a `Rejection`.
-/

namespace FlowTrace

/-- The phase that finds a fault. -/
inductive FaultPhase where
  | lexical
  | syntactic
  | semantic
deriving DecidableEq, Repr

namespace FaultPhase

def name : FaultPhase → String
  | lexical => "lexical"
  | syntactic => "syntax"
  | semantic => "semantic"

/-- The name as it stands in the description of a code. -/
def tag : FaultPhase → String
  | lexical => "LEXICAL"
  | syntactic => "SYNTAX"
  | semantic => "SEMANTIC"

def ofName? (s : String) : Option FaultPhase :=
  [lexical, syntactic, semantic].find? (·.name == s)

/-- What is said of a name that is no phase. -/
def unknownMessage (s : String) : String := Text.quote s ++ " is not a valid ErrorPhase"

end FaultPhase

/-- A code such as `TAC-0001`.  The phase is additional: codes are told apart by family and
number. -/
structure FaultCode where
  family : String
  number : Int
  phase : FaultPhase
deriving DecidableEq, Repr

/-- A number filled up with zeros after its sign to the given width. -/
def zeroPadded (width : Nat) (n : Int) : String :=
  let sign := if n < 0 then "-" else ""
  let digits := toString n.natAbs
  sign ++ String.ofList (List.replicate (width - sign.length - digits.length) '0') ++ digits

namespace FaultCode

def text (c : FaultCode) : String := c.family ++ "-" ++ zeroPadded 4 c.number

def describe (c : FaultCode) : String :=
  "ErrorCode(" ++ Text.quote c.text ++ ", " ++ c.phase.tag ++ ")"

/-- Whether two codes are the same code. -/
def same (c d : FaultCode) : Bool := c.family == d.family && c.number == d.number

/-- Whether a text spells the code. -/
def spelled (c : FaultCode) (s : String) : Bool := c.text == s

/-- Numbers of one sign that differ by a multiple of this are filed at the same place. -/
def bucketPeriod : Nat := Nat.pow 2 61 - 1

/-- What a code is filed under: its family, and the remainder of its number with the sign of the
number.  The places -1 and -2 are one. -/
def bucket (c : FaultCode) : String × Int :=
  let place := c.number.tmod bucketPeriod
  (c.family, if place = -1 then -2 else place)

def illegalToken : FaultCode := ⟨"TAC", 1, .lexical⟩
def unexpectedToken : FaultCode := ⟨"TAC", 1000, .syntactic⟩
def unexpectedEnd : FaultCode := ⟨"TAC", 1001, .syntactic⟩
def invalidOperator : FaultCode := ⟨"TAC", 1002, .syntactic⟩
def undefinedLabel : FaultCode := ⟨"TAC", 3000, .semantic⟩
def repeatedLabel : FaultCode := ⟨"TAC", 3001, .semantic⟩
def emptyProgram : FaultCode := ⟨"TAC", 3002, .semantic⟩
def invalidProgram : FaultCode := ⟨"TAC", 9000, .semantic⟩

end FaultCode

/-- `problem` or `problems`, as the number asks. -/
def problems (n : Nat) : String :=
  toString n ++ (if n = 1 then " problem" else " problems")

/-- What stands in front of the faults of a program, of which there are `n`. -/
def rejectionHeading (n : Nat) : String :=
  "the submitted program is not valid, found " ++ problems n ++ ":"

/-- What is wrong. -/
inductive Cause where
  /-- A piece of text is no token. -/
  | illegalToken (text : String)
  /-- A token of another kind should stand here. -/
  | unexpectedToken (got : String) (expected : List String)
  /-- The line ends before the instruction does. -/
  | unexpectedEnd (expected : List String)
  /-- A symbol is no operator of the category that is needed. -/
  | invalidOperator (symbol : Option String) (category : String)
  /-- A jump goes to a label that no instruction carries. -/
  | undefinedLabel (label : String)
  /-- An earlier instruction carries the same label. -/
  | repeatedLabel (label : String)
  /-- There are no instructions. -/
  | emptyProgram
  /-- A fault in free words, of a phase or of none in particular. -/
  | other (phase : Option FaultPhase) (reason : String) (expected : List String)
  /-- The whole program was rejected, and no fault is given for it. -/
  | rejected
deriving DecidableEq, Repr

namespace Cause

/-- A list of what would have been accepted. -/
def choices (expected : List String) : String := "[" ++ ", ".intercalate expected ++ "]"

/-- What is wrong, in words. -/
def reason : Cause → String
  | illegalToken text => "illegal token " ++ text ++ " (could not determine type)"
  | unexpectedToken got expected =>
    "expected one of " ++ choices expected ++ " but got \"" ++ got ++ "\""
  | unexpectedEnd expected =>
    "expected one of " ++ choices expected ++ " but instruction ended"
  | invalidOperator symbol category =>
    "symbol " ++ symbol.getD "None" ++ " is not a valid " ++ category ++ " operator"
  | undefinedLabel label => "the label " ++ label ++ " is never defined"
  | repeatedLabel label => "the label " ++ label ++ " is already defined"
  | emptyProgram => "the program contains no instructions"
  | other _ reason _ => reason
  | rejected => rejectionHeading 0

def code : Cause → FaultCode
  | illegalToken _ => .illegalToken
  | unexpectedToken _ _ => .unexpectedToken
  | unexpectedEnd _ => .unexpectedEnd
  | invalidOperator _ _ => .invalidOperator
  | undefinedLabel _ => .undefinedLabel
  | repeatedLabel _ => .repeatedLabel
  | emptyProgram => .emptyProgram
  | other (some .lexical) _ _ => .illegalToken
  | other (some .syntactic) _ _ => .unexpectedToken
  | other (some .semantic) _ _ => .invalidProgram
  | other none _ _ => .invalidProgram
  | rejected => .invalidProgram

/-- What would have been accepted; only faults of syntax say so. -/
def expected? : Cause → Option (List String)
  | unexpectedToken _ expected => some expected
  | unexpectedEnd expected => some expected
  | invalidOperator _ category => some [category ++ " operator"]
  | other (some .syntactic) _ expected => some expected
  | _ => none

end Cause

/-- A fault at a line. -/
structure Fault where
  cause : Cause
  line : Int
deriving DecidableEq, Repr

namespace Fault

def reason (f : Fault) : String := f.cause.reason

def code (f : Fault) : FaultCode := f.cause.code

/-- The fault with its line; a rejection is not tied to one. -/
def message (f : Fault) : String :=
  match f.cause with
  | .rejected => f.reason
  | _ => "error on line " ++ toString f.line ++ ": " ++ f.reason

end Fault

/-- All faults that one phase found, in the order in which it found them. -/
structure Rejection where
  faults : List Fault
deriving DecidableEq, Repr

/-- Faults by line; those of one line keep their order. -/
def sortByLine (faults : List Fault) : List Fault :=
  faults.mergeSort fun f g => f.line ≤ g.line

namespace Rejection

def code (_ : Rejection) : FaultCode := .invalidProgram

def reason (r : Rejection) : String := rejectionHeading r.faults.length

/-- The first line with a fault, or 0 without any. -/
def line (r : Rejection) : Int := (r.faults.map (·.line)).min?.getD 0

def sorted (r : Rejection) : List Fault := sortByLine r.faults

def message (r : Rejection) : String :=
  "\n".intercalate (r.reason :: r.sorted.map (·.message))

end Rejection

/-- Why a text gives no program: it has faults, or a numeral in it cannot be read. -/
inductive SourceError where
  | rejected (r : Rejection)
  | numeral (e : Text.NumeralError)
deriving DecidableEq, Repr

end FlowTrace
