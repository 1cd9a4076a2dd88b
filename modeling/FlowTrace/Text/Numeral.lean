import FlowTrace.Text.Cutting
import FlowTrace.Text.Characters
import FlowTrace.Text.Quoted

/-!
# Integer numerals

Reading and writing integers as decimal text.  A numeral may be signed, may be surrounded by blanks
and may separate its digits by single underscores; its digits may come from any script.  Neither
way handles more than `digitLimit` digits.
-/

namespace FlowTrace.Text

/-- The largest number of digits that is read or written. -/
def digitLimit : Nat := 4300

/-- Why a text is not read as an integer, or an integer not written. -/
inductive NumeralError where
  /-- The text is no numeral. -/
  | malformed (text : String)
  /-- The text has more digits than the limit. -/
  | longText (digits : Nat)
  /-- The integer has more digits than the limit. -/
  | longValue
  /-- There is no text at all. -/
  | noText
deriving DecidableEq, Repr

namespace NumeralError

/-- At most this much of a refused text is shown. -/
def shownLength : Nat := 200

def message : NumeralError → String
  | malformed text =>
    "invalid literal for int() with base 10: " ++
      String.ofList ((quote text).toList.take shownLength)
  | longText digits =>
    "Exceeds the limit (" ++ toString digitLimit ++ " digits) for integer string conversion: " ++
      "value has " ++ toString digits ++
      " digits; use sys.set_int_max_str_digits() to increase the limit"
  | longValue =>
    "Exceeds the limit (" ++ toString digitLimit ++ " digits) for integer string conversion; " ++
      "use sys.set_int_max_str_digits() to increase the limit"
  | noText =>
    "int() argument must be a string, a bytes-like object or a real number, not 'NoneType'"

end NumeralError

/-- Blanks allowed around a numeral: all but the information separators. -/
def isNumeralBlank (c : Char) : Bool :=
  isBlank c && !(0x1C ≤ c.toNat && c.toNat ≤ 0x1F)

/-- The digits a text starts with and what follows them; `none` if an underscore does not stand
between two digits or there is no digit.  `primed` says that a digit was just read. -/
def digitRun (primed : Bool) : List Char → Option (List Nat × List Char)
  | [] => if primed then some ([], []) else none
  | c :: cs =>
    match decimalValue? c with
    | some d => (digitRun true cs).map fun (ds, rest) => (d :: ds, rest)
    | none =>
      if !primed then none
      else if c = '_' then digitRun false cs
      else some ([], c :: cs)

/-- The number that a list of digits writes, most significant first. -/
def ofDigits (ds : List Nat) : Nat := ds.foldl (fun n d => n * 10 + d) 0

/-- Take the sign off a numeral. -/
def splitSign : List Char → Bool × List Char
  | '-' :: cs => (true, cs)
  | '+' :: cs => (false, cs)
  | cs => (false, cs)

/-- Read a numeral.  The number of digits is judged before what follows them. -/
def readInt (s : String) : Except NumeralError Int :=
  let (negative, body) := splitSign (trimBy isNumeralBlank s.toList)
  match digitRun false body with
  | none => .error (.malformed s)
  | some (ds, rest) =>
    if digitLimit < ds.length then .error (.longText ds.length)
    else if !rest.isEmpty then .error (.malformed s)
    else .ok (if negative then -(ofDigits ds : Int) else ofDigits ds)

/-- The least natural number that is too long to be written. -/
def writeBound : Nat := Nat.pow 10 digitLimit

/-- Write an integer; the sign is not counted as a digit. -/
def writeInt (n : Int) : Except NumeralError String :=
  if n.natAbs < writeBound then .ok (toString n) else .error .longValue

end FlowTrace.Text
