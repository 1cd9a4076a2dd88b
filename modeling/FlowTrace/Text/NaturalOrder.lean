import FlowTrace.Text.Numeral

/-!
# Natural order of names

Names are compared piece by piece, where runs of decimal digits count as numbers: `d2` comes before
`d10`.  A name is cut into an alternation of text and numbers that starts and ends with a (possibly
empty) text, so pieces in the same place are of the same sort.
-/

namespace FlowTrace.Text

/-- One piece of the key of a name. -/
inductive KeyPiece where
  | text (s : String)
  | number (n : Int)
deriving DecidableEq, Repr

namespace KeyPiece

/-- Numbers by value, texts by code points. -/
def compare : KeyPiece → KeyPiece → Ordering
  | text a, text b => Ord.compare a b
  | number a, number b => Ord.compare a b
  | text _, number _ => .lt
  | number _, text _ => .gt

end KeyPiece

/-- Put a character in front of the run it belongs to.  Runs alternate, starting with a run of
characters that are not digits; `inDigits` says which sort of run the first one is. -/
def runsFrom : List Char → Bool × List (List Char)
  | [] => (false, [[]])
  | c :: cs =>
    let (inDigits, runs) := runsFrom cs
    if isDecimal c == inDigits then (inDigits, consRun c runs) else (!inDigits, [c] :: runs)
where
  consRun (c : Char) : List (List Char) → List (List Char)
    | [] => [[c]]
    | run :: runs => (c :: run) :: runs

/-- The alternating runs of a name: text, digits, text, …, text. -/
def runs (cs : List Char) : List (List Char) :=
  let (inDigits, runs) := runsFrom cs
  if inDigits then [] :: runs else runs

/-- The piece of a run: a run of digits of either sort is read as a number, so a run of digit signs
is refused. -/
def keyPiece (run : List Char) : Except NumeralError KeyPiece :=
  if !run.isEmpty && run.all fun c => isDecimal c || isDigitSign c then
    (readInt (String.ofList run)).map .number
  else
    .ok (.text (String.ofList run))

/-- The key that orders a name. -/
def naturalKey (name : String) : Except NumeralError (List KeyPiece) :=
  (runs name.toList).mapM keyPiece

/-- Keys are compared piece by piece; a proper initial part comes first. -/
def keyLe : List KeyPiece → List KeyPiece → Bool
  | [], _ => true
  | _ :: _, [] => false
  | p :: ps, q :: qs =>
    match p.compare q with
    | .lt => true
    | .eq => keyLe ps qs
    | .gt => false

/-- Sort items by the natural order of their names; items with equal keys keep their order. -/
def sortNaturallyBy (name : α → String) (items : List α) : Except NumeralError (List α) := do
  let keyed ← items.mapM fun a => do return (← naturalKey (name a), a)
  return (keyed.mergeSort fun x y => keyLe x.1 y.1).map (·.2)

/-- Sort names in natural order. -/
def sortNaturally (names : List String) : Except NumeralError (List String) :=
  sortNaturallyBy id names

end FlowTrace.Text
