import FlowTrace.Source.Classify
import FlowTrace.Source.Fault
import FlowTrace.Text.Cutting

/-!
# From text to tokens

Every line is cut into pieces, and each piece is classified.  A line that is not blank ends in a
token of its own.  The first piece of a line that is no token is a fault; the rest of that line is
left out.
-/

namespace FlowTrace.Token

/-- The pieces of a line: it is cut at its colons, blanks are put between the parts, and all is cut
into words. -/
def pieces (line : List Char) : List (List Char) :=
  Text.words ([' '].intercalate (Text.splitKeeping ':' line))

/-- The tokens of the pieces of a line, and the fault that ends them early. -/
def scanPieces (line : Int) : List (List Char) → List Token × Option Fault
  | [] => ([⟨.eol, line⟩], none)
  | piece :: rest =>
    match classify? piece with
    | some lexeme =>
      let (tokens, fault) := scanPieces line rest
      (⟨lexeme, line⟩ :: tokens, fault)
    | none => ([⟨.eol, line⟩], some ⟨.illegalToken (String.ofList piece), line⟩)

/-- The tokens of a line; a blank line has none. -/
def scanLine (line : Int) (chars : List Char) : List Token × Option Fault :=
  match pieces chars with
  | [] => ([], none)
  | piece :: rest => scanPieces line (piece :: rest)

/-- The tokens and faults of lines that are numbered from `line` on. -/
def scanLines (line : Int) : List (List Char) → List Token × List Fault
  | [] => ([], [])
  | chars :: lines =>
    let (tokens, fault) := scanLine line chars
    let (moreTokens, moreFaults) := scanLines (line + 1) lines
    (tokens ++ moreTokens, fault.toList ++ moreFaults)

/-- The tokens of a text, or all its illegal tokens. -/
def scan (text : String) : Except Rejection (List Token) :=
  let (tokens, faults) := scanLines 1 (Text.sourceLines text.toList)
  if faults.isEmpty then .ok tokens else .error ⟨faults⟩

end FlowTrace.Token
