import FlowTrace.Source.Instr
import FlowTrace.Source.Scan

/-!
# From tokens to instructions

A line holds one instruction:

    instruction = (label ":")? body eol
    body        = "goto" label
                | "if" operand relation operand "goto" label
                | "if" identifier "goto" label
                | "ifFalse" identifier "goto" label
                | identifier "=" unary operand
                | identifier "=" operand binary operand
                | identifier "=" operand
    operand     = identifier | integer literal

A fault is recorded, the rest of its line is skipped, and reading goes on with the next line.  A
numeral that cannot be read stops everything where it stands.  Tokens may lack their text: a label
without one is no label, a symbol without one is no operator, a numeral without one cannot be read,
and an identifier without one leaves a variable nameless.
-/

namespace FlowTrace

/-- Tokens still to be read, and the line of the last one that was. -/
structure Reader where
  pending : List Token
  lastLine : Int
deriving DecidableEq, Repr

namespace Reader

/-- Why reading an instruction stops. -/
inductive Stop where
  | fault (f : Fault)
  | numeral (e : Text.NumeralError)
deriving DecidableEq, Repr

/-- Reading a part of an instruction; the tokens taken stay taken when it stops. -/
abbrev Read := EStateM Stop Reader

def ofTokens (tokens : List Token) : Reader where
  pending := tokens
  lastLine := (tokens.head?.map (·.line)).getD 1

/-- The fault of not finding one of the expected things next. -/
def complaint (r : Reader) (expected : List String) : Fault :=
  match r.pending with
  | [] => ⟨.unexpectedEnd expected, r.lastLine⟩
  | t :: _ =>
    if t.kind = .eol then ⟨.unexpectedEnd expected, t.line⟩
    else ⟨.unexpectedToken t.kind.name expected, t.line⟩

/-- Stop because none of the expected things comes next. -/
def refuse {α : Type} (expected : List String) : Read α := fun r =>
  .error (.fault (r.complaint expected)) r

/-- Take the next token if it is of the given kind. -/
def expect (kind : Token.Kind) : Read Unit := fun r =>
  match r.pending with
  | t :: ts => if t.kind = kind then .ok () ⟨ts, t.line⟩ else refuse [kind.name] r
  | [] => refuse [kind.name] r

/-- Take the next token if it is the given symbol. -/
def expectSymbol (symbol : String) : Read Unit := fun r =>
  match r.pending with
  | t :: ts => if t.lexeme = .symbol symbol then .ok () ⟨ts, t.line⟩ else refuse [symbol] r
  | [] => refuse [symbol] r

/-- What stands for the name of a variable that has none. -/
def namelessName : String := ""

def identifier : Read String := fun r =>
  match r.pending with
  | ⟨.identifier name, line⟩ :: ts => .ok name ⟨ts, line⟩
  | ⟨.blank .identifier, line⟩ :: ts => .ok namelessName ⟨ts, line⟩
  | _ => refuse [Token.Kind.identifier.name] r

def label : Read (Option String) := fun r =>
  match r.pending with
  | ⟨.label name, line⟩ :: ts => .ok (some name) ⟨ts, line⟩
  | ⟨.blank .label, line⟩ :: ts => .ok none ⟨ts, line⟩
  | _ => refuse [Token.Kind.label.name] r

def operand : Read Operand := fun r =>
  match r.pending with
  | ⟨.identifier name, line⟩ :: ts => .ok (.var name) ⟨ts, line⟩
  | ⟨.blank .identifier, line⟩ :: ts => .ok (.var namelessName) ⟨ts, line⟩
  | ⟨.integerLiteral digits, line⟩ :: ts =>
    match Text.readInt digits with
    | .ok value => .ok (.lit value) ⟨ts, line⟩
    | .error e => .error (.numeral e) ⟨ts, line⟩
  | ⟨.blank .integerLiteral, line⟩ :: ts => .error (.numeral .noText) ⟨ts, line⟩
  | _ => refuse [Token.Kind.identifier.name, Token.Kind.integerLiteral.name] r

/-- Take the symbol that comes next, if one does, as an operator of a category.  A symbol that is
no such operator is a fault and is not taken. -/
def operator? {ω : Type} (category : String) (ofSymbol? : String → Option ω) : Read (Option ω) :=
  fun r =>
    match r.pending with
    | ⟨.symbol s, line⟩ :: ts =>
      match ofSymbol? s with
      | some op => .ok (some op) ⟨ts, line⟩
      | none => .error (.fault ⟨.invalidOperator (some s) category, line⟩) r
    | ⟨.blank .symbol, line⟩ :: _ => .error (.fault ⟨.invalidOperator none category, line⟩) r
    | _ => .ok none r

/-- `"goto" label eol` -/
def jumpTail : Read (Option String) := do
  expect .goto
  let target ← label
  expect .eol
  return target

/-- What follows `"if"`. -/
def branchBody : Read Instr.Body := do
  let left ← operand
  match ← operator? "relation" Relation.ofSymbol? with
  | some op =>
    let right ← operand
    return .branch left op right (← jumpTail)
  | none =>
    match left with
    | .var name => return .branchIf name (← jumpTail)
    | .lit _ => refuse [Token.Kind.symbol.name]

/-- What follows `"ifFalse"`. -/
def branchUnlessBody : Read Instr.Body := do
  let name ← identifier
  return .branchUnless name (← jumpTail)

/-- What follows the variable that is assigned. -/
def assignmentBody (dest : String) : Read Instr.Body := do
  expectSymbol "="
  match ← operator? "unary" UnaryOp.ofSymbol? with
  | some op =>
    let source ← operand
    expect .eol
    return .unary dest op source
  | none =>
    let left ← operand
    match (← get).pending with
    | ⟨.eol, _⟩ :: _ =>
      expect .eol
      return .copy dest left
    | _ =>
      match ← operator? "binary" BinaryOp.ofSymbol? with
      | some op =>
        let right ← operand
        expect .eol
        return .binary dest left op right
      | none => refuse [Token.Kind.symbol.name, Token.Kind.eol.name]

/-- The kinds of tokens that a body starts with. -/
def bodyStarts : List String :=
  [Token.Kind.goto, .ifTrue, .ifFalse, .identifier].map Token.Kind.name

/-- An optional label with its colon. -/
def labelPart : Read (Option String) := fun r =>
  match r.pending with
  | ⟨.label name, line⟩ :: ts => (do expectSymbol ":"; return some name : Read _) ⟨ts, line⟩
  | ⟨.blank .label, line⟩ :: ts => (do expectSymbol ":"; return none : Read _) ⟨ts, line⟩
  | _ => .ok none r

/-- The body of an instruction and its line, which is that of its first token. -/
def bodyPart (starts : List String) : Read (Int × Instr.Body) := fun r =>
  match r.pending with
  | ⟨.goto, line⟩ :: ts =>
    (do let target ← label; expect .eol; return (line, .jump target) : Read _) ⟨ts, line⟩
  | ⟨.ifTrue, line⟩ :: ts => (do return (line, ← branchBody) : Read _) ⟨ts, line⟩
  | ⟨.ifFalse, line⟩ :: ts => (do return (line, ← branchUnlessBody) : Read _) ⟨ts, line⟩
  | ⟨.identifier dest, line⟩ :: ts =>
    (do return (line, ← assignmentBody dest) : Read _) ⟨ts, line⟩
  | ⟨.blank .identifier, line⟩ :: ts =>
    (do return (line, ← assignmentBody namelessName) : Read _) ⟨ts, line⟩
  | _ => refuse starts r

def instruction : Read Instr := do
  let label ← labelPart
  let starts := if label.isSome then bodyStarts else Token.Kind.label.name :: bodyStarts
  let (line, body) ← bodyPart starts
  return { line, label, body }

/-- Whether an instruction that is read whole has a nameless variable: an end of line is the last
token that it takes. -/
def hasNameless (r : Reader) : Bool :=
  (r.pending.takeWhile (·.kind != .eol)).any (·.lexeme == .blank .identifier)

/-- Drop the tokens up to the next end of line, which is dropped too. -/
def skipLine (r : Reader) : Reader :=
  go r.pending r.lastLine
where
  go : List Token → Int → Reader
    | [], line => ⟨[], line⟩
    | t :: ts, _ => if t.kind = .eol then ⟨ts, t.line⟩ else go ts t.line

end Reader

/-- Reading a whole sequence of tokens: what was read so far, and whether the end was reached. -/
structure Parsing where
  reader : Reader
  instrs : List Instr
  faults : List Fault
  complete : Bool
  /-- Whether an instruction has a nameless variable, and so cannot be written. -/
  nameless : Bool
deriving DecidableEq, Repr

namespace Parsing

def ofTokens (tokens : List Token) : Parsing := ⟨.ofTokens tokens, [], [], false, false⟩

/-- Read on for at most `fuel` instructions or faults.  Each takes at least one token, so the
number of pending tokens is enough. -/
def readOn : Nat → Parsing → Except Text.NumeralError Unit × Parsing
  | 0, p => (.ok (), { p with complete := true })
  | fuel + 1, p =>
    if p.reader.pending.isEmpty then (.ok (), { p with complete := true })
    else match Reader.instruction p.reader with
      | .ok i r =>
        readOn fuel
          { p with
            reader := r
            instrs := p.instrs ++ [i]
            nameless := p.nameless || p.reader.hasNameless }
      | .error (.fault f) r =>
        readOn fuel { p with reader := r.skipLine, faults := p.faults ++ [f] }
      | .error (.numeral e) r => (.error e, { p with reader := r })

/-- All instructions, or else all faults. -/
def result (p : Parsing) : Except Rejection (List Instr) :=
  if p.faults.isEmpty then .ok p.instrs else .error ⟨p.faults⟩

/-- What is said when an instruction with a nameless variable is to be written. -/
def namelessMessage : String := "__str__ returned non-string (type NoneType)"

/-- Read what has not been read, then give the result. -/
def parse (p : Parsing) : Except SourceError (List Instr) × Parsing :=
  let (read, p) := if p.complete then (.ok (), p) else readOn p.reader.pending.length p
  match read with
  | .ok () => (p.result.mapError .rejected, p)
  | .error e => (.error (.numeral e), p)

end Parsing

namespace Instr

/-- The instructions that a sequence of tokens holds. -/
def ofTokens (tokens : List Token) : Except SourceError (List Instr) :=
  (Parsing.ofTokens tokens).parse.1

/-- The instructions of a text.  Syntax is only looked at if all tokens are legal. -/
def ofText (text : String) : Except SourceError (List Instr) := do
  let tokens ← (Token.scan text).mapError .rejected
  ofTokens tokens

end Instr

end FlowTrace
