/-!
# Tokens

The words of a program text: their kinds, what each carries, and the line it stands on.
-/

namespace FlowTrace

namespace Token

/-- The kinds of tokens. -/
inductive Kind where
  | identifier
  | integerLiteral
  | symbol
  | label
  | ifTrue
  | ifFalse
  | goto
  | eol
deriving DecidableEq, Repr

namespace Kind

def all : List Kind :=
  [identifier, integerLiteral, symbol, label, ifTrue, ifFalse, goto, eol]

def name : Kind → String
  | identifier => "identifier"
  | integerLiteral => "integer_literal"
  | symbol => "symbol"
  | label => "label"
  | ifTrue => "if"
  | ifFalse => "ifFalse"
  | goto => "goto"
  | eol => "eol"

def ofName? (s : String) : Option Kind := all.find? (·.name == s)

def isKeyword : Kind → Bool
  | ifTrue | ifFalse | goto => true
  | _ => false

end Kind

/-- The kinds of tokens that carry a text. -/
inductive TextKind where
  | identifier
  | integerLiteral
  | symbol
  | label
deriving DecidableEq, Repr

def TextKind.kind : TextKind → Kind
  | identifier => .identifier
  | integerLiteral => .integerLiteral
  | symbol => .symbol
  | label => .label

/-- What a token is, wherever it stands. -/
inductive Lexeme where
  | identifier (name : String)
  | integerLiteral (digits : String)
  | symbol (text : String)
  | label (name : String)
  | ifTrue
  | ifFalse
  | goto
  /-- The end of a line. -/
  | eol
  /-- A token that should carry a text and carries none.  No text is scanned into such a token. -/
  | blank (kind : TextKind)
deriving DecidableEq, Repr

namespace Lexeme

def kind : Lexeme → Kind
  | identifier _ => .identifier
  | integerLiteral _ => .integerLiteral
  | symbol _ => .symbol
  | label _ => .label
  | ifTrue => .ifTrue
  | ifFalse => .ifFalse
  | goto => .goto
  | eol => .eol
  | blank k => k.kind

/-- The text that the token carries; keywords and line ends carry none. -/
def value? : Lexeme → Option String
  | identifier s | integerLiteral s | symbol s | label s => some s
  | ifTrue | ifFalse | goto | eol | blank _ => none

/-- The lexeme of a kind with a text, where the kind carries one. -/
def ofKind (k : Kind) (value : Option String) : Lexeme :=
  match k with
  | .identifier => value.elim (blank .identifier) identifier
  | .integerLiteral => value.elim (blank .integerLiteral) integerLiteral
  | .symbol => value.elim (blank .symbol) symbol
  | .label => value.elim (blank .label) label
  | .ifTrue => ifTrue
  | .ifFalse => ifFalse
  | .goto => goto
  | .eol => eol

end Lexeme

end Token

/-- A lexeme and its line. -/
structure Token where
  lexeme : Token.Lexeme
  line : Int
deriving DecidableEq, Repr

namespace Token

def kind (t : Token) : Kind := t.lexeme.kind

/-- The kind, with the text that the token carries in parentheses. -/
def display (t : Token) : String :=
  match t.lexeme.value? with
  | some s => t.kind.name ++ "(" ++ s ++ ")"
  | none => t.kind.name

end Token

end FlowTrace
