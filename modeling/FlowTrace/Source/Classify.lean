import FlowTrace.Source.Token

/-!
# Classes of pieces

A piece of text is a token if the first class that matches an initial part of it matches all of it.
The classes are tried in the order keyword, label, integer literal, identifier, symbol, and each
takes the longest part that it can.
-/

namespace FlowTrace.Token

/-- What an initial part of a piece is, and what is left of the piece. -/
abbrev Match := Lexeme × List Char

def isUpper (c : Char) : Bool := 'A' ≤ c && c ≤ 'Z'

def isLower (c : Char) : Bool := 'a' ≤ c && c ≤ 'z'

def isDigit (c : Char) : Bool := '0' ≤ c && c ≤ '9'

/-- The characters that may not follow a keyword. -/
def continuesWord (c : Char) : Bool := isUpper c || isLower c || isDigit c || c == '_'

/-- What follows a word that the piece starts with. -/
def afterWord? : List Char → List Char → Option (List Char)
  | [], cs => some cs
  | _ :: _, [] => none
  | w :: ws, c :: cs => if w = c then afterWord? ws cs else none

/-- A keyword ends where its word could not go on. -/
def keyword? (word : String) (lexeme : Lexeme) (cs : List Char) : Option Match :=
  match afterWord? word.toList cs with
  | some [] => some (lexeme, [])
  | some (c :: rest) => if continuesWord c then none else some (lexeme, c :: rest)
  | none => none

def anyKeyword? (cs : List Char) : Option Match :=
  keyword? "ifFalse" .ifFalse cs <|> keyword? "if" .ifTrue cs <|> keyword? "goto" .goto cs

/-- The longest initial part that does not end in an underscore, and the rest. -/
def splitUnderscores (cs : List Char) : List Char × List Char :=
  let tail := (cs.reverse.takeWhile (· == '_')).reverse
  (cs.take (cs.length - tail.length), tail)

/-- An upper-case letter, then upper-case letters, digits and inner underscores. -/
def label? : List Char → Option Match
  | [] => none
  | c :: cs =>
    if isUpper c then
      let inLabel (c : Char) := isUpper c || isDigit c || c == '_'
      let (body, tail) := splitUnderscores (cs.takeWhile inLabel)
      some (.label (String.ofList (c :: body)), tail ++ cs.dropWhile inLabel)
    else none

/-- Zero, or digits that do not start with zero. -/
def integerLiteral? : List Char → Option Match
  | [] => none
  | c :: cs =>
    if c = '0' then some (.integerLiteral "0", cs)
    else if isDigit c then
      some (.integerLiteral (String.ofList (c :: cs.takeWhile isDigit)), cs.dropWhile isDigit)
    else none

/-- A lower-case letter, then lower-case letters and digits. -/
def identifier? : List Char → Option Match
  | [] => none
  | c :: cs =>
    if isLower c then
      let inName (c : Char) := isLower c || isDigit c
      some (.identifier (String.ofList (c :: cs.takeWhile inName)), cs.dropWhile inName)
    else none

/-- The symbols; the longer ones come first. -/
def symbols : List String :=
  ["==", "<=", ">=", "!=", "+", "-", "*", "/", "%", "<", ">", "=", ":", "!"]

def symbol? (cs : List Char) : Option Match :=
  symbols.findSome? fun s => (afterWord? s.toList cs).map fun rest => (.symbol s, rest)

/-- The first class that matches an initial part. -/
def firstMatch? (cs : List Char) : Option Match :=
  anyKeyword? cs <|> label? cs <|> integerLiteral? cs <|> identifier? cs <|> symbol? cs

/-- The token that a piece is. -/
def classify? (piece : List Char) : Option Lexeme :=
  match firstMatch? piece with
  | some (lexeme, []) => some lexeme
  | _ => none

end FlowTrace.Token
