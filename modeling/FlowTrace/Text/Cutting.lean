import FlowTrace.Text.Characters

/-!
# Cutting texts

Trimming a text of its blanks, and cutting it into words, at a character or into lines.  Words are
the maximal runs of characters that are not blank.

There are two notions of line.  The lines of a *source* are numbered and end at `\n`, `\r` or the
pair `\r\n`.  The lines of a *display* also end at the other vertical controls and separators, and
a line end at the very end opens no further line.
-/

namespace FlowTrace.Text

/-! ## Words -/

/-- Drop the characters of a class from both ends. -/
def trimBy (p : Char → Bool) (cs : List Char) : List Char :=
  ((cs.dropWhile p).reverse.dropWhile p).reverse

/-- Drop the blanks from both ends. -/
def trim (s : String) : String := String.ofList (trimBy isBlank s.toList)

/-- Close the word being read, if it has begun. -/
def closeWord (word : List Char) (words : List (List Char)) : List (List Char) :=
  if word.isEmpty then words else word :: words

/-- The word that the text starts with (empty if it starts with a blank) and the words after it. -/
def wordsFrom : List Char → List Char × List (List Char)
  | [] => ([], [])
  | c :: cs =>
    let (word, words) := wordsFrom cs
    if isBlank c then ([], closeWord word words) else (c :: word, words)

/-- The maximal runs of characters that are not blank. -/
def words (cs : List Char) : List (List Char) :=
  closeWord (wordsFrom cs).1 (wordsFrom cs).2

/-! ## Parts and lines -/

/-- Put a character in front of the first part. -/
def consLine (c : Char) : List (List Char) → List (List Char)
  | [] => [[c]]
  | line :: lines => (c :: line) :: lines

/-- Cut a text at each `d`, which is kept as a part of its own between what stands before and after
it. -/
def splitKeeping (d : Char) : List Char → List (List Char)
  | [] => [[]]
  | c :: cs => if c = d then [] :: [d] :: splitKeeping d cs else consLine c (splitKeeping d cs)

/-- The lines of a source; there is always at least one. -/
def sourceLines : List Char → List (List Char)
  | [] => [[]]
  | '\r' :: '\n' :: cs => [] :: sourceLines cs
  | c :: cs => if c = '\n' ∨ c = '\r' then [] :: sourceLines cs else consLine c (sourceLines cs)

/-- The characters that end a line of a display. -/
def endsDisplayLine (c : Char) : Bool :=
  (0x0A ≤ c.toNat && c.toNat ≤ 0x0D) || (0x1C ≤ c.toNat && c.toNat ≤ 0x1E) ||
    c.toNat == 0x85 || c.toNat == 0x2028 || c.toNat == 0x2029

/-- The lines of a display. -/
def displayLines : List Char → List (List Char)
  | [] => []
  | '\r' :: '\n' :: cs => [] :: displayLines cs
  | c :: cs => if endsDisplayLine c then [] :: displayLines cs else consLine c (displayLines cs)

end FlowTrace.Text
