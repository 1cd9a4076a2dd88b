import FlowTrace.Text.Characters

/-!
# Words of a command line

How the words of a command line are read: which are options, which are plain, what is attached to
an option.  Long options may be shortened as far as they stay unique; short options that take no
value may be written together.
-/

namespace FlowTrace.Command

/-- Why a command line is not carried out. -/
inductive Halt where
  /-- It is not well formed. -/
  | usage
  /-- It asks for help. -/
  | help
  /-- It asks for the version. -/
  | version
deriving DecidableEq, Repr

/-- What the options stand for. -/
inductive Flag where
  | help
  | version
  | verbose
  | noColor
  | graph
  | dot
  | algorithm
  | liveOut
  | window
  | unbounded
  | finalOnly
deriving DecidableEq, Repr

def Flag.takesValue : Flag → Bool
  | graph | algorithm | liveOut | window => true
  | help | version | verbose | noColor | dot | unbounded | finalOnly => false

/-- The spellings of the options that are known. -/
abbrev Spellings := List (String × Flag)

inductive Word where
  | plain (text : String)
  /-- Two dashes alone; all words after them are plain. -/
  | separator
  /-- An option, and the text attached to it. -/
  | known (flag : Flag) (isShort : Bool) (attached : Option String)
  | unknown
deriving DecidableEq, Repr

/-- The text before the first equals sign, and the text after it if there is one. -/
def splitSign (cs : List Char) : List Char × Option (List Char) :=
  match cs.dropWhile (· != '=') with
  | [] => (cs, none)
  | _ :: value => (cs.takeWhile (· != '='), some value)

def isDigits (cs : List Char) : Bool := cs.all Text.isDecimal

/-- The text without a line end after it. -/
def dropLineEnd (cs : List Char) : List Char :=
  if cs.getLast? = some '\n' then cs.dropLast else cs

/-- A minus sign and digits, perhaps with a point before the last of them. -/
def looksNegative : List Char → Bool
  | '-' :: cs =>
    let cs := dropLineEnd cs
    match cs.dropWhile (· != '.') with
    | [] => !cs.isEmpty && isDigits cs
    | _ :: decimals =>
      isDigits (cs.takeWhile (· != '.')) && !decimals.isEmpty && isDigits decimals
  | _ => false

/-- What an option could be short for. -/
def candidates (spellings : Spellings) (cs : List Char) : List Word :=
  match cs with
  | '-' :: '-' :: _ =>
    let (name, value) := splitSign cs
    (spellings.filter fun s => name.isPrefixOf s.1.toList).map fun s =>
      .known s.2 false (value.map String.ofList)
  | d :: c :: rest =>
    (spellings.filter fun s => s.1.toList == [d, c]).map fun s =>
      .known s.2 true (some (String.ofList rest))
  | _ => []

/-- Read a word that is not a separator; an option that could be short for two is refused. -/
def readWord (spellings : Spellings) (word : String) : Except Halt Word :=
  let cs := word.toList
  let isShort := !"--".toList.isPrefixOf cs
  match cs with
  | '-' :: _ :: _ =>
    match spellings.lookup word with
    | some flag => .ok (.known flag isShort none)
    | none =>
      let (name, value) := splitSign cs
      match value, spellings.lookup (String.ofList name) with
      | some v, some flag => .ok (.known flag isShort (some (String.ofList v)))
      | _, _ =>
        match candidates spellings cs with
        | [w] => .ok w
        | _ :: _ :: _ => .error .usage
        | [] => .ok (if looksNegative cs || cs.contains ' ' then .plain word else .unknown)
  | _ => .ok (.plain word)

/-- Read all words, each with its text. -/
def readWords (spellings : Spellings) : List String → Except Halt (List (String × Word))
  | [] => .ok []
  | "--" :: rest => .ok (("--", .separator) :: rest.map fun w => (w, .plain w))
  | word :: rest => do
    let w ← readWord spellings word
    return (word, w) :: (← readWords spellings rest)

/-- What one word asks for: flags with their values, and perhaps one more flag whose value is the
next word. -/
structure Asked where
  flags : List (Flag × Option String)
  wanting : Option Flag
deriving DecidableEq, Repr

/-- The value that is attached to an option; two dashes are none. -/
def attachedValue (text : String) : Option String := if text = "--" then none else some text

/-- Read what is attached to a short option that takes no value: the letters of further short
options, of which one that takes a value takes all that is left. -/
def readLetters (spellings : Spellings) : List Char → Except Halt Asked
  | [] => .error .usage
  | c :: rest =>
    match spellings.lookup (String.ofList ['-', c]), rest with
    | none, _ => .error .usage
    | some flag, [] => .ok (if flag.takesValue then ⟨[], some flag⟩ else ⟨[(flag, none)], none⟩)
    | some flag, rest =>
      if flag.takesValue then .ok ⟨[(flag, attachedValue (String.ofList rest))], none⟩
      else do
        let asked ← readLetters spellings rest
        return { asked with flags := (flag, none) :: asked.flags }

/-- What a known option asks for. -/
def askedBy (spellings : Spellings) (flag : Flag) (isShort : Bool) :
    Option String → Except Halt Asked
  | none => .ok (if flag.takesValue then ⟨[], some flag⟩ else ⟨[(flag, none)], none⟩)
  | some text =>
    if flag.takesValue then .ok ⟨[(flag, attachedValue text)], none⟩
    else if !isShort then .error .usage
    else do
      let asked ← readLetters spellings text.toList
      return { asked with flags := (flag, none) :: asked.flags }

end FlowTrace.Command
