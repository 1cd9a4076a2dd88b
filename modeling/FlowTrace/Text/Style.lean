/-!
# Terminal styles

How a text is to appear, and the escape sequences that make a terminal show it so.  Reports are
written for any way of colouring texts.
-/

namespace FlowTrace.Text

inductive Color where
  | red | green | yellow | blue | magenta | cyan | white
deriving DecidableEq, Repr

inductive Emphasis where
  | bold | dark | underline
deriving DecidableEq, Repr

def Color.code : Color → Nat
  | red => 31
  | green => 32
  | yellow => 33
  | blue => 34
  | magenta => 35
  | cyan => 36
  | white => 97

def Emphasis.code : Emphasis → Nat
  | bold => 1
  | dark => 2
  | underline => 4

/-- How a text is to appear. -/
structure Style where
  color : Option Color
  emphases : List Emphasis
deriving DecidableEq, Repr

/-- A colour in bold. -/
def Color.bold (c : Color) : Style := ⟨some c, [.bold]⟩

/-- A way to write texts in their styles. -/
abbrev Coloring := Style → String → String

/-- The sequence that selects a rendition. -/
def escape (code : Nat) : String := "\x1b[" ++ toString code ++ "m"

/-- The usual way: the colour stands next to the text, each emphasis in front of what was there
before, and a reset at the end. -/
def terminalColoring : Coloring := fun st text =>
  let colored := match st.color with
    | some c => escape c.code ++ text
    | none => text
  st.emphases.foldl (fun acc e => escape e.code ++ acc) colored ++ escape 0

/-- Texts are coloured if colours are on, and else left as they are. -/
def painter (colored : Coloring) (on : Bool) : Coloring := fun st text =>
  if on then colored st text else text

end FlowTrace.Text
