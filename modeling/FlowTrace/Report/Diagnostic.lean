import FlowTrace.Source.Fault
import FlowTrace.Text.Cutting
import FlowTrace.Text.Style

/-!
# Diagnostics

A fault is shown with its code, its place and, if the source is known, the line it stands on:

    error[TAC-3000]: the label LOOP is never defined
      --> prog.tac:3
       |
     3 | goto LOOP
       |

-/

namespace FlowTrace.Report

open Text

/-- The name of a source that has none. -/
def unnamed : String := "<input>"

/-- The line of a source that is shown for a line number. -/
def excerpt? (lines : List String) (line : Int) : Option String :=
  if 1 ≤ line then (lines[line.toNat - 1]?).map trim else none

/-- The lines that show where a fault stands. -/
def excerptBlock (paint : Coloring) (line : Int) (text : String) : List String :=
  let gutter := " " ++ String.ofList (List.replicate (toString line).length ' ') ++ " "
  let bar := paint Color.blue.bold "|"
  [gutter ++ bar,
   " " ++ paint Color.blue.bold (toString line) ++ " " ++ bar ++ " " ++ text,
   gutter ++ bar]

/-- One fault. -/
def diagnostic (f : Fault) (name : String) (lines : List String) (color : Bool)
    (colored : Coloring := terminalColoring) : String :=
  let paint := painter colored color
  "\n".intercalate <|
    [paint Color.red.bold ("error[" ++ f.code.text ++ "]") ++ ": " ++
       paint Color.white.bold f.reason,
     "  " ++ paint Color.blue.bold "-->" ++ " " ++ name ++ ":" ++ toString f.line] ++
    match excerpt? lines f.line with
    | some text => excerptBlock paint f.line text
    | none => []

/-- All faults by line, and how many there are. -/
def diagnostics (faults : List Fault) (name : String) (source : Option String) (color : Bool)
    (colored : Coloring := terminalColoring) : String :=
  let lines := match source with
    | some text => (displayLines text.toList).map String.ofList
    | none => []
  "\n\n".intercalate <|
    (sortByLine faults).map (diagnostic · name lines color colored) ++
      [painter colored color Color.red.bold ("  ╰─ found " ++ problems faults.length)]

end FlowTrace.Report
