import FlowTrace.Program.Basic
import FlowTrace.Source.Parse

/-!
# Verified programs

A list of instructions is a program if no label is carried twice and every jump goes to a label
that is carried.  All repeated labels are reported first, then all undefined ones.
-/

namespace FlowTrace.Program

/-- Enter the labels of the code into a table, and report those that were there before. -/
def enterLabels (labels : Table String NodeId) :
    List (NodeId × Instr) → Table String NodeId × List Fault
  | [] => (labels, [])
  | (i, instr) :: code =>
    match instr.label with
    | none => enterLabels labels code
    | some label =>
      if labels.contains label then
        let (labels, faults) := enterLabels labels code
        (labels, ⟨.repeatedLabel label, instr.line⟩ :: faults)
      else enterLabels (labels.insert label i) code

/-- Report the jumps to labels that are not in the table. -/
def undefinedTargets (labels : Table String NodeId) (code : List (NodeId × Instr)) : List Fault :=
  code.filterMap fun (_, instr) =>
    match instr.target? with
    | some label =>
      if labels.contains label then none else some ⟨.undefinedLabel label, instr.line⟩
    | none => none

/-- Number the instructions and verify their labels. -/
def ofInstrs (instrs : List Instr) (supply : Supply) : Except Rejection Program :=
  let (code, supply) := supply.number instrs
  let (labels, repeated) := enterLabels .empty code
  let faults := repeated ++ undefinedTargets labels code
  match ofCode? code labels supply with
  | none => .error ⟨[⟨.emptyProgram, 1⟩]⟩
  | some p => if faults.isEmpty then .ok p else .error ⟨faults⟩

/-- The program of a text.  A phase only runs if the one before found nothing. -/
def ofText (text : String) (supply : Supply) : Except SourceError Program := do
  (ofInstrs (← Instr.ofText text) supply).mapError .rejected

/-- Code whose labels are entered without being verified; a label that comes again takes the later
place. -/
def ofUnverified? (code : List (NodeId × Instr)) (supply : Supply) : Option Program :=
  ofCode? code (.ofList (code.filterMap fun (i, instr) => instr.label.map (·, i))) supply

end FlowTrace.Program
