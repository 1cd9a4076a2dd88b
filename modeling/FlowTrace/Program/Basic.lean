import FlowTrace.Source.Instr
import FlowTrace.Table

/-!
# Programs

A program numbers its instructions.  Ids come from a supply, which also hands out the ids of the
graph nodes that stand for no instruction; they need not be increasing, so the order of a program
is that of its code and not that of its ids.  Were an id used twice, its last use would count.
-/

namespace FlowTrace

/-- Instructions and graph nodes are known by ids. -/
abbrev NodeId := Int

/-- Hands out ids: first the listed ones, then the integers from `upcoming` on. -/
structure Supply where
  listed : List NodeId
  upcoming : NodeId
deriving DecidableEq, Repr

namespace Supply

/-- Count from a first id on. -/
def countFrom (start : NodeId) : Supply := ⟨[], start⟩

/-- The id that comes next. -/
def peek (s : Supply) : NodeId := s.listed.headD s.upcoming

/-- The supply after an id was taken. -/
def advance (s : Supply) : Supply :=
  match s.listed with
  | [] => ⟨[], s.upcoming + 1⟩
  | _ :: rest => ⟨rest, s.upcoming⟩

/-- Give an id to each item in turn. -/
def number {α : Type} (s : Supply) : List α → List (NodeId × α) × Supply
  | [] => ([], s)
  | a :: as =>
    let (numbered, s') := s.advance.number as
    ((s.peek, a) :: numbered, s')

end Supply

/-- Numbered instructions, where each label stands, and the supply of further ids. -/
structure Program where
  code : List (NodeId × Instr)
  labels : Table String NodeId
  supply : Supply
  code_ne_nil : code ≠ []

namespace Program

/-- A program of some code; there is none without instructions. -/
def ofCode? (code : List (NodeId × Instr)) (labels : Table String NodeId) (supply : Supply) :
    Option Program :=
  if h : code ≠ [] then some ⟨code, labels, supply, h⟩ else none

/-- What is said of a program without instructions. -/
def noCodeMessage : String := "a program needs at least one instruction"

def ids (p : Program) : List NodeId := p.code.map (·.1)

def size (p : Program) : Nat := p.code.length

def first (p : Program) : NodeId := (p.code.head p.code_ne_nil).1

def last (p : Program) : NodeId := (p.code.getLast p.code_ne_nil).1

/-- The instruction of an id. -/
def instr? (p : Program) (i : NodeId) : Option Instr := p.code.reverse.lookup i

/-- The place of an id in the code. -/
def position? (p : Program) (i : NodeId) : Option Nat :=
  p.ids.zipIdx.reverse.lookup i

def contains (p : Program) (i : NodeId) : Bool := (p.instr? i).isSome

/-- Instructions in order; an id stands for its instruction wherever it occurs. -/
def instrs (p : Program) : List (NodeId × Instr) :=
  p.ids.filterMap fun i => (p.instr? i).map (i, ·)

/-- The instruction that carries a label. -/
def labelled? (p : Program) (label : String) : Option NodeId := p.labels.get? label

/-- The id that follows in the code. -/
def following? (p : Program) (i : NodeId) : Option NodeId := do
  p.ids[(← p.position? i) + 1]?

/-- Where the instruction may jump; a label that is not defined is nowhere. -/
def jumpTargets (p : Program) (i : NodeId) : List (Option NodeId) :=
  ((p.instr? i).bind (·.target?)).toList.map p.labelled?

/-- Whether control may go on to the next instruction. -/
def fallsThrough (p : Program) (i : NodeId) : Bool :=
  match p.instr? i with
  | some instr => !instr.isJump || instr.isConditional
  | none => false

/-- What may be executed right after an instruction: the next one, then the target of a jump.  No
place is named twice. -/
def executedAfter (p : Program) (i : NodeId) : List (Option NodeId) :=
  let next := if p.fallsThrough i then (p.following? i).toList.map some else []
  next ++ (p.jumpTargets i).filter (· ∉ next)

/-- The instructions that may be executed right after an instruction. -/
def successors (p : Program) (i : NodeId) : List NodeId := (p.executedAfter i).filterMap id

/-- The ids from one place up to another, or to the end; `none` if a place is unknown. -/
def range? (p : Program) (start : NodeId) (stop : Option NodeId) : Option (List NodeId) := do
  let lo ← p.position? start
  let hi ← match stop with
    | some i => p.position? i
    | none => some p.ids.length
  return (p.ids.drop lo).take (hi - lo)

/-- Whether one instruction stands strictly before another. -/
def isBefore (p : Program) (i j : NodeId) : Bool :=
  match p.position? i, p.position? j with
  | some a, some b => a < b
  | _, _ => false

/-- Take the next id of the supply. -/
def reserve (p : Program) : NodeId × Program :=
  (p.supply.peek, { p with supply := p.supply.advance })

end Program

end FlowTrace
