import FlowTrace.Dataflow.Problem
import FlowTrace.Lattice.Pointwise

/-!
# Constant propagation

What is known of each variable.  Going forward, `in(n)` joins `out(p)` over the predecessors `p` of
`n`, and `out(n)` replays the assignments of `n` on `in(n)`.  An assignment joins its value to what
was known of its target before, so knowledge about a variable only rises along a path.
-/

namespace FlowTrace.Constants

/-- What is known of an operand. -/
def resolve (env : ConstMap) : Operand → Const
  | .var name => env.lookup name
  | .lit value => .known value

/-- What an operator makes of what is known of its operand. -/
def evalUnary (op : UnaryOp) : Const → Const
  | .known a => .known (op.eval a)
  | c => c

/-- What an operator makes of what is known of its operands; a division by zero is no constant. -/
def evalBinary (op : BinaryOp) : Const → Const → Const
  | .known a, .known b =>
    match op.eval a b with
    | some c => .known c
    | none => .nac
  | .nac, _ => .nac
  | _, .nac => .nac
  | _, _ => .unset

/-- The value that an assignment gives its target; other instructions give none. -/
def eval? (env : ConstMap) : Instr.Body → Option Const
  | .copy _ source => some (resolve env source)
  | .unary _ op operand => some (evalUnary op (resolve env operand))
  | .binary _ left op right => some (evalBinary op (resolve env left) (resolve env right))
  | .jump _ | .branch _ _ _ _ | .branchIf _ _ | .branchUnless _ _ => none

/-- What is said of an instruction that is evaluated and assigns nothing. -/
def notAssignmentMessage (i : Instr) : String := "not an assignment: " ++ i.text

/-- The effect of an instruction: the value is joined to what was known of the target. -/
def assign (env : ConstMap) (i : Instr) : ConstMap :=
  match i.defines?, eval? env i.body with
  | some target, some value => env.insert target (Const.join (env.lookup target) value)
  | _, _ => env

/-- The effects of some instructions, one after the other. -/
def replay (instrs : List Instr) (env : ConstMap) : ConstMap := instrs.foldl assign env

/-- The assignments of a node. -/
def definitionsOf (g : FlowGraph) (n : NodeId) : List Instr :=
  ((g.instrsOf n).map (·.2)).filter (·.isAssignment)

/-- The assignments of all nodes. -/
def definitions (g : FlowGraph) : Table NodeId (List Instr) := g.tabulate (definitionsOf g)

/-- The effect of a node of the graph. -/
def replay? (g : FlowGraph) (n : NodeId) (env : ConstMap) : Option ConstMap :=
  ((definitions g).get? n).map (replay · env)

/-- The problem of constant propagation. -/
def problem (g : FlowGraph) : Problem ConstMap :=
  let defs := definitions g
  { name := "constant-propagation"
    direction := .forward
    graph := g
    lattice := ConstMap.lattice
    sides := []
    boundary := fun _ => .empty
    transfer := fun n env => replay ((defs.get? n).getD []) env
    absorb := .overlay
    markers := .empty
    height := 3 * (NameSet.ofList ((defs.values.flatten).filterMap (·.defines?))).size }

end FlowTrace.Constants
