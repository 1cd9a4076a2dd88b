import FlowTrace.Dataflow.Constants
import FlowTrace.Dataflow.Liveness
import FlowTrace.Dataflow.Reaching
import FlowTrace.Text.Quoted

/-!
# Selecting an analysis

The analyses that can be run, by name, with what they take.
-/

namespace FlowTrace

inductive Algorithm where
  | livenessSingle
  | livenessBlocks
  | reachingDefinitions
  | constantPropagation
deriving DecidableEq, Repr

namespace Algorithm

def all : List Algorithm :=
  [livenessSingle, livenessBlocks, reachingDefinitions, constantPropagation]

def name : Algorithm → String
  | livenessSingle => "liveness-single-instruction"
  | livenessBlocks => "liveness-basic-blocks"
  | reachingDefinitions => "reaching-definitions-basic-blocks"
  | constantPropagation => "constant-propagation-basic-blocks"

def ofName? (s : String) : Option Algorithm := all.find? (·.name == s)

/-- What is said of a name that is no algorithm. -/
def unknownMessage (s : String) : String := Text.quote s ++ " is not a valid AlgorithmKind"

/-- Whether it matters which variables are live at the exit. -/
def takesLiveOut : Algorithm → Bool
  | livenessSingle | livenessBlocks => true
  | reachingDefinitions | constantPropagation => false

def graphKind : Algorithm → GraphKind
  | livenessSingle => .single
  | livenessBlocks | reachingDefinitions | constantPropagation => .blocks

end Algorithm

/-- An algorithm with the variables that are live at the exit. -/
structure Selection where
  algorithm : Algorithm
  liveOut : NameSet

namespace Selection

/-- The set of live variables is dropped where it does not matter. -/
def of (algorithm : Algorithm) (liveOut : NameSet) : Selection :=
  ⟨algorithm, if algorithm.takesLiveOut then liveOut else ∅⟩

end Selection

end FlowTrace
