import FlowTrace.Log
import FlowTrace.Text.Numeral

/-!
# Settings

How much of a run is kept for going back, and whether output is coloured.  Settings come from the
environment and can be overridden.
-/

namespace FlowTrace

structure Settings where
  windowSize : Int
  unbounded : Bool
  color : Bool
deriving DecidableEq, Repr

namespace Settings

def standard : Settings := ⟨100, false, true⟩

/-- What is odd about the settings. -/
def warnings (s : Settings) : List String :=
  (if s.windowSize < 1 then ["window_size below 1 is treated as 1"] else []) ++
    if s.unbounded && s.windowSize != standard.windowSize then
      ["window_size is ignored in unbounded mode"]
    else []

/-- Settings to be changed; what is `none` stays. -/
structure Overrides where
  windowSize : Option Int
  unbounded : Option Bool
  color : Option Bool
deriving DecidableEq, Repr

def override (s : Settings) (o : Overrides) : Settings where
  windowSize := o.windowSize.getD s.windowSize
  unbounded := o.unbounded.getD s.unbounded
  color := o.color.getD s.color

/-- The values of variables, as far as they are set. -/
abbrev Environment := String → Option String

def windowSizeVariable : String := "TACFLOW_WINDOW_SIZE"

def unboundedVariable : String := "TACFLOW_UNBOUNDED"

/-- Any of these, whatever its value, switches colour off. -/
def noColorVariables : List String := ["TACFLOW_NO_COLOR", "NO_COLOR"]

/-- The words for yes, in lower case. -/
def yesWords : List String := ["1", "true", "yes", "on"]

/-- Whether a value says yes.  Only words of ASCII letters do, so their case is enough. -/
def saysYes (value : String) : Bool :=
  yesWords.contains (String.ofList ((Text.trim value).toList.map Char.toLower))

/-- The size of the window; a value that is no integer is reported and ignored. -/
def windowSizeOf (env : Environment) : Option Int × List Log.Event :=
  match env windowSizeVariable with
  | none => (none, [])
  | some value =>
    if value.isEmpty then (none, [])
    else match Text.readInt value with
      | .ok n => (some n, [])
      | .error _ => (none, [.notInteger windowSizeVariable value])

/-- The settings of an environment, and what there is to report about it. -/
def ofEnvironment (env : Environment) : Settings × List Log.Event :=
  let (windowSize, events) := windowSizeOf env
  (standard.override
    { windowSize
      unbounded := if ((env unboundedVariable).map saysYes).getD false then some true else none
      color := if noColorVariables.any fun v => (env v).isSome then some false else none },
   events)

end Settings

end FlowTrace
