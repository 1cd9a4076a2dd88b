import FlowTrace.Command.Perform

/-!
# The command line

Everything that a command needs is read first; then it is carried out, and what it printed and
reported is written.
-/

namespace FlowTrace.Command

/-- Read a stream to its end. -/
partial def readToEnd (input : IO.FS.Stream) (text : String) : IO String := do
  let line ← input.getLine
  if line.isEmpty then return text else readToEnd input (text ++ line)

/-- The number of an error of the system, which may come with either sign. -/
def errorNumber (code : UInt32) : Nat := min code.toNat (0 - code).toNat

/-- Why a file could not be read. -/
def fileError : IO.Error → FileError
  | .noFileOrDirectory .. => .notFound
  | .inappropriateType _ code _ =>
    if errorNumber code = FileError.notDirectory.number then .notDirectory else .isDirectory
  | .invalidArgument _ code details =>
    if errorNumber code = FileError.nameTooLong.number then .nameTooLong
    else .other (errorNumber code) details
  | .permissionDenied _ code details => .other (errorNumber code) details
  | e => .other 5 (toString e)

/-- The values of the variables that settings are read from. -/
def readEnvironment : IO Settings.Environment := do
  let names :=
    Settings.windowSizeVariable :: Settings.unboundedVariable :: Settings.noColorVariables
  let values ← names.mapM fun name => return (name, ← IO.getEnv name)
  return fun name => (List.lookup name values).join

/-- The names and home directories in a list of accounts, of which each has a line. -/
def homesOf (accounts : String) : List (String × String) :=
  (accounts.splitOn "\n").filterMap fun line =>
    match line.splitOn ":" with
    | name :: _ :: _ :: _ :: _ :: home :: _ => some (name, home)
    | _ => none

/-- The home directories of the system. -/
def readHomes : IO (List (String × String)) := do
  let own := (← IO.getEnv "HOME").toList.map ("", ·)
  match ← (IO.FS.readFile "/etc/passwd").toBaseIO with
  | .ok accounts => return own ++ homesOf accounts
  | .error _ => return own

/-- What an invocation needs from its surroundings. -/
def readWorld (file : String) : IO World := do
  let homes ← readHomes
  let home := fun name => List.lookup name homes
  let here ← IO.currentDir
  let path : String := match usablePath home file with
    | .ok path => "/" ++ "/".intercalate (resolve (resolve [] here.toString) path)
    | .error _ => ""
  let standardInput ← if file = "-" then readToEnd (← IO.getStdin) "" else pure ""
  let text ← (IO.FS.readFile path).toBaseIO
  return {
    environment := ← readEnvironment
    standardInput
    home
    fullPath := fun _ => path
    contents := fun _ => text.mapError fileError }

end FlowTrace.Command

open FlowTrace.Command in
def main (args : List String) : IO UInt32 := do
  let file ← match parseArguments args with
    | .ok i => pure i.file
    | .error halt =>
      if halt ≠ .version then usage.forM fun line => IO.eprintln line
      pure ""
  let outcome := execute (← readWorld file) args
  IO.print outcome.printed
  outcome.log.forM fun line => IO.eprintln line
  return outcome.status.toUInt32
