import FlowTrace.Text.Quoted

/-!
# Reading files

Why a file cannot be read, and directories whose files are given as texts.
-/

namespace FlowTrace.Command

/-- A failure of the file system. -/
inductive FileError where
  | notFound
  | notDirectory
  | isDirectory
  | nameTooLong
  | other (number : Nat) (text : String)
deriving DecidableEq, Repr

namespace FileError

def number : FileError → Nat
  | notFound => 2
  | notDirectory => 20
  | isDirectory => 21
  | nameTooLong => 36
  | other number _ => number

def text : FileError → String
  | notFound => "No such file or directory"
  | notDirectory => "Not a directory"
  | isDirectory => "Is a directory"
  | nameTooLong => "File name too long"
  | other _ text => text

/-- What is said when the file at a path cannot be read. -/
def message (e : FileError) (path : String) : String :=
  "cannot read " ++ path ++ ": [Errno " ++ toString e.number ++ "] " ++ e.text ++ ": " ++
    Text.quote path

end FileError

/-- What makes a path unusable, whatever the file system. -/
inductive PathError where
  /-- It starts at the home directory of someone who has none. -/
  | noHome
  | nullByte
deriving DecidableEq, Repr

def PathError.message : PathError → String
  | noHome => "Could not determine home directory."
  | nullByte => "embedded null byte"

/-- Whether a text holds the character that no path has. -/
def hasNull (text : String) : Bool := text.toList.contains '\x00'

/-- The parts of a path that count: an empty part and a dot stay at the same place. -/
def partsOf (path : String) : List String :=
  (path.splitOn "/").filter fun part => !(part.isEmpty || part == ".")

/-- The path with a home directory for a first part that is a tilde and a name, and that is not
below the root. -/
def expandHome (home : String → Option String) (path : String) : Except PathError String :=
  match path.startsWith "/", partsOf path with
  | false, first :: rest =>
    match first.toList with
    | '~' :: name =>
      if hasNull first then .error .nullByte
      else match home (String.ofList name) with
        | some place => .ok ("/".intercalate (place :: rest))
        | none => .error .noHome
    | _ => .ok path
  | _, _ => .ok path

/-- The path to be used for what was given as a path. -/
def usablePath (home : String → Option String) (path : String) : Except PathError String := do
  let path ← expandHome home path
  if hasNull path then .error .nullByte else return path

/-- Follow the parts of a path from a place; two dots go up. -/
def walk (place : List String) : List String → List String
  | [] => place
  | part :: parts => walk (if part == ".." then place.dropLast else place ++ [part]) parts

/-- The place that a path leads to from another one, or from the root if it is absolute. -/
def resolve (place : List String) (path : String) : List String :=
  walk (if path.startsWith "/" then [] else place) (partsOf path)

/-- A place and the files below it, by their paths from there. -/
structure Directory where
  place : String
  files : List (List String × String)
deriving DecidableEq, Repr

namespace Directory

/-- A directory whose files are given by paths. -/
def ofPaths (place : String) (files : List (String × String)) : Directory where
  place
  files := files.map fun (path, text) => (resolve [] path, text)

/-- The path from the directory on; `none` if it leads elsewhere. -/
def below? (d : Directory) (path : String) : Option (List String) :=
  if path.startsWith "/" then none
  else match resolve [d.place] path with
    | [] => none
    | place :: parts => if place == d.place then some parts else none

/-- The full path of a file. -/
def fullPath (d : Directory) (path : String) : String :=
  match d.below? path with
  | some parts => "/".intercalate (d.place :: parts)
  | none => "/" ++ "/".intercalate (resolve [] path)

/-- Names have at most this many bytes. -/
def nameLimit : Nat := 255

/-- Full paths have fewer bytes than this. -/
def pathLimit : Nat := 4096

end Directory

/-- Look for a file among some files and directories below a place, part by part. -/
def findFile (files : List (List String × String)) (directories : List (List String))
    (here : List String) : List String → Except FileError String
  | [] => .error .isDirectory
  | part :: parts =>
    let there := here ++ [part]
    if Directory.nameLimit < part.utf8ByteSize then .error .nameTooLong
    else match files.lookup there with
      | some text => if parts.isEmpty then .ok text else .error .notDirectory
      | none =>
        if directories.contains there || files.any fun (file, _) => there.isPrefixOf file then
          findFile files directories there parts
        else .error .notFound

namespace Directory

/-- What is known of the files elsewhere: the null device is empty. -/
def filesElsewhere : List (List String × String) := [(["dev", "null"], "")]

/-- Some directories that are on every system. -/
def directoriesElsewhere : List (List String) := [["etc"], ["tmp"], ["usr"], ["var"]]

/-- The text of a file. -/
def read (d : Directory) (path : String) : Except FileError String :=
  if pathLimit ≤ (d.fullPath path).utf8ByteSize then .error .nameTooLong
  else match d.below? path with
    | some parts => findFile d.files [] [] parts
    | none => findFile filesElsewhere directoriesElsewhere [] (resolve [] path)

end Directory

end FlowTrace.Command
