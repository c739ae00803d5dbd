import Emmet.Json.Reader
import Emmet.Library.Basic

/-!
# Loading libraries

A library is kept in a directory with the file `snippets.json` and, if there are profiles, the file
`syntaxProfiles.json`. `resolve` picks the directory among the configured paths and `load` reads its
files.
-/

namespace Emmet.Library

/-- The file with variables and snippets. -/
def snippetsFile : String := "snippets.json"

/-- The file with profiles. -/
def profilesFile : String := "syntaxProfiles.json"

/-! ### Directories -/

/-- Whether a character separates the parts of a path below the home directory. -/
def isSlash (c : Char) : Bool := c == '/' || c == '\\'

/-- The path below the home directory that a path with a tilde at its front stands for. -/
def homePath? (fs : FileSystem) (path : String) : Option String :=
  match path.toList with
  | '~' :: rest =>
    if rest.head?.all isSlash then
      fs.home.map fun home => Path.join home (String.ofList (rest.dropWhile isSlash))
    else none
  | _ => none

/-- The directories that a configured path may mean. A relative path means one in every workspace
folder. -/
def candidates (fs : FileSystem) (folders : List String) (path : String) : List String :=
  match homePath? fs path with
  | some home => [home]
  | none => if Path.isAbsolute path then [path] else folders.map fun f => Path.join f path

/-- The candidates of all paths, in order. A path without candidates is reported when the search
comes to it. -/
def search (fs : FileSystem) (folders : List String) (blocked : Option String) :
    List String → Traced Notice (Except (Option String) String)
  | [] => pure (.error blocked)
  | path :: paths => do
    let found := candidates fs folders path
    if found.isEmpty then Traced.emit (.needsWorkspace path)
    match found.find? fun c => fs.kind c == .directory with
    | some directory => return .ok directory
    | none =>
      let blocked := blocked <|> found.find? fun c => fs.kind c == .other
      search fs folders blocked paths

/-- The first candidate that is a directory. If there is none, the first one that is something else
is to blame, and if no candidate exists, all paths are. -/
def resolve (fs : FileSystem) (folders paths : List String) :
    Traced Notice (Except LoadError String) := do
  let found ← search fs folders none paths
  return match found with
    | .ok directory => .ok directory
    | .error (some path) => .error (.notADirectory path)
    | .error none => .error (.notFound paths)

/-! ### Files -/

/-- The value that a text holds, or that it holds none. -/
def document? (text : String) : Option Json := (Json.parse text.toList).toOption

/-- The document with profiles in a directory; one that cannot be used is passed over. -/
def loadProfiles (fs : FileSystem) (directory : String) : Traced Notice (Option Json) :=
  let path := Path.join directory profilesFile
  match fs.read path with
  | .ok text =>
    match document? text with
    | some profiles => pure (some profiles)
    | none => do
      Traced.emit (.oddProfilesFile path)
      return none
  | .error _ => pure none

/-- The library in a directory. -/
def load (fs : FileSystem) (directory : String) : Traced Notice (Except LoadError Library) :=
  let path := Path.join directory snippetsFile
  match fs.read path with
  | .error reason => pure (.error (.unreadable path reason))
  | .ok text =>
    match document? text with
    | none => pure (.error (.refused path .json))
    | some snippets => do
      let profiles ← loadProfiles fs directory
      let library ← ofDocuments snippets profiles
      return match library with
        | .ok l => .ok { l with source := some directory }
        | .error reason => .error (.refused path reason)

end Emmet.Library
