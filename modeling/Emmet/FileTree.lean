import Emmet.Files

/-!
# File trees

A file tree is a file system as a value: directories and files under their paths from the root.
`FileTree.system` answers for it as a file system does, walking a path part by part.
-/

namespace Emmet

/-- What stands at a path of a tree. -/
inductive FileEntry where
  | directory
  /-- A file with its text; `none` if its bytes are not a text. -/
  | file (text : Option String)
  deriving DecidableEq, Repr

/-- Directories and files under the parts of their paths. The root is always there. -/
structure FileTree where
  entries : List (List String × FileEntry) := []

namespace FileTree

/-- The parts of a path between slashes. -/
def parts (path : String) : List String :=
  (path.toList.splitOn '/').map String.ofList

/-- What stands at the end of some parts without dots. -/
def entry? (t : FileTree) (place : List String) : Option FileEntry :=
  if place = [] then some .directory else t.entries.lookup place

/-- Walks on from a place. An empty part and a dot stay, two dots go up; each needs a directory to
start from. -/
def walk (t : FileTree) (place : List String) : List String → Except ReadError (List String)
  | [] => .ok place
  | part :: rest =>
    match t.entry? place with
    | some .directory =>
      if part = "" ∨ part = "." then walk t place rest
      else if part = ".." then walk t place.dropLast rest
      else if (t.entry? (place ++ [part])).isSome then walk t (place ++ [part]) rest
      else .error .notFound
    | some (.file _) => .error .notADirectory
    | none => .error .notFound

/-- What a path leads to; relative paths lead nowhere. -/
def lookup (t : FileTree) (path : String) : Except ReadError FileEntry := do
  if !Path.isAbsolute path then throw .notFound
  let place ← t.walk [] (parts path)
  match t.entry? place with
  | some entry => return entry
  | none => throw .notFound

/-- What stands at a path. -/
def kind (t : FileTree) (path : String) : PathKind :=
  match t.lookup path with
  | .ok .directory => .directory
  | .ok (.file _) => .other
  | .error _ => .missing

/-- The text of a file. -/
def read (t : FileTree) (path : String) : Except ReadError String :=
  match t.lookup path with
  | .ok .directory => .error .isADirectory
  | .ok (.file (some text)) => .ok text
  | .ok (.file none) => .error .invalidData
  | .error e => .error e

/-- The tree as a file system with a home directory. -/
def system (t : FileTree) (home : String) : FileSystem := ⟨t.kind, t.read, some home⟩

/-- Makes the directories on the way to a place; a file on the way stops this. -/
def makeDirectories (t : FileTree) (place : List String) : List String → Option FileTree
  | [] => some t
  | part :: rest =>
    let next := place ++ [part]
    match t.entry? next with
    | some .directory => makeDirectories t next rest
    | some (.file _) => none
    | none => makeDirectories ⟨t.entries ++ [(next, .directory)]⟩ next rest

/-- The parts of a path without dots and empty parts. -/
def plainParts (path : String) : List String :=
  (parts path).foldl (fun place part =>
    if part = "" ∨ part = "." then place
    else if part = ".." then place.dropLast
    else place ++ [part]) []

/-- Makes a directory and those on the way to it. -/
def addDirectory (t : FileTree) (path : String) : FileTree :=
  (t.makeDirectories [] (plainParts path)).getD t

/-- Writes a file and makes the directories on the way to it. A directory is not written over. -/
def addFile (t : FileTree) (path : String) (text : Option String) : FileTree :=
  let place := plainParts path
  match t.makeDirectories [] place.dropLast with
  | none => t
  | some t =>
    match t.entry? place with
    | some .directory => t
    | _ => ⟨(t.entries.filter fun e => e.1 != place) ++ [(place, .file text)]⟩

/-- Removes what stands at a path, a directory with everything in it. -/
def remove (t : FileTree) (path : String) : FileTree :=
  let place := plainParts path
  ⟨t.entries.filter fun e => !place.isPrefixOf e.1⟩

end FileTree

end Emmet
