/-!
# Paths and file systems

A file system answers two questions about a path: what stands there, and what the text of the file
is. `Path.join` puts paths together without looking at the file system.
-/

namespace Emmet

/-- Why a file has no text. -/
inductive ReadError where
  | notFound
  | isADirectory
  | notADirectory
  /-- The bytes of the file are not a text. -/
  | invalidData
  deriving DecidableEq, Repr

/-- The name of an error. -/
def ReadError.name : ReadError → String
  | notFound => "NotFound"
  | isADirectory => "IsADirectory"
  | notADirectory => "NotADirectory"
  | invalidData => "InvalidData"

/-- What stands at a path. -/
inductive PathKind where
  | directory
  | other
  | missing
  deriving DecidableEq, Repr

/-- A file system as it is found at one moment. -/
structure FileSystem where
  kind : String → PathKind
  read : String → Except ReadError String
  /-- The home directory, if it is known. -/
  home : Option String

namespace Path

/-- Whether a path starts at the root. -/
def isAbsolute (path : String) : Bool := path.toList.head? == some '/'

/-- The path that leads from a base; an absolute path does not need one. -/
def join (base path : String) : String :=
  if isAbsolute path then path
  else if base = "" ∨ base.toList.getLast? = some '/' then base ++ path
  else base ++ "/" ++ path

end Path

end Emmet
