import Emmet.Files

/-!
# Failed loading of a library

Why the library of an extensions directory could not be loaded, with the texts that are shown.
-/

namespace Emmet

/-- Why a document is refused. -/
inductive DocumentError where
  /-- The text is not JSON. -/
  | json
  /-- The document is not an object. -/
  | notAnObject
  deriving DecidableEq, Repr

/-- The text of an error; the words of the JSON reader are not part of it. -/
def DocumentError.message : DocumentError → String
  | json => "<json>"
  | notAnObject => "expected an object keyed by syntax name"

/-- Why a library could not be loaded. -/
inductive LoadError where
  /-- None of the configured paths leads anywhere. -/
  | notFound (paths : List String)
  /-- The path leads to something that is no directory. -/
  | notADirectory (path : String)
  /-- The file holds no library. -/
  | refused (path : String) (reason : DocumentError)
  /-- The file cannot be read. -/
  | unreadable (path : String) (reason : ReadError)
  deriving DecidableEq, Repr

/-- The text of an error. -/
def LoadError.message : LoadError → String
  | notFound paths =>
    "The directory " ++ ", ".intercalate paths ++
      " doesn't exist. Update the emmet.extensionsPath setting"
  | notADirectory path =>
    "The path " ++ path ++
      " is not a usable directory. Update the emmet.extensionsPath setting"
  | refused path reason =>
    "Error while parsing " ++ path ++ ": " ++ reason.message ++
      ". Fix the file or update the emmet.extensionsPath setting"
  | unreadable path reason =>
    "Failed to read " ++ path ++ ": <" ++ reason.name ++
      ">. Check the emmet.extensionsPath setting"

end Emmet
