import Emmet.Expansion.Error
import Emmet.Json.Printer
import Emmet.Library.Error
import Emmet.Traced

/-!
# Notices

What the library reports besides its results. A notice is a cause; `Notice.message` words it and
`Notice.level` says how grave it is.
-/

namespace Emmet

/-- Why a candidate is not offered. -/
inductive SkipReason where
  | noAbbreviation
  | invalid
  | failed
  | noise
  | openTag
  deriving DecidableEq, Repr

/-- The wording of a reason. -/
def SkipReason.message : SkipReason → String
  | noAbbreviation => "no abbreviation found"
  | invalid => "invalid abbreviation"
  | failed => "expansion failed"
  | noise => "expansion is noise"
  | openTag => "open tag being typed"

/-- How grave a notice is. -/
inductive Level where
  | debug
  | info
  | warn
  deriving DecidableEq, Repr

/-- The name of a level. -/
def Level.name : Level → String
  | debug => "DEBUG"
  | info => "INFO"
  | warn => "WARN"

/-- Something that is reported. -/
inductive Notice where
  | noAbbreviation (line column : Nat)
  | skipped (abbreviation : String) (reason : SkipReason)
  | expansionFailed (abbreviation : String) (error : ExpansionError)
  | suggestionFailed (abbreviation : String) (error : ExpansionError)
  | leftToProperties (abbreviation : String)
  | oddProfile (profile : Json)
  | oddEntry (key part : String)
  | needsWorkspace (path : String)
  | oddProfilesFile (path : String)
  | noPath
  | loaded (version : Nat) (directory : String) (dialects : Nat)
  | loadFailed (error : LoadError)

namespace Notice

/-- How grave a notice is. -/
def level : Notice → Level
  | loaded .. => .info
  | loadFailed _ => .warn
  | _ => .debug

/-- The wording of a notice. -/
def message : Notice → String
  | noAbbreviation line column =>
    "No abbreviation found at " ++ toString line ++ ":" ++ toString column
  | skipped abbreviation reason => "Skipping '" ++ abbreviation ++ "': " ++ reason.message
  | expansionFailed abbreviation error =>
    "Expanding '" ++ abbreviation ++ "' failed: " ++ error.message
  | suggestionFailed abbreviation error =>
    "Snippet suggestion '" ++ abbreviation ++ "' failed: " ++ error.message
  | leftToProperties abbreviation => "'" ++ abbreviation ++ "' is a CSS property prefix, deferring"
  | oddProfile profile => "Ignoring unsupported profile shape: " ++ profile.compact
  | oddEntry key part => "Skipping non-string entry '" ++ key ++ "' in " ++ part
  | needsWorkspace path =>
    "Relative extensions path '" ++ path ++ "' needs an open workspace folder"
  | oddProfilesFile path => "Ignoring unparsable " ++ path ++ ": <json>"
  | noPath => "No extensions path configured"
  | loaded version directory dialects =>
    "Loaded Emmet customizations v" ++ toString version ++ " from " ++ directory ++ " (" ++
      toString dialects ++ " syntaxes)"
  | loadFailed error => "Failed to load Emmet customizations: " ++ error.message

/-- A notice as a line of a log. -/
def line (n : Notice) : String := n.level.name ++ " " ++ n.message

end Notice

end Emmet
