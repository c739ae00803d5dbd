/-!
# Failed expansions

Why an engine gives no expansion for an abbreviation.
-/

namespace Emmet

/-- Why there is no expansion. -/
inductive ExpansionError where
  /-- The text is not an abbreviation. -/
  | unparseable (abbreviation : String)
  /-- The engine does not know abbreviations of this kind. -/
  | unsupported (abbreviation : String)
  deriving DecidableEq, Repr

/-- The text of an error. -/
def ExpansionError.message : ExpansionError → String
  | unparseable abbreviation => "Unable to parse abbreviation: " ++ abbreviation
  | unsupported abbreviation => "Unsupported abbreviation: " ++ abbreviation

end Emmet
