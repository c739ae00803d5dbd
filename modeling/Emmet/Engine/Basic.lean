import Emmet.Abbreviation.Scan
import Emmet.Expansion.Error
import Emmet.Expansion.Options

/-!
# Engines

An engine knows the language of abbreviations: it expands one, finds the one that ends at an offset
of a line, and names the snippets that it has. Everything else in the library asks an engine only
for these three things.
-/

namespace Emmet

/-- What knows the language of abbreviations. -/
structure Engine where
  expand : String → ExpansionOptions → Except ExpansionError String
  /-- The abbreviation that ends at a byte of a line. -/
  find : String → Nat → ScanOptions → Option Found := Abbreviation.find?
  /-- The keys of the snippets of a dialect. -/
  snippetKeys : String → List String := fun _ => []

/-- The engine that finds abbreviations and expands none. -/
def Engine.scanOnly : Engine where
  expand abbreviation _ := .error (.unsupported abbreviation)

end Emmet
