import Emmet.Json.Basic
import Emmet.Template

/-!
# Output options

The options that steer how an expansion is written: named JSON values in the order in which they
were set, and the form in which tab stops are written.
-/

namespace Emmet

/-- How expansions are written. -/
structure Output where
  values : Table Json := []
  /-- Writes the tab stop of a number with a text to write over. -/
  field : Nat → String → String := Template.field

namespace Output

/-- The value of an option. -/
def find? (o : Output) (key : String) : Option Json := Table.find? o.values key

/-- The text of an option that is a string. -/
def string? (o : Output) (key : String) : Option String := (o.find? key).bind Json.string?

/-- The truth value of an option that is a boolean. -/
def bool? (o : Output) (key : String) : Option Bool := (o.find? key).bind Json.bool?

/-- Sets an option; one that is set already keeps its place. -/
def set (o : Output) (key : String) (value : Json) : Output :=
  { o with values := Table.put o.values key value }

/-- The text between a property and its value. -/
def between (o : Output) : String := (o.string? "stylesheet.between").getD ": "

/-- The text after the value of a property. -/
def after (o : Output) : String := (o.string? "stylesheet.after").getD ";"

end Output

end Emmet
