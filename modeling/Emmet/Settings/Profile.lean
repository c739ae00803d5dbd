import Emmet.Notice
import Emmet.Table

/-!
# Profiles

A profile says how the markup of a dialect is written. Older profiles use other names and looser
values; `Profile.modernize` gives every profile the current names and values. `Profile.resolve`
picks the profile of a dialect.
-/

namespace Emmet.Profile

/-- The current name of an option that had another one. -/
def currentName? (key : String) : Option String :=
  if key = "tag_case" then some "tagCase"
  else if key = "attr_case" then some "attributeCase"
  else if key = "attr_quotes" then some "attributeQuotes"
  else if key = "tag_nl" then some "format"
  else if key = "inline_break" then some "inlineBreak"
  else if key = "self_closing_tag" then some "selfClosingStyle"
  else if key = "compact_bool" then some "compactBooleanAttributes"
  else none

/-- A letter case: `lower`, `upper`, or the empty text for the case as it is typed. -/
def letterCase (value : Json) : Json :=
  match value with
  | .string s => if s = "lower" ∨ s = "upper" then .string s else .string ""
  | _ => .string ""

/-- The current value of an option under one of its names. A line break that was left to the
program is one that is wanted, and a truth value for closing stands for XML or HTML. -/
def currentValue (key : String) (value : Json) : Json :=
  if key = "tag_case" ∨ key = "attr_case" then letterCase value
  else if key = "tag_nl" then .bool (value.bool?.getD true)
  else if key = "self_closing_tag" then
    match value with
    | .bool true => .string "xml"
    | .bool false => .string "html"
    | other => other
  else value

/-- The current name and value of an option. -/
def currentEntry (entry : String × Json) : String × Json :=
  ((currentName? entry.1).getD entry.1, currentValue entry.1 entry.2)

/-- A profile with current names and values. The text `xhtml` stands for a profile that closes
elements as in XHTML; another text is an empty profile, and so is a value that is no object. -/
def modernize (profile : Json) : Traced Notice (Table Json) :=
  match profile with
  | .object entries => pure (Table.ofEntries (entries.map currentEntry))
  | .string s =>
    if s = "xhtml" then pure [("selfClosingStyle", .string "xhtml")]
    else do
      Traced.emit (.oddProfile profile)
      return []
  | _ => do
    Traced.emit (.oddProfile profile)
    return []

/-- The profile of a dialect: the one in the settings, else the one in the library, else an empty
one. -/
def resolve (dialect : String) (settings library : Table Json) : Traced Notice (Table Json) :=
  match Table.find? settings dialect with
  | some profile => modernize profile
  | none =>
    match Table.find? library dialect with
    | some profile => modernize profile
    | none => pure []

end Emmet.Profile
