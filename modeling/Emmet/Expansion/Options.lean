import Emmet.Expansion.Output
import Emmet.Library.Basic
import Emmet.Settings.Basic
import Emmet.Settings.Profile

/-!
# Options of an expansion

An engine expands an abbreviation with options that are all resolved beforehand: from the profile of
the dialect, the preferences of the user and defaults. `ExpansionOptions.resolve` puts them
together.
-/

namespace Emmet

/-- Everything that an engine needs besides the abbreviation. -/
structure ExpansionOptions where
  family : Family
  dialect : String
  output : Output
  bindings : Table String
  /-- The snippets of the user, none if there are none for the dialect. -/
  snippets : Option (Table String)
  /-- How often an element may be repeated. -/
  repeatLimit : Nat

namespace ExpansionOptions

/-- How often an element may be repeated. -/
def maxRepeat : Nat := 1000

/-! ### Choosing values -/

/-- The value of a preference; `null` is none. -/
def preference? (preferences : Table Json) (key : String) : Option Json :=
  (Table.find? preferences key).filter fun v => !v.isNull

/-- The value of a preference, or a default. -/
def preferenceOr (preferences : Table Json) (key : String) (default : Json) : Json :=
  (preference? preferences key).getD default

/-- The first value that is not `null`, or a default. -/
def firstOf (candidates : List (Option Json)) (default : Json) : Json :=
  ((candidates.filterMap id).find? fun v => !v.isNull).getD default

/-- The short forms of units that are known without a preference. -/
def defaultUnits : Table Json :=
  [("e", .string "em"), ("p", .string "%"), ("x", .string "ex"), ("r", .string "rem")]

/-- The short form and the unit in a field of a comma list. -/
def unitOf? (part : List Char) : Option (String × Json) :=
  match Text.splitOnce ':' part with
  | some (short, unit) =>
    let short := Text.trim short
    if short = [] then none
    else some (String.ofList short, .string (String.ofList (Text.trim unit)))
  | none => none

/-- The short forms of units, those of a preference written over the defaults. The preference is a
comma list such as `e:em, p:%`, or an object. -/
def units (preference : Option Json) : Json :=
  match preference with
  | some (.string list) =>
    .object (Table.overlay defaultUnits ((list.toList.splitOn ',').filterMap unitOf?))
  | some (.object entries) => .object (Table.overlay defaultUnits entries)
  | _ => .object defaultUnits

/-- The least score of a match that is close enough, between zero and one. -/
def minimalScore (preference : Option Json) : Float :=
  match preference.bind Json.float? with
  | some score =>
    if score.isFinite then
      let score := if score < 0.0 then 0.0 else score
      if 1.0 < score then 1.0 else score
    else 0.3
  | none => 0.3

/-- The text between a property and its value. -/
def defaultBetween (dialect : String) : String := if dialect = "stylus" then " " else ": "

/-- The text after the value of a property. -/
def defaultAfter (dialect : String) : String :=
  if dialect = "sass" ∨ dialect = "stylus" then "" else ";"

/-- The filters that a profile names. -/
def profileFilters (profile : Table Json) : List Filter :=
  match Table.find? profile "filters" with
  | some (.string codes) => Filter.ofCodes codes
  | _ => []

/-! ### The output options -/

/-- The output options of a dialect, in order. The separators of style sheets are those of CSS in a
markup dialect, which may hold styles. -/
def outputValues (dialect : String) (preferences profile : Table Json) (filters : List Filter) :
    List (String × Json) :=
  let sheet := if Dialect.isStylesheet dialect then dialect else "css"
  let preferred := preference? preferences
  let orElse := preferenceOr preferences
  let profiled := Table.find? profile
  [("output.formatSkip", orElse "format.noIndentTags" (Json.strings ["html"])),
   ("output.formatForce", orElse "format.forceIndentationForTags" (Json.strings ["body"])),
   ("output.inlineBreak", firstOf [preferred "output.inlineBreak", profiled "inlineBreak"]
     (.integer 3)),
   ("output.compactBoolean", firstOf
     [profiled "compactBooleanAttributes", preferred "profile.allowCompactBoolean"] (.bool false)),
   ("output.reverseAttributes", orElse "output.reverseAttributes" (.bool false)),
   ("output.selfClosingStyle", firstOf
     [profiled "selfClosingStyle", preferred "output.selfClosingStyle"]
     (.string (Dialect.closingStyle dialect))),
   ("output.tagCase", firstOf [profiled "tagCase"] (.string "")),
   ("output.attributeCase", firstOf [profiled "attributeCase"] (.string "")),
   ("output.attributeQuotes", firstOf [profiled "attributeQuotes"] (.string "double")),
   ("output.format", firstOf [profiled "format"] (.bool true)),
   ("comment.enabled", .bool (filters.contains .comment)),
   ("comment.trigger", orElse "filter.commentTrigger" (Json.strings ["id", "class"])),
   ("comment.before", orElse "filter.commentBefore" (.string "")),
   ("comment.after", orElse "filter.commentAfter" (.string "\n<!-- /[#ID][.CLASS] -->")),
   ("bem.enabled", .bool (filters.contains .bem)),
   ("bem.element", orElse "bem.elementSeparator" (.string "__")),
   ("bem.modifier", orElse "bem.modifierSeparator" (.string "_")),
   ("jsx.enabled", .bool (dialect == "jsx")),
   ("stylesheet.shortHex", orElse "css.color.short" (.bool true)),
   ("stylesheet.between", orElse (sheet ++ ".valueSeparator") (.string (defaultBetween sheet))),
   ("stylesheet.after", orElse (sheet ++ ".propertyEnd") (.string (defaultAfter sheet))),
   ("stylesheet.intUnit", orElse "css.intUnit" (.string "px")),
   ("stylesheet.floatUnit", orElse "css.floatUnit" (.string "em")),
   ("stylesheet.unitAliases", units (preferred "css.unitAliases")),
   ("stylesheet.fuzzySearchMinScore",
     .float (minimalScore (preferred "css.fuzzySearchMinScore"))),
   ("stylesheet.keywords", orElse "css.keywords"
     (Json.strings ["auto", "inherit", "unset", "none"])),
   ("stylesheet.unitless", orElse "css.unitless"
     (Json.strings ["z-index", "line-height", "opacity", "font-weight", "zoom", "order",
       "flex-grow", "flex-shrink"]))]

/-- The options for a dialect. The filters are a comma list of codes. -/
def resolve (dialect : String) (settings : Settings) (filters : Option String)
    (library : Library) : Traced Notice ExpansionOptions := do
  let profile ← Profile.resolve dialect settings.profiles library.profiles
  let typed := (filters.map Filter.ofCodes).getD []
  return {
    family := Dialect.family dialect
    dialect := dialect
    output :=
      { values := outputValues dialect settings.preferences profile
          (typed ++ profileFilters profile) }
    bindings := Table.overlay library.bindings settings.bindings
    snippets := library.snippetsFor? dialect
    repeatLimit := maxRepeat }

end ExpansionOptions

end Emmet
