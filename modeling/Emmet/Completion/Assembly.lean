import Emmet.Abbreviation.Extract
import Emmet.Abbreviation.Noise
import Emmet.Abbreviation.Validity
import Emmet.Completion.Suggestion
import Emmet.Names.Property
import Emmet.Vendor

/-!
# Putting the candidates together

For an abbreviation at the cursor there are up to three sources of candidates: the abbreviation
itself (`primary?`), tags that go on from the typed tag, and snippet keys that do. `markup` and
`stylesheet` put them together for the two families. What goes wrong with one candidate leaves the
others as they are.
-/

namespace Emmet

/-- The limits that decide what is offered. -/
structure Tuning where
  /-- Longer starts of property names are left to the plain completion of properties. -/
  propertyLength : Nat := 4
  /-- At most so many filters are taken off an abbreviation. -/
  maxFilters : Nat := Filter.defaultLimit

namespace Completion

/-- The detail of candidates for abbreviations. -/
def abbreviationDetail : String := "Emmet Abbreviation"

/-- The detail of candidates for snippets of the user. -/
def snippetDetail : String := "Emmet Custom Snippet"

/-- The characters of the abbreviation, in lower case, come up in the label in this order. -/
def matchesInOrder (label abbreviation : String) : Bool :=
  (Text.lowerEach abbreviation.toList).isSublist (Text.lowerEach label.toList)

/-- A character of a tag that keys go on from. -/
def isTagChar (c : Char) : Bool := Text.isWord c || c == ':' || c == '-'

/-- The tag that is typed last: what follows the last operator that starts an element, if that is a
tag, else the whole abbreviation. -/
def lastTag (cs : List Char) : List Char :=
  match cs.reverse.takeWhile isTagChar, cs.reverse.dropWhile isTagChar with
  | c :: run, operator :: _ =>
    if operator = '>' ∨ operator = '+' then (c :: run).reverse else cs
  | _, _ => cs

/-- What the assembly of the candidates knows. -/
structure Context where
  engine : Engine
  dialect : String
  extraction : Extraction
  options : ExpansionOptions
  settings : Settings
  library : Library
  tuning : Tuning

namespace Context

variable (x : Context)

/-- The typed abbreviation. -/
def abbreviation : String := x.extraction.abbreviation

/-- A query for keys. -/
def query (typed detail : String) (kind : CandidateKind) (skipFull : Bool) : Query :=
  ⟨typed, x.abbreviation, x.extraction.range, detail, kind, skipFull⟩

/-- Looks for keys. -/
def suggestions (keys : List String) (q : Query) : Asking (List Candidate) :=
  Completion.suggestions x.engine keys q x.options

/-- The start of `!important`, whatever an engine makes of it. -/
def isImportant (abbreviation : String) : Bool :=
  Dialect.isStylesheet x.dialect && abbreviation.toList.isPrefixOf "!important".toList

/-- The expansion to offer for an abbreviation, unless the typed one is not plausible, or the
expansion fails or is noise. -/
def primary? (abbreviation : String) (keys : List String) : Asking (Option String) := do
  if !Abbreviation.isValid x.dialect x.abbreviation then
    report (.skipped x.abbreviation .invalid)
    return none
  match ← ask x.engine abbreviation x.options with
  | .error e =>
    report (.expansionFailed abbreviation e)
    report (.skipped abbreviation .failed)
    return none
  | .ok expansion =>
    let expansion := if x.isImportant abbreviation then "!important" else expansion
    if expansion = "" ∨
        Noise.isNoise ⟨x.dialect, abbreviation, expansion, x.options.output, keys⟩ = true then
      report (.skipped abbreviation .noise)
      return none
    return some expansion

/-! ### Style sheets -/

/-- The candidate for the abbreviation itself, with the copies for vendors. -/
def stylesheetPrimary (lead expansion : String) : Candidate :=
  { Candidate.ofExpansion (Template.plainText expansion)
      (Vendor.apply expansion lead x.settings.preferences) abbreviationDetail x.extraction.range
      .expansion with
    filterText := some x.abbreviation }

/-- A candidate belongs to what is typed: its label has the typed characters in order, or there is a
number among them. So `width` does not come up as `widows`. -/
def isPlausible (label rest : String) : Bool :=
  x.abbreviation.toList.any Char.isDigit || matchesInOrder label rest

/-- The candidates of a style sheet; none if the typed text is left to the plain completion of
properties. -/
def stylesheet : Asking (Option (List Candidate)) := do
  let (lead, rest) := Vendor.split x.abbreviation.toList
  let lead := String.ofList lead
  let short := String.ofList rest
  let expansion ← x.primary? short []
  if x.tuning.propertyLength < rest.length && Property.isStart short then
    report (.leftToProperties short)
    return none
  let items ← x.suggestions (x.library.stylesheetKeys x.dialect)
    (x.query x.abbreviation snippetDetail .snippet false)
  match expansion with
  | none => return some items
  | some expansion =>
    let primary := x.stylesheetPrimary lead expansion
    let isNew := !items.any fun i => i.template == primary.template
    if isNew && x.isPlausible primary.label short then
      return some (items ++ [primary])
    else return some items

/-! ### Markup -/

/-- The snippet keys that are known: those of the engine, then those of the library, each once. -/
def knownKeys : List String :=
  (x.engine.snippetKeys x.dialect ++ x.library.snippetKeys x.dialect).eraseDups

/-- The label of an abbreviation with its filters. -/
def labelWithFilters : String :=
  x.abbreviation ++ String.ofList (Filter.suffixes x.extraction.filters)

/-- The template of an expansion that only repeats the abbreviation. -/
def echoTemplate : String :=
  "<" ++ x.abbreviation ++ ">$\x7b0\x7d</" ++ x.abbreviation ++ ">"

/-- Drops what is labelled like an abbreviation with a colon that is only repeated: it is of no use
beside the snippets that go on from it. -/
def withoutEcho (primary : Option Candidate) (items : List Candidate) : List Candidate :=
  match primary with
  | some p =>
    if x.dialect = "html" ∧ 2 ≤ items.length ∧ ':' ∈ x.abbreviation.toList ∧
        p.template = x.echoTemplate then
      items.filter fun i => i.label != p.label
    else items
  | none => items

/-- The candidates of markup. If only the last tag of an abbreviation goes on, its candidates stay
behind the abbreviation itself. -/
def markup : Asking (List Candidate) := do
  let keys := x.knownKeys
  let expansion ← x.primary? x.abbreviation keys
  let primary := expansion.map fun expansion =>
    Candidate.ofExpansion x.labelWithFilters expansion abbreviationDetail x.extraction.range
      .expansion
  let tag := String.ofList (lastTag x.abbreviation.toList)
  let tags ← if x.dialect = "xml" then pure []
    else x.suggestions Tag.common (x.query tag abbreviationDetail .expansion true)
  let snippets ← if x.settings.suggestions then
      x.suggestions (keys.filter fun k => !Tag.isCommon k)
        (x.query tag abbreviationDetail .snippet true)
    else pure []
  let behind := primary.isSome && !snippets.isEmpty && tag != x.abbreviation
  let primary := if behind then
      primary.map fun p => { p with sortText := some ("0" ++ p.label) }
    else primary
  let snippets := if behind then
      snippets.map fun i =>
        { i with filterText := some x.abbreviation, sortText := some ("9" ++ x.abbreviation) }
    else snippets
  return x.withoutEcho primary (primary.toList ++ tags ++ snippets)

end Context

end Completion

end Emmet
