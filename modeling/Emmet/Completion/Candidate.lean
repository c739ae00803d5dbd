import Emmet.Document
import Emmet.Json.Reader
import Emmet.Template

/-!
# Candidates

A candidate is one thing that is offered at the cursor. `Candidate.ofExpansion` makes one of an
expansion: what is inserted is the finished template, and what is shown is its preview. Candidates
and lists of them can be written as JSON and read back.
-/

namespace Emmet

/-- What a candidate is called. -/
inductive CandidateKind where
  | expansion
  | snippet
  deriving DecidableEq, Repr

/-- The written name of a kind. -/
def CandidateKind.name : CandidateKind → String
  | expansion => "expansion"
  | snippet => "snippet"

/-- One thing that is offered. -/
structure Candidate where
  label : String
  /-- What is inserted, with its tab stops. -/
  template : String
  /-- The template as it is shown. -/
  preview : String
  detail : String
  /-- What is replaced. -/
  range : Range
  sortText : Option String := none
  filterText : Option String := none
  kind : CandidateKind
  deriving DecidableEq, Repr

/-- What is offered at a cursor. -/
structure Offers where
  items : List Candidate
  /-- The editor asks again with the next key typed. -/
  isIncomplete : Bool
  deriving DecidableEq, Repr

/-- The candidate that inserts an expansion. -/
def Candidate.ofExpansion (label expansion detail : String) (range : Range)
    (kind : CandidateKind) : Candidate where
  label := label
  template := Template.finish expansion
  preview := Template.preview expansion
  detail := detail
  range := range
  kind := kind

/-! ### Writing -/

/-- A position as JSON. -/
def Position.toJson (p : Position) : Json :=
  .object [("line", .integer p.line), ("character", .integer p.column)]

/-- A range as JSON. -/
def Range.toJson (r : Range) : Json :=
  .object [("start", r.start.toJson), ("end", r.stop.toJson)]

/-- A candidate as JSON. -/
def Candidate.toJson (c : Candidate) : Json := .object [
  ("label", .string c.label),
  ("insertTemplate", .string c.template),
  ("preview", .string c.preview),
  ("detail", .string c.detail),
  ("range", c.range.toJson),
  ("sortText", Json.ofString? c.sortText),
  ("filterText", Json.ofString? c.filterText),
  ("kind", .string c.kind.name)]

/-- A list of candidates as JSON. -/
def Offers.toJson (o : Offers) : Json :=
  .object [("items", .array (o.items.map Candidate.toJson)), ("isIncomplete", .bool o.isIncomplete)]

/-! ### Reading

A structure is read from an object with its fields in any order and others between them, or from an
array with exactly its fields in order. -/

/-- The values of the fields of a structure; a field that is missing in an object is `none`. -/
def fieldValues? (names : List String) : Json → Option (List (Option Json))
  | .object entries => some (names.map fun name => Table.find? entries name)
  | .array items => if items.length = names.length then some (items.map some) else none
  | _ => none

/-- A number of 32 bits. -/
def wordOfJson? : Option Json → Option Nat
  | some (.integer n) => if 0 ≤ n ∧ n < UInt32.size then some n.toNat else none
  | _ => none

/-- A text. -/
def textOfJson? (value : Option Json) : Option String := value.bind Json.string?

/-- A text that may be missing or `null`. -/
def maybeTextOfJson? : Option Json → Option (Option String)
  | none => some none
  | some .null => some none
  | some (.string s) => some (some s)
  | _ => none

/-- The position that a value holds. -/
def Position.ofJson? (value : Option Json) : Option Position := do
  match ← fieldValues? ["line", "character"] (← value) with
  | [line, column] => return ⟨← wordOfJson? line, ← wordOfJson? column⟩
  | _ => none

/-- The range that a value holds. -/
def Range.ofJson? (value : Option Json) : Option Range := do
  match ← fieldValues? ["start", "end"] (← value) with
  | [start, stop] => return ⟨← Position.ofJson? start, ← Position.ofJson? stop⟩
  | _ => none

/-- The kind that a value holds: its name, or an object that has the name with `null`. -/
def CandidateKind.ofJson? (value : Option Json) : Option CandidateKind :=
  let ofName? := fun name => [CandidateKind.expansion, .snippet].find? fun k => k.name == name
  match value with
  | some (.string name) => ofName? name
  | some (.object [(name, .null)]) => ofName? name
  | _ => none

/-- The candidate that a value holds. -/
def Candidate.ofJson? (value : Json) : Option Candidate := do
  let names := ["label", "insertTemplate", "preview", "detail", "range", "sortText", "filterText",
    "kind"]
  match ← fieldValues? names value with
  | [label, template, preview, detail, range, sortText, filterText, kind] =>
    return {
      label := ← textOfJson? label
      template := ← textOfJson? template
      preview := ← textOfJson? preview
      detail := ← textOfJson? detail
      range := ← Range.ofJson? range
      sortText := ← maybeTextOfJson? sortText
      filterText := ← maybeTextOfJson? filterText
      kind := ← CandidateKind.ofJson? kind }
  | _ => none

/-- The list of candidates that a value holds. -/
def Offers.ofJson? (value : Json) : Option Offers := do
  match ← fieldValues? ["items", "isIncomplete"] value with
  | [items, isIncomplete] =>
    return {
      items := ← (← (← items).array?).mapM Candidate.ofJson?
      isIncomplete := ← (← isIncomplete).bool? }
  | _ => none

end Emmet
