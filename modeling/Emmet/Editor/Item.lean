import Emmet.Completion.Candidate
import Emmet.Text.Measure

/-!
# Completion items of editors

Editors talk in the terms of their protocol: columns count characters or code units of UTF-16, and a
candidate is an item with a kind, a documentation and an edit. `Columns` says how columns are
counted; numbers in the protocol have 32 bits.
-/

namespace Emmet.Editor

/-- How an editor counts columns. -/
inductive Columns where
  /-- Columns count characters. -/
  | characters
  /-- Columns count code units of UTF-16. -/
  | units
  deriving DecidableEq, Repr

/-- The greatest number of the protocol. -/
def maxNumber : Nat := UInt32.size - 1

/-- A position as an editor counts it, on a line whose text is given. -/
def toEditor (columns : Columns) (line : List Char) (p : Position) : Position :=
  match columns with
  | .characters => p
  | .units => ⟨p.line, min (Text.offsetOf Text.utf16 line p.column) maxNumber⟩

/-- A position as an editor counts it in code units, counted in characters. A column inside a
character is the one behind it, and columns behind the end of the line go on one by one. -/
def fromUnits (line : List Char) (p : Position) : Position :=
  ⟨p.line, Text.columnAt Text.utf16 line p.column + (p.column - Text.size Text.utf16 line)⟩

/-- A range as an editor counts it. -/
def rangeToEditor (columns : Columns) (line : List Char) (r : Range) : Range :=
  ⟨toEditor columns line r.start, toEditor columns line r.stop⟩

/-- The number of a kind in the protocol: a property or a snippet. -/
def kindNumber : CandidateKind → Nat
  | .expansion => 10
  | .snippet => 15

/-- The number of the text format with tab stops in the protocol. -/
def snippetFormat : Nat := 2

/-- A candidate as an item. -/
def item (columns : Columns) (line : List Char) (c : Candidate) : Json :=
  .object ([
    ("label", .string c.label),
    ("kind", .integer (kindNumber c.kind)),
    ("detail", .string c.detail),
    ("documentation", .string c.preview)] ++
    (c.sortText.map fun s => ("sortText", Json.string s)).toList ++
    (c.filterText.map fun s => ("filterText", Json.string s)).toList ++ [
    ("insertTextFormat", .integer snippetFormat),
    ("textEdit", .object [
      ("range", (rangeToEditor columns line c.range).toJson),
      ("newText", .string c.template)])])

/-- A list of candidates as a list of items. -/
def itemList (columns : Columns) (line : List Char) (o : Offers) : Json :=
  .object [
    ("isIncomplete", .bool o.isIncomplete),
    ("items", .array (o.items.map (item columns line)))]

end Emmet.Editor
