import Emmet.Abbreviation.Filter
import Emmet.Abbreviation.Scan
import Emmet.Document
import Emmet.Notice

/-!
# The abbreviation at the cursor

Left of the cursor stand the abbreviation and the filters behind it. `Extraction.ofLine` peels the
filters off, lets an engine find the abbreviation before them, and gives the range of both, so that
inserting a completion replaces the filters, too.
-/

namespace Emmet

/-- An abbreviation in a line, with its filters. -/
structure Extraction where
  abbreviation : String
  /-- The abbreviation and the filters behind it. -/
  range : Range
  filters : List Filter
  deriving DecidableEq, Repr

namespace Extraction

/-- The abbreviation left of a column, found by a given search. Filters without an abbreviation
before them have an empty one. -/
def ofChars (find : Nat → Option Found) (line : List Char) (position : Position)
    (maxFilters : Nat) : Option Extraction :=
  let left := line.take position.column
  let body := (Filter.peel maxFilters left).1
  let filters := (Filter.peel maxFilters left).2
  let stop := Text.bytes body
  let found := match find stop with
    | some found => some found
    | none => if filters.isEmpty then none else some ⟨"", stop⟩
  found.map fun found =>
    let start := Text.columnAt Text.utf8 line found.start
    { abbreviation := found.abbreviation
      range := Range.onLine position.line start
        (start + found.abbreviation.toList.length + (Text.bytes left - stop))
      filters := filters }

/-- The abbreviation left of a position in a line. If there is none, that is reported. -/
def ofLine (find : String → Nat → ScanOptions → Option Found) (line : String)
    (position : Position) (o : ScanOptions) (maxFilters : Nat) :
    Traced Notice (Option Extraction) :=
  match ofChars (fun stop => find line stop o) line.toList position maxFilters with
  | some e => pure (some e)
  | none => do
    Traced.emit (.noAbbreviation position.line position.column)
    return none

/-- The abbreviation left of a position in a document. -/
def ofDocument (find : String → Nat → ScanOptions → Option Found) (document : Document)
    (position : Position) (o : ScanOptions) (maxFilters : Nat) :
    Traced Notice (Option Extraction) :=
  match document.line? position.line with
  | some line => ofLine find line position o maxFilters
  | none => pure none

end Extraction

end Emmet
