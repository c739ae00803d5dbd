import Emmet.Text.Split

/-!
# Positions in a document

A document is a text or a list of lines. A position is a line and a column, both counted from zero;
columns count characters.
-/

namespace Emmet

/-- A place between two characters of a line. -/
structure Position where
  line : Nat
  column : Nat
  deriving DecidableEq, Repr, Inhabited

/-- The text between two positions. -/
structure Range where
  start : Position
  stop : Position
  deriving DecidableEq, Repr, Inhabited

/-- The range between two columns of a line. -/
def Range.onLine (line start stop : Nat) : Range := ⟨⟨line, start⟩, ⟨line, stop⟩⟩

/-- A document that is asked for its lines. -/
inductive Document where
  | text (content : String)
  | lines (content : List String)
  deriving Inhabited

/-- A line of the document. -/
def Document.line? : Document → Nat → Option String
  | text content, n => ((Text.lines content.toList)[n]?).map String.ofList
  | lines content, n => content[n]?

end Emmet
