import Emmet.Text.Split
import Emmet.Text.Measure

/-!
# Filters behind an abbreviation

A filter is chosen by writing `|` and its code behind an abbreviation, as in `ul>li|bem|c`. `peel`
takes known filters off the end of a text, up to a limit, and keeps them in the order in which they
were written; `suffix` writes them.
-/

namespace Emmet

/-- A filter of the expansion. -/
inductive Filter where
  /-- Class names in blocks, elements and modifiers. -/
  | bem
  /-- Comments behind closing tags. -/
  | comment
  /-- Trimming of list marks. -/
  | trim
  deriving DecidableEq, Repr

namespace Filter

/-- The written code of a filter. -/
def code : Filter → String
  | bem => "bem"
  | comment => "c"
  | trim => "t"

/-- All filters, in the order in which a suffix is tried. -/
def all : List Filter := [bem, comment, trim]

/-- The filter of a code, blanks around it not counted. -/
def ofCode? (code : List Char) : Option Filter :=
  all.find? fun f => f.code.toList == Text.trim code

/-- The filters in a comma list of codes; unknown codes are passed over. -/
def ofCodes (codes : String) : List Filter := (Text.commaFields codes.toList).filterMap ofCode?

/-- A filter as it is written behind an abbreviation. -/
def suffix (f : Filter) : List Char := '|' :: f.code.toList

/-- The number of filters peeled off an abbreviation unless another limit is set. -/
def defaultLimit : Nat := 3

/-- The filter at the end of a text, and the text before it. -/
def last? (text : List Char) : Option (Filter × List Char) :=
  all.findSome? fun f => (f.suffix.isSuffixOf? text).map fun body => (f, body)

/-- Takes at most `limit` filters off the end of a text. -/
def peel : (limit : Nat) → List Char → List Char × List Filter
  | 0, text => (text, [])
  | limit + 1, text =>
    match last? text with
    | some (f, body) => ((peel limit body).1, (peel limit body).2 ++ [f])
    | none => (text, [])

/-- Filters as they are written behind an abbreviation. -/
def suffixes (fs : List Filter) : List Char := fs.flatMap suffix

/-- The codes of some filters as a comma list; none without filters. -/
def joined? (fs : List Filter) : Option String :=
  if fs.isEmpty then none else some (",".intercalate (fs.map code))

/-- Peels filters off the part of a text before a byte. Cutting inside a character is refused, but
only if there is something to peel. -/
def peelAt? (text : List Char) (stop limit : Nat) : Option (Nat × List Filter) :=
  let stop := min stop (Text.bytes text)
  let front := (Text.cut Text.utf8 text stop).1
  if limit = 0 then some (stop, [])
  else if Text.bytes front = stop then
    let (body, filters) := peel limit front
    some (Text.bytes body, filters)
  else none

end Filter

end Emmet
