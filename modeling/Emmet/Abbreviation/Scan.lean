import Emmet.Abbreviation.TagEnd
import Emmet.Dialect
import Emmet.Text.Measure

/-!
# Finding the abbreviation left of the cursor

`scan` walks to the left from an offset while the characters can belong to an abbreviation, matching
brackets on the way: groups `(…)`, and in markup attribute sets `[…]` and text nodes. It stops at
the end of a tag, so that in `<div>ul>li` the abbreviation is `ul>li`.

* `Step` and `step` decide about one character, `walk` repeats the decision;
* `scan` gives the abbreviation and the byte at which it starts.
-/

namespace Emmet

/-- How an abbreviation is looked for. -/
structure ScanOptions where
  family : Family
  /-- Closing brackets right of the cursor count as typed. -/
  lookAhead : Bool
  deriving DecidableEq, Repr

/-- Markup editors close brackets on their own, so there the look-ahead is on. -/
def ScanOptions.forFamily (family : Family) : ScanOptions := ⟨family, family == .markup⟩

/-- An abbreviation and the byte of the line at which it starts. -/
structure Found where
  abbreviation : String
  start : Nat
  deriving DecidableEq, Repr

namespace Abbreviation

/-- The characters besides letters and digits that an abbreviation is made of. -/
def operators : List Char :=
  ['#', '.', '*', ':', '$', '-', '_', '!', '@', '%', '^', '+', '>', '/']

/-- A character of an abbreviation outside of brackets. -/
def isAbbreviationChar (c : Char) : Bool := c.isAlphanum || operators.contains c

/-- An operator that no abbreviation starts with. -/
def isJoining (c : Char) : Bool := c == '*' || c == '+' || c == '>' || c == '^'

/-- An opening bracket of a family. -/
def opensGroup (f : Family) (c : Char) : Bool :=
  c == '(' || (f == .markup && (c == '[' || c == '\x7b'))

/-- A closing bracket of a family. -/
def closesGroup (f : Family) (c : Char) : Bool :=
  c == ')' || (f == .markup && (c == ']' || c == '\x7d'))

/-- The decision about one character, with the closing brackets that are still unmatched, innermost
first. -/
inductive Step where
  /-- The character belongs to the abbreviation. -/
  | take (pending : List Char)
  /-- The character does not belong to it. -/
  | stop (pending : List Char)
  deriving DecidableEq, Repr

/-- An opening bracket closes the innermost unmatched bracket or ends the walk. -/
def stepOpening (c : Char) : List Char → Step
  | top :: pending => if opener? top = some c then .take pending else .stop pending
  | [] => .stop []

/-- Decides about the character `c` with what is left of it. Inside of a text node only braces
count, inside of an attribute set only brackets. -/
def step (f : Family) (pending : List Char) (c : Char) (left : List Char) : Step :=
  if '\x7d' ∈ pending ∧ c ≠ '\x7b' then .take (if c = '\x7d' then c :: pending else pending)
  else if closesGroup f c then .take (c :: pending)
  else if opensGroup f c then stepOpening c pending
  else if ']' ∈ pending ∨ '\x7d' ∈ pending then .take pending
  else if endsTag (c :: left) || !isAbbreviationChar c then .stop pending
  else .take pending

/-- What a walk to the left took, nearest character first, and the closing brackets that it left
unmatched. -/
structure Walk where
  taken : List Char
  pending : List Char
  deriving DecidableEq, Repr

/-- Takes characters to the left until one does not belong to the abbreviation. -/
def walk (f : Family) : (pending left : List Char) → Walk
  | pending, [] => ⟨[], pending⟩
  | pending, c :: left =>
    match step f pending c left with
    | .take pending =>
      let rest := walk f pending left
      ⟨c :: rest.taken, rest.pending⟩
    | .stop pending => ⟨[], pending⟩

/-- The characters right of the cursor that count as typed: one quotation mark and the closing
brackets after it. -/
def closersAhead (f : Family) (right : List Char) : List Char :=
  match right with
  | c :: rest => if isQuote c then c :: rest.takeWhile (closesGroup f)
    else right.takeWhile (closesGroup f)
  | [] => []

/-- The part of the line that the walk goes through, in text order. -/
def reach (line : List Char) (offset : Nat) (o : ScanOptions) : List Char :=
  let (left, right) := Text.cut Text.utf8 line offset
  if o.lookAhead then left ++ closersAhead o.family right else left

/-- The abbreviation that ends at an offset of a line, and the byte at which it starts. There is
none if brackets stay unmatched or no character belongs to one. -/
def scan (line : List Char) (offset : Nat) (o : ScanOptions) : Option (List Char × Nat) :=
  let before := reach line offset o
  let found := walk o.family [] before.reverse
  if found.pending ≠ [] ∨ found.taken = [] then none
  else
    let abbreviation := found.taken.reverse.dropWhile isJoining
    some (abbreviation, Text.bytes before - Text.bytes abbreviation)

/-- The scan of a line of text. -/
def find? (line : String) (offset : Nat) (o : ScanOptions) : Option Found :=
  (scan line.toList offset o).map fun p => ⟨String.ofList p.1, p.2⟩

theorem taken_prefix (f : Family) (pending left : List Char) :
    (walk f pending left).taken <+: left := by
  induction left generalizing pending with
  | nil => simp [walk]
  | cons c left ih =>
    rw [walk]
    split
    · exact List.cons_prefix_cons.2 ⟨rfl, ih _⟩
    · exact List.nil_prefix

end Abbreviation

end Emmet
