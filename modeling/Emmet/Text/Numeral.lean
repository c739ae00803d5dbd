import Emmet.Text.Digit

/-!
# Written numbers

Whole numbers written with ASCII digits and an optional sign, within bounds.
-/

namespace Emmet.Text

/-- The value of a text of one or more digits. -/
def digitsValue? (cs : List Char) : Option Nat :=
  if cs = [] then none
  else (cs.mapM asciiValue?).map fun ds => ds.foldl (fun n d => 10 * n + d) 0

/-- A number from zero to a bound; a plus sign may stand before it. -/
def natural? (bound : Nat) (cs : List Char) : Option Nat :=
  let digits := match cs with
    | '+' :: cs => cs
    | cs => cs
  (digitsValue? digits).filter (· ≤ bound)

/-- A number of 64 bits with a sign. -/
def integer? (cs : List Char) : Option Int :=
  match cs with
  | '-' :: digits => ((digitsValue? digits).filter (· ≤ UInt64.size / 2)).map fun n => -(n : Int)
  | cs => (natural? (UInt64.size / 2 - 1) cs).map fun n => (n : Int)

end Emmet.Text
