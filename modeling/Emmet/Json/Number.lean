import Emmet.Json.Basic
import Emmet.Text.Digit

/-!
# Numbers in JSON texts

`Number.lex` reads the longest number at the front of a text: first its parts, then the value that
they name. A number without fraction and exponent is whole when it fits into 64 bits. Any other is a
float, computed from the leading digits that fit into 64 bits by one multiplication or division by a
power of ten.
-/

namespace Emmet.Json

/-- Why a text is not the document that was asked for. -/
inductive Fault where
  /-- The text ends too early. -/
  | unfinished
  /-- The text is not JSON. -/
  | malformed
  /-- The text is JSON of another shape. -/
  | mismatch
  deriving DecidableEq, Repr

namespace Number

/-- The parts of a written number: its sign, and the digits of its parts. -/
structure Parts where
  negative : Bool
  whole : List Nat
  fraction : Option (List Nat)
  /-- The sign and the digits of the exponent. -/
  exponent : Option (Bool × List Nat)

/-- The digits at the front of a text and what follows them. -/
def digits : List Char → List Nat × List Char
  | [] => ([], [])
  | c :: cs =>
    match Text.asciiValue? c with
    | some d => ((d :: (digits cs).1), (digits cs).2)
    | none => ([], c :: cs)

/-- At least one digit. -/
def someDigits (cs : List Char) : Except Fault (List Nat × List Char) :=
  match digits cs, cs with
  | ([], _), [] => .error .unfinished
  | ([], _), _ :: _ => .error .malformed
  | found, _ => .ok found

/-- The part before the point; it is `0` or starts with another digit. -/
def wholePart (cs : List Char) : Except Fault (List Nat × List Char) :=
  match someDigits cs with
  | .ok (0 :: _ :: _, _) => .error .malformed
  | other => other

/-- The part after the point, if there is a point. -/
def fractionPart : List Char → Except Fault (Option (List Nat) × List Char)
  | '.' :: cs => (someDigits cs).map fun p => (some p.1, p.2)
  | cs => .ok (none, cs)

/-- The exponent, if there is one. -/
def exponentPart : List Char → Except Fault (Option (Bool × List Nat) × List Char)
  | [] => .ok (none, [])
  | c :: cs =>
    if c = 'e' ∨ c = 'E' then
      match cs with
      | '-' :: cs => (someDigits cs).map fun p => (some (true, p.1), p.2)
      | '+' :: cs => (someDigits cs).map fun p => (some (false, p.1), p.2)
      | cs => (someDigits cs).map fun p => (some (false, p.1), p.2)
    else .ok (none, c :: cs)

/-- The parts of the number at the front of a text. -/
def parts (cs : List Char) : Except Fault (Parts × List Char) := do
  let (negative, cs) := match cs with
    | '-' :: cs => (true, cs)
    | cs => (false, cs)
  let (whole, cs) ← wholePart cs
  let (fraction, cs) ← fractionPart cs
  let (exponent, cs) ← exponentPart cs
  return (⟨negative, whole, fraction, exponent⟩, cs)

/-- The greatest number of 64 bits. -/
def maxWord : Nat := UInt64.size - 1

/-- Appends digits to a number as long as it fits into 64 bits; the digits left over. -/
def accumulate (n : Nat) : List Nat → Nat × List Nat
  | [] => (n, [])
  | d :: ds => if 10 * n + d ≤ maxWord then accumulate (10 * n + d) ds else (n, d :: ds)

/-- The power of ten, up to the greatest one that a float holds. -/
def tenTo (n : Nat) : Float := Float.ofScientific 1 false n

/-- `x · 10 ^ e`, and nothing when it is too large. Below the range of powers the factor is applied
in pieces until nothing is left. -/
def scale (x : Float) (e : Int) : Nat → Option Float
  | 0 => some x
  | fuel + 1 =>
    if e.natAbs ≤ 308 then
      if 0 ≤ e then
        let y := x * tenTo e.natAbs
        if y.isInf then none else some y
      else some (x / tenTo e.natAbs)
    else if x == 0.0 then some x
    else if 0 ≤ e then none
    else scale (x / tenTo 308) (e + 308) fuel

/-- The digits of an exponent as a number. -/
def exponentValue : Option (Bool × List Nat) → Int
  | none => 0
  | some (negative, ds) =>
    let n : Nat := ds.foldl (fun n d => 10 * n + d) 0
    if negative then -(n : Int) else n

/-- The value of a written number, unless it is out of range. -/
def value? (p : Parts) : Option Json :=
  let (n, left) := accumulate 0 p.whole
  if left.isEmpty && p.fraction.isNone && p.exponent.isNone then
    if !p.negative then some (.integer n)
    else if n = 0 ∨ UInt64.size / 2 < n then some (.float (-(n.toUInt64.toFloat)))
    else some (.integer (-(n : Int)))
  else
    let fraction := p.fraction.getD []
    let (n, rest) := accumulate n fraction
    let e : Int := left.length - (fraction.length - rest.length : Nat) + exponentValue p.exponent
    (scale n.toUInt64.toFloat e 8).map fun x => .float (if p.negative then -x else x)

end Number

end Emmet.Json
