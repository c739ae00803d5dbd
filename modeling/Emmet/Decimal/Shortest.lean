/-!
# Shortest decimals

`Decimal.shortest` gives the fewest decimal digits that read back as a given float; of two such
decimals of one length it takes the nearer. `Decimal.render` writes them: positional up to sixteen
digits before the point and four zeros after it, with a signed exponent otherwise, and with a
fraction of at least one digit in the positional form.
-/

namespace Emmet

/-- The number `digits · 10 ^ exponent`. -/
structure Decimal where
  digits : Nat
  exponent : Int
  deriving DecidableEq, Repr

namespace Decimal

/-- The real numbers that round to a float, and the float itself, as multiples of `2 ^ exponent`. -/
structure Interval where
  low : Nat
  value : Nat
  high : Nat
  exponent : Int
  /-- The ends of the interval round to the float, too. -/
  closed : Bool

/-- The interval of a positive finite float given by its 63 lower bits. -/
def Interval.ofBits (bits : Nat) : Interval :=
  let field : Nat := bits / Nat.pow 2 52
  let fraction : Nat := bits % Nat.pow 2 52
  let m : Nat := if field = 0 then fraction else Nat.pow 2 52 + fraction
  let e : Int := if field = 0 then -1074 else (field : Int) - 1075
  let low := if fraction = 0 ∧ 1 < field then 4 * m - 1 else 4 * m - 2
  ⟨low, 4 * m, 4 * m + 2, e - 2, m % 2 = 0⟩

/-- A multiple of `2 ^ p` as a fraction of a multiple of `10 ^ g`: numerator and denominator. -/
def onGrid (n : Nat) (p g : Int) : Nat × Nat :=
  (n * Nat.pow 2 p.toNat * Nat.pow 10 (-g).toNat, Nat.pow 2 (-p).toNat * Nat.pow 10 g.toNat)

/-- The multiple `d · 10 ^ g` lies in the interval. -/
def Interval.contains (i : Interval) (d : Nat) (g : Int) : Bool :=
  let (low, den) := onGrid i.low i.exponent g
  let (high, _) := onGrid i.high i.exponent g
  if i.closed then low ≤ d * den && d * den ≤ high else low < d * den && d * den < high

/-- The multiple of `10 ^ g` in the interval that is nearest to its value, of two as near the even
one. -/
def Interval.nearest? (i : Interval) (g : Int) : Option Nat :=
  let (num, den) := onGrid i.value i.exponent g
  let d := num / den
  match i.contains d g, i.contains (d + 1) g with
  | true, true =>
    let below := num - d * den
    let above := (d + 1) * den - num
    some (if below < above || (below == above && d % 2 == 0) then d else d + 1)
  | true, false => some d
  | false, true => some (d + 1)
  | false, false => none

/-- The first grid, from `10 ^ g` downward, that meets the interval. -/
def Interval.search (i : Interval) : Nat → Int → Decimal
  | 0, g => ⟨(onGrid i.value i.exponent g).1 / (onGrid i.value i.exponent g).2, g⟩
  | fuel + 1, g =>
    match i.nearest? g with
    | some d => ⟨d, g⟩
    | none => search i fuel (g - 1)

/-- The decimal without zeros at its end. -/
def strip : Nat → Decimal → Decimal
  | 0, d => d
  | fuel + 1, d =>
    if d.digits % 10 = 0 ∧ d.digits ≠ 0 then strip fuel ⟨d.digits / 10, d.exponent + 1⟩ else d

/-- The shortest decimal of a positive finite float given by its 63 lower bits. The search starts
at a power of ten above the float; the coarsest grid that meets the interval is at most eighteen
grids below it. -/
def shortest (bits : Nat) : Decimal :=
  let i := Interval.ofBits bits
  let top := (i.exponent + (Nat.log2 i.value + 1)) * 30103 / 100000 + 1
  strip 20 (i.search 20 top)

/-- The written form of an exponent, with a sign in either direction. -/
def renderExponent (e : Int) : String := (if e < 0 then "e-" else "e+") ++ toString e.natAbs

/-- The written form of a decimal. -/
def render (d : Decimal) : String :=
  let ds := Nat.toDigits 10 d.digits
  let point := d.exponent + ds.length
  if 0 < point ∧ point ≤ 16 then
    if ds.length ≤ point.toNat then
      String.ofList (ds ++ List.replicate (point.toNat - ds.length) '0') ++ ".0"
    else
      String.ofList (ds.take point.toNat) ++ "." ++ String.ofList (ds.drop point.toNat)
  else if -5 < point ∧ point ≤ 0 then
    "0." ++ String.ofList (List.replicate (-point).toNat '0' ++ ds)
  else
    let fraction := match ds.drop 1 with
      | [] => ""
      | rest => "." ++ String.ofList rest
    String.ofList (ds.take 1) ++ fraction ++ renderExponent (point - 1)

end Decimal

/-- The written form of a float; one that is not finite has none. -/
def renderFloat? (x : Float) : Option String :=
  let bits := x.toBits.toNat
  let sign := if UInt64.size / 2 ≤ bits then "-" else ""
  let rest := bits % (UInt64.size / 2)
  if 0x7ff * Nat.pow 2 52 ≤ rest then none
  else if rest = 0 then some (sign ++ "0.0")
  else some (sign ++ (Decimal.shortest rest).render)

end Emmet
