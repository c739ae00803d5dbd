import Emmet.Table

/-!
# JSON values

A JSON value keeps whole numbers and fractional numbers apart, and an object keeps the order of its
entries.
-/

namespace Emmet

/-- A JSON value. -/
inductive Json where
  | null
  | bool (b : Bool)
  /-- A number written without fraction and exponent that fits into 64 bits. -/
  | integer (n : Int)
  /-- Any other number. -/
  | float (x : Float)
  | string (s : String)
  | array (items : List Json)
  | object (entries : List (String × Json))
  deriving Inhabited

namespace Json

/-- The text of a string. -/
def string? : Json → Option String
  | string s => some s
  | _ => none

/-- The truth value of a boolean. -/
def bool? : Json → Option Bool
  | bool b => some b
  | _ => none

/-- The entries of an object. -/
def object? : Json → Option (Table Json)
  | object entries => some entries
  | _ => none

/-- The items of an array. -/
def array? : Json → Option (List Json)
  | array items => some items
  | _ => none

/-- The value of a number, rounded to the nearest float. -/
def float? : Json → Option Float
  | integer n => some (if n < 0 then -(n.natAbs.toUInt64.toFloat) else n.natAbs.toUInt64.toFloat)
  | float x => some x
  | _ => none

/-- Whether the value is `null`. -/
def isNull : Json → Bool
  | null => true
  | _ => false

/-- The array of some strings. -/
def strings (items : List String) : Json := array (items.map string)

/-- A string, or `null` when there is none. -/
def ofString? : Option String → Json
  | some s => string s
  | none => null

end Json

end Emmet
