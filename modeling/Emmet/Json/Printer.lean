import Emmet.Json.Basic
import Emmet.Decimal.Shortest

/-!
# Writing JSON texts

`Json.compact` writes a value without blanks, `Json.pretty` one entry a line with an indentation of
two spaces a level. In a string only quotes, backslashes and control characters are escaped.
-/

namespace Emmet.Json

/-- A hexadecimal digit in lower case. -/
def hexDigit (n : Nat) : Char :=
  if n < 10 then Char.ofNat ('0'.toNat + n) else Char.ofNat ('a'.toNat + (n - 10))

/-- The written form of one character of a string. -/
def escapeChar (c : Char) : List Char :=
  if c = '"' then ['\\', '"']
  else if c = '\\' then ['\\', '\\']
  else if c = '\n' then ['\\', 'n']
  else if c = '\r' then ['\\', 'r']
  else if c = '\t' then ['\\', 't']
  else if c = '\x08' then ['\\', 'b']
  else if c = '\x0c' then ['\\', 'f']
  else if c.toNat < 0x20 then
    ['\\', 'u', '0', '0', hexDigit (c.toNat / 16), hexDigit (c.toNat % 16)]
  else [c]

/-- A string in quotes. -/
def quote (s : String) : String :=
  "\"" ++ String.ofList (s.toList.flatMap escapeChar) ++ "\""

/-- The written form of a float; one that is not finite is written as `null`. -/
def writtenFloat (x : Float) : String := (renderFloat? x).getD "null"

mutual

/-- The written form without blanks. -/
def compact : Json → String
  | .null => "null"
  | .bool true => "true"
  | .bool false => "false"
  | .integer n => toString n
  | .float x => writtenFloat x
  | .string s => quote s
  | .array items => "[" ++ ",".intercalate (compactItems items) ++ "]"
  | .object entries => "\x7b" ++ ",".intercalate (compactMembers entries) ++ "\x7d"

/-- The written forms of some items. -/
def compactItems : List Json → List String
  | [] => []
  | x :: xs => compact x :: compactItems xs

/-- The written forms of some members. -/
def compactMembers : List (String × Json) → List String
  | [] => []
  | (k, v) :: es => (quote k ++ ":" ++ compact v) :: compactMembers es

end

/-- A line break and the indentation of a level. -/
def newLine (level : Nat) : String := "\n" ++ String.ofList (List.replicate (2 * level) ' ')

mutual

/-- The written form with one entry a line, at an indentation level. -/
def prettyAt (level : Nat) : Json → String
  | .array [] => "[]"
  | .array (x :: xs) =>
    "[" ++ newLine (level + 1) ++
      ("," ++ newLine (level + 1)).intercalate (prettyItems (level + 1) (x :: xs)) ++
      newLine level ++ "]"
  | .object [] => "\x7b\x7d"
  | .object (e :: es) =>
    "\x7b" ++ newLine (level + 1) ++
      ("," ++ newLine (level + 1)).intercalate (prettyMembers (level + 1) (e :: es)) ++
      newLine level ++ "\x7d"
  | v => compact v

/-- The written forms of some items at a level. -/
def prettyItems (level : Nat) : List Json → List String
  | [] => []
  | x :: xs => prettyAt level x :: prettyItems level xs

/-- The written forms of some members at a level. -/
def prettyMembers (level : Nat) : List (String × Json) → List String
  | [] => []
  | (k, v) :: es => (quote k ++ ": " ++ prettyAt level v) :: prettyMembers level es

end

/-- The written form with one entry a line. -/
def pretty (v : Json) : String := prettyAt 0 v

end Emmet.Json
