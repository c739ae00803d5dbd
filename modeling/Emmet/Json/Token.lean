import Emmet.Json.Number
import Emmet.Text.Measure

/-!
# Tokens of JSON texts

`Token.scan` breaks a text into tokens up to its end or up to the first lexeme that is cut short or
wrong. A string or a number may be read *strictly*, as a value, or *loosely*, when only its end
matters: a lone surrogate and a number out of range are wrong only when read strictly, and a number
that is cut short is unfinished when read strictly and malformed when read loosely. So the two
readings of a document find the same tokens and may stop at different places.
-/

namespace Emmet.Json

/-- A token of a JSON text. -/
inductive Token where
  /-- One of the marks of arrays and objects. -/
  | mark (c : Char)
  /-- A word or a number; `none` is a number out of range. -/
  | plain (value : Option Json)
  /-- A string; `none` if it holds a lone surrogate. -/
  | text (value : Option String)
  /-- A lexeme that goes wrong, with the faults that the strict and the loose reading find. -/
  | broken (quoted : Bool) (strict loose : Fault)
  /-- A character that starts no lexeme. -/
  | stray

namespace Token

/-- The blank characters between tokens. -/
def isSpace (c : Char) : Bool := c == ' ' || c == '\n' || c == '\t' || c == '\r'

/-- The value of a hexadecimal digit. -/
def hexValue? (c : Char) : Option Nat :=
  if c.isDigit then some (c.toNat - '0'.toNat)
  else if 'a' ≤ c ∧ c ≤ 'f' then some (c.toNat - 'a'.toNat + 10)
  else if 'A' ≤ c ∧ c ≤ 'F' then some (c.toNat - 'A'.toNat + 10)
  else none

/-- The number of four hexadecimal digits, and the rest. -/
def hexCode (cs : List Char) : Except Fault (Nat × List Char) :=
  if Text.bytes (cs.take 4) < 4 then .error .unfinished
  else match cs with
    | a :: b :: c :: d :: rest =>
      match hexValue? a, hexValue? b, hexValue? c, hexValue? d with
      | some a, some b, some c, some d => .ok (4096 * a + 256 * b + 16 * c + d, rest)
      | _, _, _, _ => .error .malformed
    | _ => .error .malformed

/-- A step of a strict reading that has to see the character `c`. -/
def expect (c : Char) : List Char → Except Fault (List Char)
  | [] => .error .unfinished
  | d :: cs => if c = d then .ok cs else .error .malformed

/-- The character after `\u`: one code, or the codes of two surrogates. -/
def unicodeEscape (cs : List Char) : Except Fault (Char × List Char) := do
  let (n, cs) ← hexCode cs
  if 0xDC00 ≤ n ∧ n ≤ 0xDFFF then throw .malformed
  else if n < 0xD800 ∨ 0xDBFF < n then return (Char.ofNat n, cs)
  else
    let cs ← expect '\\' cs
    let cs ← expect 'u' cs
    let (m, cs) ← hexCode cs
    if m < 0xDC00 ∨ 0xDFFF < m then throw .malformed
    else return (Char.ofNat ((n - 0xD800) * 1024 + (m - 0xDC00) + 0x10000), cs)

/-- The character that a letter after a backslash stands for. -/
def shortEscape? : Char → Option Char
  | '"' => some '"'
  | '\\' => some '\\'
  | '/' => some '/'
  | 'b' => some '\x08'
  | 'f' => some '\x0c'
  | 'n' => some '\n'
  | 'r' => some '\r'
  | 't' => some '\t'
  | _ => none

/-- The character that an escape stands for, after its backslash. -/
def escape : List Char → Except Fault (Char × List Char)
  | [] => .error .unfinished
  | 'u' :: cs => unicodeEscape cs
  | c :: cs =>
    match shortEscape? c with
    | some d => .ok (d, cs)
    | none => .error .malformed

/-- The end of an escape that is only passed over. -/
def skipEscape : List Char → Except Fault (List Char)
  | [] => .error .unfinished
  | 'u' :: cs => (hexCode cs).map Prod.snd
  | c :: cs => if (shortEscape? c).isSome then .ok cs else .error .malformed

/-- The content of a string after its opening quote, with the rest of the text. -/
def quotedValue : Nat → List Char → List Char → Except Fault (String × List Char)
  | _, _, [] => .error .unfinished
  | 0, _, _ :: _ => .error .unfinished
  | fuel + 1, done, c :: cs =>
    if c = '"' then .ok (String.ofList done.reverse, cs)
    else if c = '\\' then
      match escape cs with
      | .ok (d, cs) => quotedValue fuel (d :: done) cs
      | .error f => .error f
    else if c.toNat < 0x20 then .error .malformed
    else quotedValue fuel (c :: done) cs

/-- The rest of the text after a string that is only passed over. -/
def skipQuoted : Nat → List Char → Except Fault (List Char)
  | _, [] => .error .unfinished
  | 0, _ :: _ => .error .unfinished
  | fuel + 1, c :: cs =>
    if c = '"' then .ok cs
    else if c = '\\' then
      match skipEscape cs with
      | .ok cs => skipQuoted fuel cs
      | .error f => .error f
    else if c.toNat < 0x20 then .error .malformed
    else skipQuoted fuel cs

/-- The rest of a text that goes on with a given word. -/
def word : List Char → List Char → Except Fault (List Char)
  | [], cs => .ok cs
  | _ :: _, [] => .error .unfinished
  | a :: as, c :: cs => if a = c then word as cs else .error .malformed

/-- A word with its value. -/
def wordToken (letters : String) (value : Json) (cs : List Char) : Token × Option (List Char) :=
  match word letters.toList cs with
  | .ok rest => (plain (some value), some rest)
  | .error f => (broken false f f, none)

/-- A string after its opening quote. -/
def textToken (cs : List Char) : Token × Option (List Char) :=
  match quotedValue cs.length [] cs, skipQuoted cs.length cs with
  | .ok (s, rest), _ => (text (some s), some rest)
  | .error _, .ok rest => (text none, some rest)
  | .error f, .error g => (broken true f g, none)

/-- A number. Where a digit has to follow, the loose reading takes the end of the text for a
character that is no digit. -/
def numberToken (cs : List Char) : Token × Option (List Char) :=
  match Number.parts cs with
  | .ok (p, rest) => (plain (Number.value? p), some rest)
  | .error f => (broken false f .malformed, none)

/-- The token at the front of a text that starts with `c`, and what follows it; nothing follows a
lexeme that goes wrong. -/
def next (c : Char) (cs : List Char) : Token × Option (List Char) :=
  if c ∈ ['[', ']', '\x7b', '\x7d', ',', ':'] then (mark c, some cs)
  else if c = '"' then textToken cs
  else if c = 'n' then wordToken "ull" .null cs
  else if c = 't' then wordToken "rue" (.bool true) cs
  else if c = 'f' then wordToken "alse" (.bool false) cs
  else if c = '-' ∨ c.isDigit then numberToken (c :: cs)
  else (stray, none)

/-- The tokens of a text. Each takes at least one character, so the length of the text is fuel
enough. -/
def scanWith : Nat → List Char → List Token
  | _, [] => []
  | 0, _ :: _ => []
  | fuel + 1, c :: cs =>
    if isSpace c then scanWith fuel cs
    else match next c cs with
      | (t, some rest) => t :: scanWith fuel rest
      | (t, none) => [t]

/-- The tokens of a text, up to its end or the first lexeme that goes wrong. -/
def scan (cs : List Char) : List Token := scanWith cs.length cs

end Token

end Emmet.Json
