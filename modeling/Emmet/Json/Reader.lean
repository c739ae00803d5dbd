import Emmet.Json.Token

/-!
# Reading JSON documents

A reader takes tokens off the front of a list and gives a value, or the first fault in the order of
the document. A token of another shape than the one asked for is a mismatch when it starts a JSON
value and a malformed text otherwise, and a list that runs out is unfinished.

* `value` reads any value, with arrays and objects nested up to a limit;
* `skip` passes over a value without looking into it;
* `Json.parse` reads a whole text, and `Json.tokens` writes a value as tokens.
-/

namespace Emmet.Json

/-- Takes a value off the front of a list of tokens. -/
abbrev Reader (α : Type) := List Token → Except Fault (α × List Token)

/-- The nesting that a document may have. -/
def nestingLimit : Nat := 127

namespace Reader

variable {α σ : Type}

/-- The fault of tokens that do not start with a value of the kind asked for. -/
def wrongKind : List Token → Fault
  | [] => .unfinished
  | .mark c :: _ => if c = '[' ∨ c = '\x7b' then .mismatch else .malformed
  | .plain (some _) :: _ => .mismatch
  | .text (some _) :: _ => .mismatch
  | .broken _ strict _ :: _ => strict
  | _ => .malformed

/-- Takes one mark. -/
def mark (c : Char) : List Token → Except Fault (List Token)
  | [] => .error .unfinished
  | .mark d :: ts => if d = c then .ok ts else .error .malformed
  | _ :: _ => .error .malformed

/-- Nothing is left. -/
def finish : List Token → Except Fault Unit
  | [] => .ok ()
  | _ :: _ => .error .malformed

/-- A string. -/
def string : Reader String
  | .text (some s) :: ts => .ok (s, ts)
  | ts => .error (wrongKind ts)

/-- A boolean. -/
def boolean : Reader Bool
  | .plain (some (.bool b)) :: ts => .ok (b, ts)
  | ts => .error (wrongKind ts)

/-- `null`. -/
def nothing : Reader Unit
  | .plain (some .null) :: ts => .ok ((), ts)
  | ts => .error (wrongKind ts)

/-- The name of a member of an object. -/
def name : Reader String
  | [] => .error .unfinished
  | .text (some s) :: ts => .ok (s, ts)
  | .broken true strict _ :: _ => .error strict
  | _ :: _ => .error .malformed

/-- The items after the first of an array, up to its closing bracket. The fuel is the number of
tokens. -/
def moreItems (item : Reader α) : Nat → Reader (List α)
  | _, [] => .error .unfinished
  | 0, _ :: _ => .error .unfinished
  | fuel + 1, .mark c :: ts =>
    if c = ']' then .ok ([], ts)
    else if c = ',' then do
      let (x, ts) ← item ts
      let (xs, ts) ← moreItems item fuel ts
      return (x :: xs, ts)
    else .error .malformed
  | _ + 1, _ :: _ => .error .malformed

/-- The items of an array after its opening bracket. -/
def items (item : Reader α) : Reader (List α)
  | .mark ']' :: ts => .ok ([], ts)
  | [] => .error .unfinished
  | ts => do
    let (x, ts) ← item ts
    let (xs, ts) ← moreItems item ts.length ts
    return (x :: xs, ts)

/-- The members after the first of an object, up to its closing brace. A step takes the state, the
name of a member and the tokens after the name. The fuel is the number of tokens. -/
def moreMembers (step : σ → String → Reader σ) : Nat → σ → Reader σ
  | _, _, [] => .error .unfinished
  | 0, _, _ :: _ => .error .unfinished
  | fuel + 1, state, .mark c :: ts =>
    if c = '\x7d' then .ok (state, ts)
    else if c = ',' then do
      let (key, ts) ← name ts
      let (state, ts) ← step state key ts
      moreMembers step fuel state ts
    else .error .malformed
  | _ + 1, _, _ :: _ => .error .malformed

/-- The members of an object after its opening brace. -/
def members (step : σ → String → Reader σ) (state : σ) : Reader σ
  | .mark '\x7d' :: ts => .ok (state, ts)
  | [] => .error .unfinished
  | ts => do
    let (key, ts) ← name ts
    let (state, ts) ← step state key ts
    moreMembers step ts.length state ts

/-- A colon and the value of a member, written into a table. -/
def entry (item : Reader α) (table : Table α) (key : String) : Reader (Table α) := fun ts => do
  let ts ← mark ':' ts
  let (x, ts) ← item ts
  return (table.put key x, ts)

/-- Any value, with at most `limit` arrays and objects around each of its parts. -/
def value : (limit : Nat) → Reader Json
  | limit, ts =>
    match ts with
    | .plain (some v) :: ts => .ok (v, ts)
    | .text (some s) :: ts => .ok (.string s, ts)
    | .mark c :: rest =>
      if c = '[' then
        match limit with
        | 0 => .error .malformed
        | limit + 1 => (items (value limit) rest).map fun p => (.array p.1, p.2)
      else if c = '\x7b' then
        match limit with
        | 0 => .error .malformed
        | limit + 1 =>
          (members (entry (value limit)) [] rest).map fun p => (.object p.1, p.2)
      else .error .malformed
    | ts => .error (wrongKind ts)

/-- An array of values of one kind. -/
def list (item : Nat → Reader α) (limit : Nat) : Reader (List α)
  | .mark '[' :: ts =>
    match limit with
    | 0 => .error .malformed
    | limit + 1 => items (item limit) ts
  | ts => .error (wrongKind ts)

/-- An object with values of one kind. -/
def table (item : Nat → Reader α) (limit : Nat) : Reader (Table α)
  | .mark '\x7b' :: ts =>
    match limit with
    | 0 => .error .malformed
    | limit + 1 => members (entry (item limit)) [] ts
  | ts => .error (wrongKind ts)

/-- A token as the loose reading sees it: only its end matters. -/
def loosen : Token → Token
  | .plain none => .plain (some .null)
  | .text none => .text (some "")
  | .broken quoted _ loose => .broken quoted loose loose
  | t => t

/-- Passes over a value, nested to any depth, without looking into its strings and numbers. -/
def skip : Reader Unit := fun ts => do
  let (_, rest) ← value ts.length (ts.map loosen)
  return ((), ts.drop (ts.length - rest.length))

/-- Reads a whole text. -/
def document (read : Reader α) (text : List Char) : Except Fault α := do
  let (x, rest) ← read (Token.scan text)
  finish rest
  return x

end Reader

/-- The value that a text holds. -/
def parse (text : List Char) : Except Fault Json :=
  Reader.document (Reader.value nestingLimit) text

mutual

/-- A value as tokens. -/
def tokens : Json → List Token
  | .string s => [.text (some s)]
  | .array [] => [.mark '[', .mark ']']
  | .array (x :: xs) => .mark '[' :: (tokens x ++ moreItemTokens xs)
  | .object [] => [.mark '\x7b', .mark '\x7d']
  | .object ((k, v) :: es) =>
    .mark '\x7b' :: .text (some k) :: .mark ':' :: (tokens v ++ moreMemberTokens es)
  | v => [.plain (some v)]

/-- The items after the first, each with a comma before it, and the closing bracket. -/
def moreItemTokens : List Json → List Token
  | [] => [.mark ']']
  | x :: xs => .mark ',' :: (tokens x ++ moreItemTokens xs)

/-- The members after the first, each with a comma before it, and the closing brace. -/
def moreMemberTokens : List (String × Json) → List Token
  | [] => [.mark '\x7d']
  | (k, v) :: es => .mark ',' :: .text (some k) :: .mark ':' :: (tokens v ++ moreMemberTokens es)

end

mutual

/-- How many arrays and objects are nested in a value. -/
def depth : Json → Nat
  | .array xs => itemDepth xs + 1
  | .object es => memberDepth es + 1
  | _ => 0

/-- The greatest depth of some items. -/
def itemDepth : List Json → Nat
  | [] => 0
  | x :: xs => max (depth x) (itemDepth xs)

/-- The greatest depth of the values of some members. -/
def memberDepth : List (String × Json) → Nat
  | [] => 0
  | (_, v) :: es => max (depth v) (memberDepth es)

end

end Emmet.Json
