import Emmet.Text.Blank

/-!
# The end of a tag

Whether a `>` left of the cursor ends a tag or is the child operator is decided by reading the tag
from right to left: attributes and blanks, then the name and its opening bracket. All lists of
characters here are reversed: the head is the character nearest to the cursor.

* `round` reads one attribute or the opening of the tag;
* `endsTag` repeats rounds until one of them decides; `length_lt_of_round` says that a round that
  does not decide moves to the left, so the repetition ends.
-/

namespace Emmet.Abbreviation

/-- A character of a tag or attribute name. -/
def isNameChar (c : Char) : Bool := c == ':' || c == '-' || c.isAlphanum

/-- A quotation mark. -/
def isQuote (c : Char) : Bool := c == '"' || c == '\''

/-- The bracket that a closing bracket closes. -/
def opener? : Char → Option Char
  | ')' => some '('
  | ']' => some '['
  | '\x7d' => some '\x7b'
  | '>' => some '<'
  | _ => none

/-- An opening bracket of any kind. -/
def isOpening (c : Char) : Bool := c == '(' || c == '[' || c == '\x7b' || c == '<'

/-- What is left of a name; nothing if there is no name. -/
def beforeName : List Char → Option (List Char)
  | [] => none
  | c :: left => if isNameChar c then some (left.dropWhile isNameChar) else none

/-- What is left of a given character; nothing if another one stands there. -/
def beforeChar (expected : Char) : List Char → Option (List Char)
  | [] => none
  | c :: left => if c = expected then some left else none

/-- What is left of the quotation mark that opens a text. A mark with a backslash before it belongs
to the text. -/
def beforeQuoteOpening (quote : Char) : List Char → Option (List Char)
  | [] => none
  | c :: left =>
    if c = quote ∧ left.head? ≠ some '\\' then some left else beforeQuoteOpening quote left

/-- What is left of a text in quotation marks. -/
def beforeQuoted : List Char → Option (List Char)
  | [] => none
  | c :: left => if isQuote c then beforeQuoteOpening c left else none

/-- What is left of the longest text that can be a value without quotation marks: it has no blank,
quotation mark or equals sign, and every opening bracket in it closes a bracket of the text. The
closing brackets still to be matched are given innermost first. -/
def beforeBareValue : List Char → List Char → List Char
  | _, [] => []
  | pending, c :: left =>
    if (opener? c).isSome then beforeBareValue (c :: pending) left
    else if isOpening c then
      match pending with
      | top :: pending => if opener? top = some c then beforeBareValue pending left else c :: left
      | [] => c :: left
    else if c = '=' ∨ Text.isAsciiBlank c ∨ isQuote c then c :: left
    else beforeBareValue pending left

/-- What is left of an attribute whose value has no quotation marks. -/
def beforeBareAttribute (left : List Char) : Option (List Char) :=
  let rest := beforeBareValue [] left
  if rest.length = left.length then none else (beforeChar '=' rest).bind beforeName

/-- What is left of an attribute whose value is in quotation marks. -/
def beforeQuotedAttribute (left : List Char) : Option (List Char) :=
  ((beforeQuoted left).bind (beforeChar '=')).bind beforeName

/-- What is left of an attribute with a value. -/
def beforeAttribute (left : List Char) : Option (List Char) :=
  match beforeQuotedAttribute left with
  | some rest => some rest
  | none => beforeBareAttribute left

/-- The outcome of a round. -/
inductive Round where
  /-- The opening of the tag was found. -/
  | found
  /-- This is no tag. -/
  | lost
  /-- An attribute was read; what is left of it. -/
  | more (left : List Char)
  deriving DecidableEq, Repr

/-- The round after a name: the opening of the tag, or the name is an attribute or the value of
one. -/
def roundAfterName : List Char → Round
  | [] => .lost
  | c :: left =>
    if c = '/' then if left.head? = some '<' then .found else .lost
    else if c = '<' then .found
    else if Text.isAsciiBlank c then .more left
    else if c = '=' then
      match beforeName left with
      | some left => .more left
      | none => .lost
    else if (beforeBareAttribute (c :: left)).isSome then .found
    else .lost

/-- Reads blanks and one attribute or the opening of the tag. -/
def round (left : List Char) : Round :=
  let left := left.dropWhile Text.isAsciiBlank
  match beforeName left with
  | some left => roundAfterName left
  | none =>
    match beforeAttribute left with
    | some left => .more left
    | none => .lost

/-! ### Every round moves to the left -/

theorem length_lt_of_beforeName {left rest : List Char} (h : beforeName left = some rest) :
    rest.length < left.length := by
  cases left with
  | nil => simp [beforeName] at h
  | cons c left =>
    simp only [beforeName] at h
    split at h
    · obtain rfl := Option.some.inj h
      exact Nat.lt_succ_of_le (List.dropWhile_sublist _).length_le
    · simp at h

theorem length_lt_of_beforeChar {expected : Char} {left rest : List Char}
    (h : beforeChar expected left = some rest) : rest.length < left.length := by
  cases left with
  | nil => simp [beforeChar] at h
  | cons c left =>
    simp only [beforeChar] at h
    split at h
    · obtain rfl := Option.some.inj h
      simp
    · simp at h

theorem length_lt_of_beforeQuoteOpening {quote : Char} {left rest : List Char}
    (h : beforeQuoteOpening quote left = some rest) : rest.length < left.length := by
  induction left with
  | nil => simp [beforeQuoteOpening] at h
  | cons c left ih =>
    simp only [beforeQuoteOpening] at h
    split at h
    · obtain rfl := Option.some.inj h
      simp
    · exact Nat.lt_succ_of_lt (ih h)

theorem length_beforeBareValue_le (pending left : List Char) :
    (beforeBareValue pending left).length ≤ left.length := by
  induction left generalizing pending with
  | nil => simp [beforeBareValue]
  | cons c left ih =>
    unfold beforeBareValue
    split
    · exact Nat.le_succ_of_le (ih _)
    split
    · split
      · split
        · exact Nat.le_succ_of_le (ih _)
        · exact Nat.le_refl _
      · exact Nat.le_refl _
    split
    · exact Nat.le_refl _
    · exact Nat.le_succ_of_le (ih _)

theorem length_lt_of_beforeAttribute {left rest : List Char}
    (h : beforeAttribute left = some rest) : rest.length < left.length := by
  have quoted : ∀ r, beforeQuotedAttribute left = some r → r.length < left.length := by
    intro r hr
    obtain ⟨a, ha, hr⟩ := Option.bind_eq_some_iff.1 hr
    obtain ⟨b, hb, ha⟩ := Option.bind_eq_some_iff.1 ha
    have hb' : b.length < left.length := by
      cases left with
      | nil => simp [beforeQuoted] at hb
      | cons c left =>
        simp only [beforeQuoted] at hb
        split at hb
        · exact Nat.lt_succ_of_lt (length_lt_of_beforeQuoteOpening hb)
        · simp at hb
    have := length_lt_of_beforeChar ha
    have := length_lt_of_beforeName hr
    omega
  have bare : ∀ r, beforeBareAttribute left = some r → r.length < left.length := by
    intro r hr
    simp only [beforeBareAttribute] at hr
    split at hr
    · simp at hr
    · obtain ⟨a, ha, hr⟩ := Option.bind_eq_some_iff.1 hr
      have := length_lt_of_beforeChar ha
      have := length_lt_of_beforeName hr
      have := length_beforeBareValue_le [] left
      omega
  unfold beforeAttribute at h
  split at h
  · next r hq =>
    obtain rfl := Option.some.inj h
    exact quoted r hq
  · exact bare rest h

theorem length_lt_of_roundAfterName {left rest : List Char}
    (h : roundAfterName left = .more rest) : rest.length < left.length := by
  cases left with
  | nil => simp [roundAfterName] at h
  | cons c left =>
    simp only [roundAfterName] at h
    repeat' split at h
    all_goals cases h
    · simp
    · next hl => exact Nat.lt_succ_of_lt (length_lt_of_beforeName hl)

/-- A round that does not decide moves to the left. -/
theorem length_lt_of_round {left rest : List Char} (h : round left = .more rest) :
    rest.length < left.length := by
  simp only [round] at h
  have := (List.dropWhile_sublist Text.isAsciiBlank (l := left)).length_le
  split at h
  · next hn =>
    have := length_lt_of_beforeName hn
    have := length_lt_of_roundAfterName h
    omega
  · split at h
    · next ha =>
      obtain rfl := Round.more.inj h
      have := length_lt_of_beforeAttribute ha
      omega
    · simp at h

/-- Repeats rounds until one decides. -/
def opensTag (left : List Char) : Bool :=
  match _h : round left with
  | .found => true
  | .lost => false
  | .more rest => opensTag rest
  termination_by left.length
  decreasing_by exact length_lt_of_round _h

/-- Whether the character nearest to the cursor is a `>` that ends a tag. The tag may close itself
with a slash. -/
def endsTag : List Char → Bool
  | '>' :: '/' :: left => opensTag left
  | '>' :: left => opensTag left
  | _ => false

end Emmet.Abbreviation
