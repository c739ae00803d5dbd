import Emmet.Dialect
import Emmet.Names.Tag
import Emmet.Text.Digit
import Emmet.Text.Measure
import Emmet.Text.Split
import Emmet.Text.Word

/-!
# Plausible abbreviations

Not every text left of the cursor is meant as an abbreviation. Each family of dialects has rules
that are asked in order, and the first one with an opinion decides. `decideBy` names that rule.
-/

namespace Emmet.Abbreviation

/-- The opinion of a rule. -/
inductive Verdict where
  | valid
  | invalid
  /-- The rule leaves the decision to the next one. -/
  | pass
  deriving DecidableEq, Repr

/-- A named rule. -/
structure Rule where
  name : String
  check : List Char → Verdict

/-- A decision and the name of the rule that made it. -/
structure Decision where
  valid : Bool
  rule : String
  deriving DecidableEq, Repr

/-- A rule that only refuses. -/
def refuseIf (b : Bool) : Verdict := if b then .invalid else .pass

/-- A rule that decides either way. -/
def acceptIff (b : Bool) : Verdict := if b then .valid else .invalid

/-! ### Style sheets -/

/-- A digit of a color. -/
def isColorDigit (c : Char) : Bool := Text.isDigit c || Text.isHexDigit c

/-- One to six digits of a color. -/
def isColor (cs : List Char) : Bool := 1 ≤ cs.length && cs.length ≤ 6 && cs.all isColorDigit

/-- A character of a property with its values. -/
def isPropertyChar (c : Char) : Bool := Text.isWord c || ['.', ':', '+', '-'].contains c

/-- The text without a hyphen at its front. -/
def dropHyphen : List Char → List Char
  | '-' :: cs => cs
  | cs => cs

/-- A property with its values: an optional hyphen, a letter, and characters of a property. -/
def isProperty (cs : List Char) : Bool :=
  match dropHyphen cs with
  | c :: cs => c.isAlpha && cs.all isPropertyChar
  | [] => false

/-- No abbreviation of a property ends with a colon. -/
def trailingColon : Rule :=
  ⟨"trailing-colon", fun cs => refuseIf (cs.getLast? == some ':')⟩

/-- What starts with `#` is a color. -/
def hexColor : Rule :=
  ⟨"hex-color", fun cs => match cs with
    | '#' :: digits => acceptIff (isColor digits)
    | _ => .pass⟩

/-- A tag with an identifier is a selector; one-letter tags are short for properties. -/
def tagWithHash : Rule :=
  ⟨"tag-with-hash", fun cs => match Text.splitOnce '#' cs with
    | some (tag, _) => refuseIf (1 < Text.bytes tag && Tag.isCommon (String.ofList tag))
    | none => .pass⟩

/-- A property may end with a color. -/
def propertyHexValue : Rule :=
  ⟨"property-hex-value", fun cs => match Text.splitOnce '#' cs with
    | some (property, digits) => acceptIff (isProperty property && isColor digits)
    | none => .pass⟩

/-- What starts a property. -/
def stylesheetStart : Rule :=
  ⟨"stylesheet-start", fun cs => match dropHyphen cs with
    | c :: _ => acceptIff (c.isAlpha || ['!', '@', '#'].contains c)
    | [] => .invalid⟩

/-! ### Markup -/

/-- A part of the text from some place to its end has a property. -/
def anyTail (p : List Char → Bool) : List Char → Bool
  | [] => p []
  | c :: cs => p (c :: cs) || anyTail p cs

/-- An operator that joins a group with its neighbours. -/
def isGroupOperator (c : Char) : Bool := c == '>' || c == '+' || c == '*' || c == '^'

/-- The text starts with an operator that joins groups. -/
def startsWithOperator : List Char → Bool
  | c :: _ => isGroupOperator c
  | [] => false

/-- A text node with a parenthesis in it that an operator follows or the end of the text. -/
def textNodeWithParenthesis : List Char → Bool
  | '\x7b' :: cs =>
    let isBrace := fun c : Char => c == '\x7b' || c == '\x7d'
    match cs.dropWhile (!isBrace ·) with
    | '\x7d' :: rest =>
      (cs.takeWhile (!isBrace ·)).any (fun c => c == '(' || c == ')') &&
        (rest.isEmpty || startsWithOperator rest)
    | _ => false
  | _ => false

/-- On the same line there is a closing parenthesis that an operator follows. -/
def closesBeforeOperator : List Char → Bool
  | [] => false
  | c :: cs => (c == ')' && startsWithOperator cs) || (c != '\n' && closesBeforeOperator cs)

/-- On the same line there is a closing parenthesis. -/
def closes : List Char → Bool
  | [] => false
  | c :: cs => c == ')' || (c != '\n' && closes cs)

/-- A group that an operator follows. -/
def groupBeforeOperator : List Char → Bool
  | '(' :: cs => closesBeforeOperator cs
  | _ => false

/-- A group after an operator. -/
def groupAfterOperator : List Char → Bool
  | c :: '(' :: cs => isGroupOperator c && closes cs
  | _ => false

/-- On the same line a quotation mark and a bracket close an attribute. -/
def closesAttribute : List Char → Bool
  | [] => false
  | c :: cs => (c == '"' && cs.head? == some ']') || (c != '\n' && closesAttribute cs)

/-- A bracket or a parenthesis. -/
def isGroupBracket (c : Char) : Bool := c == '[' || c == ']' || c == '(' || c == ')'

/-- A name without brackets and parentheses, and a value in quotation marks. The flag says whether
the name has a character already. -/
def attributeFrom : Bool → List Char → Bool
  | _, [] => false
  | named, c :: cs =>
    (named && c == '=' && (match cs with
      | '"' :: rest => closesAttribute rest
      | _ => false)) ||
    (!isGroupBracket c && attributeFrom true cs)

/-- An attribute set with a value in quotation marks. -/
def quotedAttribute : List Char → Bool
  | '[' :: cs => attributeFrom false cs
  | _ => false

/-- An exclamation mark stands only for a document type. -/
def doctypeBang : Rule :=
  ⟨"doctype-bang", fun cs => if cs.contains '!' then acceptIff (cs.all (· == '!')) else .pass⟩

/-- Parentheses stand only where an abbreviation has them: in a text node, in a group that is joined
to something, or in the value of an attribute. -/
def grouping : Rule :=
  ⟨"grouping", fun cs =>
    if cs.contains '(' || cs.contains ')' then
      refuseIf !(anyTail textNodeWithParenthesis cs || anyTail groupBeforeOperator cs ||
        anyTail quotedAttribute cs || anyTail groupAfterOperator cs)
    else .pass⟩

/-- What starts an element. -/
def markupStart : Rule :=
  ⟨"markup-start", fun cs => match cs with
    | c :: _ => refuseIf !(c.isAlpha || ['!', '(', '[', '#', '.'].contains c)
    | [] => .invalid⟩

/-- There is a letter or a class. -/
def hasWord : Rule :=
  ⟨"has-word", fun cs => acceptIff (cs.any fun c => c.isAlpha || c == '.')⟩

/-! ### Decisions -/

/-- The rules of a family, in the order in which they are asked. -/
def rules : Family → List Rule
  | .stylesheet => [trailingColon, hexColor, tagWithHash, propertyHexValue, stylesheetStart]
  | .markup => [doctypeBang, grouping, markupStart, hasWord]

/-- The decision of the first rule with an opinion. -/
def firstDecision (cs : List Char) : List Rule → Decision
  | [] => ⟨true, "default"⟩
  | r :: rs =>
    match r.check cs with
    | .valid => ⟨true, r.name⟩
    | .invalid => ⟨false, r.name⟩
    | .pass => firstDecision cs rs

/-- The decision about a text, with the rule that made it. The empty text is no abbreviation. -/
def decideBy (f : Family) (cs : List Char) : Decision :=
  if cs = [] then ⟨false, "non-empty"⟩ else firstDecision cs (rules f)

/-- Whether a text is a plausible abbreviation in a dialect. -/
def isValid (dialect abbreviation : String) : Bool :=
  (decideBy (Dialect.family dialect) abbreviation.toList).valid

end Emmet.Abbreviation
