import Emmet.Dialect
import Emmet.Expansion.Output
import Emmet.Names.Tag
import Emmet.Text.Lower
import Emmet.Text.Measure
import Emmet.Text.Split

/-!
# Noise

An engine expands any word, `abc` to an element of that name or to a property without value. Such an
expansion says nothing and would be offered with every key typed, so it is noise. Each family of
dialects has rules that are asked in order; the first one with an opinion decides.
-/

namespace Emmet.Noise

/-- What the rules look at. -/
structure Subject where
  dialect : String
  abbreviation : String
  expansion : String
  output : Output
  /-- The snippet keys that are known in the dialect. -/
  keys : List String

/-- A named rule: noise, no noise, or no opinion. -/
structure Rule where
  name : String
  check : Subject → Option Bool

/-- The text without its blank characters. -/
def withoutBlanks (cs : List Char) : List Char := cs.filter (!Text.isBlank ·)

/-- The abbreviation without the part at its end that the text between property and value repeats:
`m:` stands for the property `m`. The repeated part is looked for only in as many bytes at the end
as the text between has. -/
def propertyOf (abbreviation between : List Char) : List Char :=
  match between with
  | [] => abbreviation
  | first :: _ =>
    let n := Text.bytes abbreviation - Text.bytes between
    let (front, back) := Text.cut Text.utf8 abbreviation n
    if Text.bytes front = n ∧ first ∈ back then front ++ back.takeWhile (· != first)
    else abbreviation

/-- The expansion is the property with an empty value, or only repeats the abbreviation. -/
def emptyProperty : Rule :=
  ⟨"empty-property", fun s =>
    let abbreviation := s.abbreviation.toList
    let between := s.output.between.toList
    let after := s.output.after.toList
    let value := (((propertyOf abbreviation between).isPrefixOf? s.expansion.toList).bind
      between.isPrefixOf?).bind after.isSuffixOf?
    let echoes := match value with
      | some value => Template.isMarker value
      | none => false
    some (echoes || withoutBlanks s.expansion.toList == withoutBlanks abbreviation ++ after)⟩

/-- The elements of HTML are not offered in XML. -/
def xmlTag : Rule :=
  ⟨"xml-html-tag", fun s =>
    let lower := Text.lower s.abbreviation.toList
    if s.dialect = "xml" ∧ Tag.common.any (fun tag => lower.isPrefixOf tag.toList) then some true
    else none⟩

/-- Known tags and snippets are kept. -/
def knownName : Rule :=
  ⟨"known-name", fun s =>
    if Tag.isCommon (String.ofList (Text.lower s.abbreviation.toList)) ||
      s.keys.contains s.abbreviation then some false else none⟩

/-- Two equal characters stand side by side. -/
def hasDouble (c : Char) : List Char → Bool
  | a :: b :: rest => (a == c && b == c) || hasDouble c (b :: rest)
  | _ => false

/-- Names with a single hyphen or colon in them are custom elements or have a name space. -/
def customElement : Rule :=
  ⟨"custom-element", fun s =>
    let cs := s.abbreviation.toList
    if (cs.contains '-' || cs.contains ':') && !hasDouble '-' cs && !hasDouble ':' cs &&
      cs.getLast? != some ':' then some false else none⟩

/-- A dot alone is kept, so that a class can be typed. -/
def loneDot : Rule :=
  ⟨"lone-dot", fun s => if s.abbreviation = "." then some false else none⟩

/-- A word with a dot after it ends a sentence unless the word is a tag. -/
def wordThenDot : Rule :=
  ⟨"word-then-dot", fun s =>
    match ['.'].isSuffixOf? s.abbreviation.toList with
    | some word =>
      if word.all fun c => c.isAlpha || Text.isDigit c then
        some (!Tag.isHtml (String.ofList word))
      else none
    | none => none⟩

/-- Letters and digits with a capital at the front name a component. -/
def isComponentName : List Char → Bool
  | c :: cs => c.isUpper && cs.all Char.isAlphanum
  | [] => false

/-- Components are kept. -/
def jsxComponent : Rule :=
  ⟨"jsx-component", fun s =>
    if s.dialect = "jsx" ∧ isComponentName s.abbreviation.toList then some false else none⟩

/-- The expansion is an empty element named like the abbreviation. -/
def echoedTag : Rule :=
  ⟨"echoed-tag", fun s =>
    let name := Text.lower s.abbreviation.toList
    let opening := '<' :: (name ++ ['>'])
    let closing := '<' :: '/' :: (name ++ ['>'])
    let content := (opening.isPrefixOf? (Text.lower s.expansion.toList)).bind closing.isSuffixOf?
    some (match content with
      | some content => Template.isMarker content
      | none => false)⟩

/-- The rules of a family, in the order in which they are asked. -/
def rules : Family → List Rule
  | .stylesheet => [emptyProperty]
  | .markup =>
    [xmlTag, knownName, customElement, loneDot, wordThenDot, jsxComponent, echoedTag]

/-- The decision about an expansion, with the rule that made it. -/
def decideBy (s : Subject) : Bool × String :=
  ((rules (Dialect.family s.dialect)).findSome? fun r =>
    (r.check s).map fun noise => (noise, r.name)).getD (false, "default")

/-- Whether an expansion is too trivial to be offered. -/
def isNoise (s : Subject) : Bool := (decideBy s).1

end Emmet.Noise
