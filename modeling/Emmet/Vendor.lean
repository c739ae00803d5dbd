import Emmet.Json.Basic
import Emmet.Text.Split

/-!
# Vendor prefixes

A style sheet abbreviation may ask for copies of its property for browser vendors: `-wm-trf` for
two of them by their letters, `-trf` for those whose list in the preferences names the property.

* `Vendor.split` takes the letters off an abbreviation;
* `Vendor.apply` writes the copies, one a line, before the property itself.
-/

namespace Emmet

/-- A browser vendor with properties of its own. -/
inductive Vendor where
  | webkit
  | moz
  | ms
  | o
  deriving DecidableEq, Repr

namespace Vendor

/-- All vendors, in the order in which copies are written. -/
def all : List Vendor := [webkit, moz, ms, o]

/-- The letter that asks for a vendor. -/
def letter : Vendor → Char
  | webkit => 'w'
  | moz => 'm'
  | ms => 's'
  | o => 'o'

/-- The name of a vendor in a property. -/
def name : Vendor → String
  | webkit => "webkit"
  | moz => "moz"
  | ms => "ms"
  | o => "o"

/-- The vendor of a letter. -/
def ofLetter? (c : Char) : Option Vendor := all.find? fun v => v.letter == c

/-- Whether a character asks for a vendor. -/
def isLetter (c : Char) : Bool := (ofLetter? c).isSome

/-- Splits an abbreviation into what asks for vendors and the rest: `-` with letters and a closing
`-` if at least one character of the same line follows, else `-` alone. -/
def split : List Char → List Char × List Char
  | '-' :: cs =>
    match cs.dropWhile isLetter with
    | '-' :: c :: rest =>
      if c = '\n' then (['-'], cs) else ('-' :: (cs.takeWhile isLetter ++ ['-']), c :: rest)
    | _ => (['-'], cs)
  | cs => ([], cs)

/-- Whether a preference, a comma list or an array of names, names a property. -/
def lists (preference : Json) (property : List Char) : Bool :=
  match preference with
  | .string names => (Text.commaFields names.toList).contains property
  | .array items =>
    (items.filterMap Json.string?).any fun name => Text.trim name.toList == property
  | _ => false

/-- The vendors whose preference names a property, or all vendors if there is none. -/
def forProperty (property : List Char) (preferences : Table Json) : List Vendor :=
  let listed := all.filter fun v =>
    match Table.find? preferences ("css." ++ v.name ++ "Properties") with
    | some preference => lists preference property
    | none => false
  if listed.isEmpty then all else listed

/-- The vendors that an abbreviation asks for, given what `split` took off it. -/
def asked (lead expansion : List Char) (preferences : Table Json) : List Vendor :=
  match lead with
  | ['-'] =>
    match Text.splitOnce ':' expansion with
    | some ([], _) => []
    | some (property, _) => forProperty property preferences
    | none => []
  | '-' :: letters => letters.filterMap ofLetter?
  | _ => []

/-- The copy of an expansion for a vendor, with the line break after it. -/
def copy (v : Vendor) (expansion : List Char) : List Char :=
  '-' :: (v.name.toList ++ '-' :: (expansion ++ ['\n']))

/-- An expansion with the copies that are asked for before it. -/
def applyChars (lead expansion : List Char) (preferences : Table Json) : List Char :=
  ((asked lead expansion preferences).flatMap fun v => v.copy expansion) ++ expansion

/-- An expansion with the copies that are asked for before it. -/
def apply (expansion lead : String) (preferences : Table Json) : String :=
  String.ofList (applyChars lead.toList expansion.toList preferences)

/-- Nothing is lost in splitting. -/
theorem split_append (cs : List Char) : (split cs).1 ++ (split cs).2 = cs := by
  unfold split
  split
  · next cs =>
    split
    · next c rest hd =>
      split
      · rfl
      · have := List.takeWhile_append_dropWhile (p := isLetter) (l := cs)
        rw [hd] at this
        simpa using this
    · rfl
  · rfl

end Vendor

end Emmet
