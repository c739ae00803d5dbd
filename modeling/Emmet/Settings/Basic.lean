import Emmet.Abbreviation.Filter
import Emmet.Json.Reader
import Emmet.Text.Blank

/-!
# Settings

The settings of the user as an editor keeps them. `Settings.read` takes them from the tokens of a
JSON document, `Settings.toJson` writes them. The fields may come as an object in any order, with
their defaults where they are missing, or as an array in the order of the structure.
-/

namespace Emmet

/-- When the expansion of the typed abbreviation is offered. -/
inductive Offer where
  | always
  | never
  | inMarkupAndStylesheets
  deriving DecidableEq, Repr

/-- The written name of a choice. -/
def Offer.name : Offer → String
  | always => "always"
  | never => "never"
  | inMarkupAndStylesheets => "inMarkupAndStylesheetFilesOnly"

/-- The choice of a name. -/
def Offer.ofName? (name : String) : Option Offer :=
  [always, never, inMarkupAndStylesheets].find? fun o => o.name == name

/-- The settings of the user. -/
structure Settings where
  offer : Offer := .inMarkupAndStylesheets
  /-- Snippet keys and tags are offered besides the expansion. -/
  suggestions : Bool := true
  /-- Everything that is offered is called a snippet. -/
  asSnippets : Bool := false
  /-- The profiles of dialects. -/
  profiles : Table Json := []
  preferences : Table Json := []
  /-- The texts that variables stand for. -/
  bindings : Table String := []
  /-- The languages in which nothing is offered. -/
  excluded : List String := ["markdown"]
  /-- The directories in which a library is looked for. -/
  paths : List String := []

namespace Settings

/-! ### Writing -/

/-- The settings as a JSON object. -/
def toJson (s : Settings) : Json := .object [
  ("showExpandedAbbreviation", .string s.offer.name),
  ("showAbbreviationSuggestions", .bool s.suggestions),
  ("showSuggestionsAsSnippets", .bool s.asSnippets),
  ("syntaxProfiles", .object s.profiles),
  ("preferences", .object s.preferences),
  ("variables", .object (s.bindings.map fun e => (e.1, .string e.2))),
  ("excludeLanguages", Json.strings s.excluded),
  ("extensionsPath", Json.strings s.paths)]

/-! ### Reading -/

open Json (Fault Reader Token)

/-- The choice of a name that is read. -/
def offerNamed (read : String × List Token) : Except Fault (Offer × List Token) :=
  match Offer.ofName? read.1 with
  | some o => .ok (o, read.2)
  | none => .error .mismatch

/-- Reads a choice: its name, or an object that has the name with the value `null`. -/
def readOffer (limit : Nat) : Reader Offer
  | .mark '\x7b' :: ts =>
    match limit with
    | 0 => .error .malformed
    | _ + 1 => do
      let (offer, ts) ← (Reader.name ts).bind offerNamed
      let ts ← Reader.mark ':' ts
      let (_, ts) ← Reader.nothing ts
      let ts ← Reader.mark '\x7d' ts
      return (offer, ts)
  | .text (some name) :: ts => offerNamed (name, ts)
  | .broken true strict _ :: _ => .error strict
  | [] => .error .unfinished
  | _ => .error .malformed

/-- The paths that a value names: one text or a list of texts. A blank text and `null` name
none. -/
def pathsOf : Json → Except Fault (List String)
  | .string path => .ok (if Text.trim path.toList = [] then [] else [path])
  | .array items =>
    match items.mapM Json.string? with
    | some paths => .ok paths
    | none => .error .mismatch
  | .null => .ok []
  | _ => .error .mismatch

/-- Reads paths. -/
def readPaths (limit : Nat) : Reader (List String) := fun ts => do
  let (value, ts) ← Reader.value limit ts
  let paths ← pathsOf value
  return (paths, ts)

/-- A field of the settings, in the order of the structure. -/
inductive Field where
  | offer
  | suggestions
  | asSnippets
  | profiles
  | preferences
  | bindings
  | excluded
  | paths
  deriving DecidableEq, Repr

/-- The written name of a field. -/
def Field.name : Field → String
  | offer => "showExpandedAbbreviation"
  | suggestions => "showAbbreviationSuggestions"
  | asSnippets => "showSuggestionsAsSnippets"
  | profiles => "syntaxProfiles"
  | preferences => "preferences"
  | bindings => "variables"
  | excluded => "excludeLanguages"
  | paths => "extensionsPath"

/-- All fields, in order. -/
def Field.all : List Field :=
  [offer, suggestions, asSnippets, profiles, preferences, bindings, excluded, paths]

/-- The field of a name. -/
def Field.ofName? (name : String) : Option Field := all.find? fun f => f.name == name

/-- Applies a reader of values to the settings it writes into. -/
def store {α : Type} (read : Reader α) (write : α → Settings) : Reader Settings :=
  fun ts => (read ts).map fun p => (write p.1, p.2)

/-- Reads the value of a field. -/
def readField (limit : Nat) (s : Settings) : Field → Reader Settings
  | .offer => store (readOffer limit) fun x => { s with offer := x }
  | .suggestions => store Reader.boolean fun x => { s with suggestions := x }
  | .asSnippets => store Reader.boolean fun x => { s with asSnippets := x }
  | .profiles => store (Reader.table Reader.value limit) fun x => { s with profiles := x }
  | .preferences => store (Reader.table Reader.value limit) fun x => { s with preferences := x }
  | .bindings =>
    store (Reader.table (fun _ => Reader.string) limit) fun x => { s with bindings := x }
  | .excluded =>
    store (Reader.list (fun _ => Reader.string) limit) fun x => { s with excluded := x }
  | .paths => store (readPaths limit) fun x => { s with paths := x }

/-- Reads a member of the object. A field may come once; other names are passed over. -/
def readMember (limit : Nat) (state : Settings × List Field) (name : String) :
    Reader (Settings × List Field) := fun ts =>
  match Field.ofName? name with
  | some f =>
    if f ∈ state.2 then .error .mismatch
    else do
      let ts ← Reader.mark ':' ts
      let (s, ts) ← readField limit state.1 f ts
      return ((s, f :: state.2), ts)
  | none => do
    let ts ← Reader.mark ':' ts
    let (_, ts) ← Reader.skip ts
    return (state, ts)

/-- Reads the fields that an array still has, each but the first of all after a comma. -/
def readItems (limit : Nat) : Bool → List Field → Settings → Reader Settings
  | _, [], s, ts => do
    let ts ← Reader.mark ']' ts
    return (s, ts)
  | _, _ :: _, s, .mark ']' :: ts => .ok (s, ts)
  | true, f :: fs, s, ts => do
    let (s, ts) ← readField limit s f ts
    readItems limit false fs s ts
  | false, f :: fs, s, ts => do
    let ts ← Reader.mark ',' ts
    let (s, ts) ← readField limit s f ts
    readItems limit false fs s ts

/-- Reads settings, with at most `limit` arrays and objects around each of their parts. -/
def read (limit : Nat) : Reader Settings
  | .mark '\x7b' :: ts =>
    match limit with
    | 0 => .error .malformed
    | limit + 1 => (Reader.members (readMember limit) (({} : Settings), []) ts).map
        fun p => (p.1.1, p.2)
  | .mark '[' :: ts =>
    match limit with
    | 0 => .error .malformed
    | limit + 1 => readItems limit true Field.all {} ts
  | ts => .error (Reader.wrongKind ts)

/-- The settings that a text holds. -/
def parse (text : String) : Except Fault Settings :=
  Reader.document (read Json.nestingLimit) text.toList

/-- The settings that a JSON value holds. -/
def ofJson (value : Json) : Except Fault Settings := do
  let (s, rest) ← read value.depth value.tokens
  Reader.finish rest
  return s

end Settings

end Emmet
