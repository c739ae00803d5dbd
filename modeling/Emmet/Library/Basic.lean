import Emmet.Dialect
import Emmet.Notice
import Emmet.Table

/-!
# Libraries

A library holds what the user adds to the abbreviations: variables, snippets for each dialect, and
profiles. `Library.ofDocuments` takes it from the documents of an extensions directory. A dialect
has the snippets of the base dialect of its family, too, unless it has one of its own under the same
key. The keys of style sheet dialects are asked for at every key stroke, so they are listed once and
kept.
-/

namespace Emmet

/-- The snippet keys of each style sheet dialect. -/
def Library.sheetKeys (snippets : Table (Table String)) : Table (List String) :=
  (snippets.filter fun e => Dialect.isStylesheet e.1).map fun e => (e.1, Table.keys e.2)

/-- What the user adds to the abbreviations. -/
structure Library where
  /-- Counts the installed libraries; zero before the first. No store lives to install more of them
  than 64 bits can count. -/
  version : Nat := 0
  /-- The directory that the library was loaded from. -/
  source : Option String := none
  /-- The texts that variables stand for. -/
  bindings : Table String := []
  /-- The snippets of each dialect, with those of the base dialect. -/
  snippets : Table (Table String) := []
  /-- The profiles of dialects as they were written. -/
  profiles : Table Json := []
  /-- The snippet keys of each style sheet dialect, listed when the library is made. -/
  stylesheetKeyTable : Table (List String) := Library.sheetKeys snippets
  stylesheetKeyTable_eq : stylesheetKeyTable = Library.sheetKeys snippets := by rfl

namespace Library

/-- The library that adds nothing. -/
def empty : Library := {}

/-! ### Reading documents -/

/-- The entries of an object that are texts. The others are reported with the part of the document
that they are in. -/
def textEntries (part : String) (entries : Table Json) : Traced Notice (Table String) :=
  Traced.filterMap (fun e => match e.2 with
    | .string s => pure (some (e.1, s))
    | _ => do
      Traced.emit (.oddEntry e.1 part)
      return none) entries

/-- The object under a name of an object. -/
def objectAt? (value : Json) (key : String) : Option (Table Json) :=
  (value.object?.bind fun entries => Table.find? entries key).bind Json.object?

/-- The variables of a document. -/
def bindingsOf (root : Table Json) : Traced Notice (Table String) :=
  match objectAt? (.object root) "variables" with
  | some entries => textEntries "variables" entries
  | none => pure []

/-- The snippets that each dialect has of its own. -/
def ownSnippets (root : Table Json) : Traced Notice (Table (Table String)) :=
  Traced.filterMap (fun e => match objectAt? e.2 "snippets" with
    | some entries => do
      let texts ← textEntries e.1 entries
      return some (e.1, texts)
    | none => pure none) root

/-- Whether a snippet is written as markup, which is no abbreviation. -/
def isMarkup (text : List Char) : Bool :=
  text.head? == some '<' && text.getLast? == some '>'

/-- A snippet as an abbreviation: markup becomes a text node. -/
def asAbbreviation (text : String) : String :=
  if isMarkup text.toList then "\x7b" ++ text ++ "\x7d" else text

/-- The snippets of a dialect, given what each dialect has of its own. -/
def inherited (own : Table (Table String)) (dialect : String) (snippets : Table String) :
    Table String :=
  let base := Dialect.base dialect
  let all := if base = dialect then snippets
    else match Table.find? own base with
      | some shared => Table.overlay shared snippets
      | none => snippets
  if Dialect.isStylesheet dialect then all else all.map fun e => (e.1, asAbbreviation e.2)

/-- The library of a snippets document, with the profiles of a second document if there is one. -/
def ofDocuments (snippets : Json) (profiles : Option Json) :
    Traced Notice (Except DocumentError Library) :=
  match snippets with
  | .object root => do
    let bindings ← bindingsOf root
    let own ← ownSnippets root
    let snippets := own.map fun e => (e.1, inherited own e.1 e.2)
    return .ok {
      bindings := bindings
      snippets := snippets
      profiles := (profiles.bind Json.object?).getD []
      stylesheetKeyTable := sheetKeys snippets }
  | _ => pure (.error .notAnObject)

/-! ### Looking up -/

/-- The snippets of a dialect, or those of its base dialect. -/
def snippetsFor? (l : Library) (dialect : String) : Option (Table String) :=
  match Table.find? l.snippets dialect with
  | some snippets => some snippets
  | none => Table.find? l.snippets (Dialect.base dialect)

/-- The snippet keys that are offered in a style sheet dialect. -/
def stylesheetKeys (l : Library) (dialect : String) : List String :=
  match Table.find? l.stylesheetKeyTable dialect with
  | some keys => keys
  | none => (Table.find? l.stylesheetKeyTable "css").getD []

/-- The snippet keys that are offered in a dialect. -/
def snippetKeys (l : Library) (dialect : String) : List String :=
  if Dialect.isStylesheet dialect then l.stylesheetKeys dialect
  else ((l.snippetsFor? dialect).map Table.keys).getD []

/-- The library adds nothing. -/
def isEmpty (l : Library) : Bool :=
  l.bindings.isEmpty && l.snippets.isEmpty && l.profiles.isEmpty

/-- The snippets of each dialect in the order of the dialects' names. -/
def snippetsByName (l : Library) : List (String × Table String) :=
  l.snippets.mergeSort fun a b => decide (a.1 ≤ b.1)

end Library

end Emmet
