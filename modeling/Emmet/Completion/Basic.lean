import Emmet.Completion.Assembly

/-!
# Completions at a cursor

`complete` computes what is offered at a position of a document: it finds the dialect of the
language and the abbreviation at the cursor, resolves the options and puts the candidates together.
No two candidates insert the same template.
-/

namespace Emmet.Completion

/-- A character of the word that a tag is typed with. -/
def isOpenTagChar (c : Char) : Bool := Text.isWord c || [',', ':', '.', '-'].contains c

/-- The abbreviation is the name of a tag whose opening bracket is typed. -/
def isOpenTag (left : List Char) (abbreviation : List Char) : Bool :=
  (left.reverse.takeWhile isOpenTagChar).reverse == abbreviation &&
    ('<' :: abbreviation).isSuffixOf left

/-- Keeps the first of the candidates with one template. -/
def distinctTemplates : List String → List Candidate → List Candidate
  | _, [] => []
  | seen, c :: cs =>
    if c.template ∈ seen then distinctTemplates seen cs
    else c :: distinctTemplates (c.template :: seen) cs

/-- The candidates as they are offered: called snippets if the settings say so, and without
repetitions. There is nothing to offer without candidates. -/
def offers? (settings : Settings) (items : List Candidate) : Option Offers :=
  let items := if settings.asSnippets then
      items.map fun i => { i with kind := .snippet }
    else items
  match distinctTemplates [] items with
  | [] => none
  | items => some ⟨items, true⟩

/-- What is offered for an abbreviation. -/
def offersFor (x : Context) : Asking (Option Offers) := do
  match Dialect.family x.dialect with
  | .stylesheet =>
    match ← x.stylesheet with
    | some items => return offers? x.settings items
    | none => return some ⟨[], true⟩
  | .markup => return offers? x.settings (← x.markup)

/-- What is offered at a column of a line. -/
def completeLine (engine : Engine) (line : String) (position : Position) (dialect : String)
    (settings : Settings) (library : Library) (tuning : Tuning) : Asking (Option Offers) := do
  let family := Dialect.family dialect
  let found ← reporting
    (Extraction.ofLine engine.find line position (.forFamily family) tuning.maxFilters)
  match found with
  | none =>
    report (.skipped "" .noAbbreviation)
    return none
  | some e =>
    if family = .markup ∧
        isOpenTag (line.toList.take position.column) e.abbreviation.toList = true then
      report (.skipped e.abbreviation .openTag)
      return none
    let options ← reporting
      (ExpansionOptions.resolve dialect settings (Filter.joined? e.filters) library)
    offersFor ⟨engine, dialect, e, options, settings, library, tuning⟩

/-- What is offered at a position of a document in a language. -/
def complete (engine : Engine) (document : Document) (position : Position) (language : String)
    (settings : Settings) (library : Library) (tuning : Tuning) : Asking (Option Offers) :=
  if settings.offer = .never then pure none
  else match Dialect.ofLanguage? language settings.excluded, document.line? position.line with
    | some dialect, some line =>
      completeLine engine line position dialect settings library tuning
    | _, _ => pure none

end Emmet.Completion
