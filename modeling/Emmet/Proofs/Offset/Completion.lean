import Emmet.Proofs.Completion.Shape
import Emmet.Proofs.Offset.Extraction
import Emmet.Proofs.Offset.Promotion
import Emmet.Proofs.Offset.Rules
import Emmet.Proofs.Offset.Scanner

/-!
# Completions by offsets

Completions are computed once more with everything that cuts a text, subtracts offsets or adds
columns done by its checked form. Whatever an engine answers, the outcome is the same and there is
never anything wrong with an offset; only the columns of what is found have to be small enough.

* `Answers` : a search by offsets finds what an engine finds; `answers_find?` for the scan;
* `ColumnsFit` : what is found at the cursor can be counted in columns;
* `complete` : completions by offsets, with a search by offsets for the one of the engine;
* `complete_eq_ok` : they are the completions, and there is no fault.
-/

namespace Emmet.Checked

open Completion Text

/-! ### The search -/

/-- What finds the abbreviation that ends at an offset of a line. -/
abbrev Search := String → Nat → ScanOptions → Checked (Option Found)

/-- The search of the scan. -/
def find? : Search := fun line offset o => do
  return (← scan line.toList offset o).map fun p => ⟨String.ofList p.1, p.2⟩

/-- A search finds what an engine finds. -/
def Answers (find : Search) (engine : Engine) : Prop :=
  ∀ line offset o, find line offset o = .ok (engine.find line offset o)

theorem find?_eq (line : String) (offset : Nat) (o : ScanOptions) :
    find? line offset o = .ok (Abbreviation.find? line offset o) := by
  rw [find?, scan_eq]
  rfl

/-! ### Keys -/

/-- The candidate for a key; none if the key is not suggested or expands to nothing. -/
def suggest (engine : Engine) (q : Query) (options : ExpansionOptions) (key : String) :
    Checked (Option Candidate) := do
  match ← restOf? q key with
  | none => return none
  | some rest =>
    match engine.expand (q.abbreviation ++ rest) options with
    | .ok expansion =>
      if expansion = "" then return none
      else return some (← ofExpansion (q.typed ++ rest) expansion q.detail q.range q.kind)
    | .error _ => return none

/-- The candidates for all keys that go on from what is typed; none if nothing is typed. -/
def suggestions (engine : Engine) (keys : List String) (q : Query) (options : ExpansionOptions) :
    Checked (List Candidate) :=
  if q.typed = "" then return [] else keys.filterMapM (suggest engine q options)

theorem filterMapM_ok {α β : Type} {f : α → Checked (Option β)} {g : α → Option β}
    (h : ∀ a, f a = .ok (g a)) (as : List α) : as.filterMapM f = .ok (as.filterMap g) := by
  induction as with
  | nil => rfl
  | cons a as ih =>
    rw [List.filterMapM_cons, h, ih, List.filterMap_cons, ok_bind]
    cases g a <;> rfl

theorem suggest_eq (engine : Engine) (q : Query) (options : ExpansionOptions) (key : String) :
    suggest engine q options key = .ok (keyCandidate? engine q options key) := by
  rw [suggest, restOf?_eq, ok_bind, keyCandidate?]
  cases q.restOf? key with
  | none => rfl
  | some rest =>
    rw [Option.bind_some]
    simp only
    cases engine.expand (q.abbreviation ++ rest) options with
    | error e => rfl
    | ok expansion =>
      simp only [ofExpansion_eq, ok_bind]
      split <;> rfl

theorem suggestions_eq (engine : Engine) (keys : List String) (q : Query)
    (options : ExpansionOptions) :
    suggestions engine keys q options = .ok (keyCandidates engine keys q options) := by
  rw [suggestions, keyCandidates]
  split
  · rfl
  · exact filterMapM_ok (suggest_eq engine q options) keys

/-! ### The candidates of an abbreviation -/

section

variable (x : Context)

/-- The expansion to offer for an abbreviation. -/
def primary? (abbreviation : String) (keys : List String) : Checked (Option String) := do
  if !(← isValid x.dialect x.abbreviation) then return none
  match x.engine.expand abbreviation x.options with
  | .error _ => return none
  | .ok expansion =>
    let expansion := if x.isImportant abbreviation then "!important" else expansion
    if expansion = "" then return none
    if ← isNoise ⟨x.dialect, abbreviation, expansion, x.options.output, keys⟩ then return none
    return some expansion

/-- The candidate for the abbreviation itself, with the copies for vendors. -/
def stylesheetPrimary (lead expansion : String) : Checked Candidate := do
  let copies ← applyVendors expansion lead x.settings.preferences
  let primary ← ofExpansion (Template.plainText expansion) copies abbreviationDetail
    x.extraction.range .expansion
  return { primary with filterText := some x.abbreviation }

/-- The candidates of a style sheet. -/
def stylesheet : Checked (Option (List Candidate)) := do
  let (lead, rest) ← splitVendors x.abbreviation.toList
  let lead := String.ofList lead
  let short := String.ofList rest
  let expansion ← primary? x short []
  if x.tuning.propertyLength < rest.length && Property.isStart short then return none
  let items ← suggestions x.engine (x.library.stylesheetKeys x.dialect)
    (x.query x.abbreviation snippetDetail .snippet false) x.options
  match expansion with
  | none => return some items
  | some expansion =>
    let primary ← stylesheetPrimary x lead expansion
    let isNew := !items.any fun i => i.template == primary.template
    if isNew && x.isPlausible primary.label short then return some (items ++ [primary])
    else return some items

/-- The candidate for the abbreviation itself, in markup. -/
def markupPrimary : Checked (Option Candidate) := do
  match ← primary? x x.abbreviation x.knownKeys with
  | some expansion =>
    return some (← ofExpansion x.labelWithFilters expansion abbreviationDetail x.extraction.range
      .expansion)
  | none => return none

/-- The tags that go on from the typed tag. -/
def tags : Checked (List Candidate) :=
  if x.dialect = "xml" then return []
  else suggestions x.engine Tag.common (x.query x.tag abbreviationDetail .expansion true) x.options

/-- The snippets that go on from the typed tag. -/
def snippets : Checked (List Candidate) :=
  if x.settings.suggestions then
    suggestions x.engine (x.knownKeys.filter fun k => !Tag.isCommon k)
      (x.query x.tag abbreviationDetail .snippet true) x.options
  else return []

/-- The candidates of markup. -/
def markup : Checked (List Candidate) := do
  return x.arrange (← markupPrimary x) (← tags x) (← snippets x)

/-- What is offered for an abbreviation. -/
def offersFor : Checked (Option Offers) := do
  match Dialect.family x.dialect with
  | .stylesheet =>
    match ← stylesheet x with
    | some items => return offers? x.settings items
    | none => return some ⟨[], true⟩
  | .markup => return offers? x.settings (← markup x)

theorem primary?_eq (abbreviation : String) (keys : List String) :
    primary? x abbreviation keys = .ok (x.primary? abbreviation keys).value := by
  simp only [primary?, isValid_eq, ok_bind, isNoise_eq, Context.primary?, pure_eq_ok]
  split
  · rfl
  · simp only [Traced.value_bind, value_ask]
    cases x.engine.expand abbreviation x.options with
    | error e => rfl
    | ok expansion =>
      -- an empty expansion is not asked for noise
      simp only
      generalize (if x.isImportant abbreviation = true then "!important" else expansion) = shown
      by_cases hempty : shown = ""
      · rw [if_pos hempty, if_pos (Or.inl hempty)]
        rfl
      · rw [if_neg hempty]
        simp only [hempty, false_or]
        rw [apply_ite Traced.value, apply_ite Except.ok]
        rfl

theorem stylesheetPrimary_eq (lead expansion : String) :
    stylesheetPrimary x lead expansion = .ok (x.stylesheetPrimary lead expansion) := by
  rw [stylesheetPrimary, applyVendors_eq, ok_bind, ofExpansion_eq]
  rfl

theorem stylesheet_eq : stylesheet x = .ok x.stylesheet.value := by
  have hsuggestions (keys : List String) (q : Query) :
      suggestions x.engine keys q x.options = .ok (x.suggestions keys q).value := by
    rw [suggestions_eq, Context.suggestions, value_suggestions]
  simp only [stylesheet, splitVendors_eq, ok_bind, primary?_eq, hsuggestions,
    stylesheetPrimary_eq, pure_eq_ok, Context.stylesheet, Traced.value_bind]
  split
  · rfl
  · simp only [Traced.value_bind]
    cases (x.primary? (String.ofList (Vendor.split x.abbreviation.toList).2) []).value with
    | none => rfl
    | some expansion =>
      simp only
      split <;> rfl

theorem markupPrimary_eq : markupPrimary x = .ok x.primaryCandidate? := by
  rw [markupPrimary, primary?_eq, ok_bind, Context.primaryCandidate?]
  cases (x.primary? x.abbreviation x.knownKeys).value with
  | none => rfl
  | some expansion =>
    simp only [ofExpansion_eq]
    rfl

theorem tags_eq : tags x = .ok x.tagCandidates := by
  rw [tags, Context.tagCandidates, suggestions_eq, apply_ite Except.ok]
  rfl

theorem snippets_eq : snippets x = .ok x.snippetCandidates := by
  rw [snippets, Context.snippetCandidates, suggestions_eq, apply_ite Except.ok]
  rfl

theorem markup_eq : markup x = .ok x.markup.value := by
  rw [markup, markupPrimary_eq, tags_eq, snippets_eq, x.value_markup]
  rfl

theorem offersFor_eq : offersFor x = .ok (Completion.offersFor x).value := by
  unfold offersFor Completion.offersFor
  cases Dialect.family x.dialect with
  | markup =>
    simp only [markup_eq, ok_bind]
    rfl
  | stylesheet =>
    simp only [stylesheet_eq, ok_bind, Traced.value_bind]
    cases x.stylesheet.value <;> rfl

end

/-! ### What is offered at a cursor -/

section

variable (find : Search) (engine : Engine)

/-- What is offered at a column of a line. -/
def completeLine (line : String) (position : Position) (dialect : String) (settings : Settings)
    (library : Library) (tuning : Tuning) : Checked (Option Offers) := do
  let family := Dialect.family dialect
  match ← extract find line position (.forFamily family) tuning.maxFilters with
  | none => return none
  | some e =>
    if family = .markup then
      let left ← slice line.toList 0 (offsetOf utf8 line.toList position.column)
      if isOpenTag left e.abbreviation.toList then return none
    let options := (ExpansionOptions.resolve dialect settings (Filter.joined? e.filters)
      library).value
    offersFor ⟨engine, dialect, e, options, settings, library, tuning⟩

/-- What is offered at a position of a document in a language. -/
def complete (document : Document) (position : Position) (language : String) (settings : Settings)
    (library : Library) (tuning : Tuning) : Checked (Option Offers) :=
  if settings.offer = .never then return none
  else match Dialect.ofLanguage? language settings.excluded, document.line? position.line with
    | some dialect, some line =>
      completeLine find engine line position dialect settings library tuning
    | _, _ => return none

end

/-- What an engine finds at a position of a document can be counted in columns. -/
def ColumnsFit (engine : Engine) (document : Document) (position : Position) (language : String)
    (settings : Settings) (tuning : Tuning) : Prop :=
  ∀ dialect line e, Dialect.ofLanguage? language settings.excluded = some dialect →
    document.line? position.line = some line →
    (Extraction.ofLine engine.find line position (.forFamily (Dialect.family dialect))
      tuning.maxFilters).value = some e →
    Fits line e

section

variable {find : Search} {engine : Engine} {document : Document} {position : Position}
  {language : String} {settings : Settings} {library : Library} {tuning : Tuning}

theorem completeLine_eq {line dialect : String} (hfind : Answers find engine)
    (hfits : ∀ e, (Extraction.ofLine engine.find line position
      (.forFamily (Dialect.family dialect)) tuning.maxFilters).value = some e → Fits line e) :
    completeLine find engine line position dialect settings library tuning =
      .ok (Completion.completeLine engine line position dialect settings library tuning).value := by
  have hleft : slice line.toList 0 (offsetOf utf8 line.toList position.column) =
      .ok (line.toList.take position.column) :=
    slice_front (List.take_append_drop position.column line.toList).symm
  rw [completeLine, extract_eq (fun offset => hfind line offset _) hfits, ok_bind,
    Completion.completeLine, Traced.value_bind, value_reporting]
  cases (Extraction.ofLine engine.find line position (.forFamily (Dialect.family dialect))
    tuning.maxFilters).value with
  | none => rfl
  | some e =>
    simp only [hleft, ok_bind]
    by_cases hfamily : Dialect.family dialect = .markup
    · simp only [hfamily, if_true, true_and]
      split
      · rfl
      · exact offersFor_eq _
    · simp only [hfamily, if_false, false_and]
      exact offersFor_eq _

/-- **Completion never faults.** With any engine, and any search by offsets that finds what the
engine finds, completions by offsets are the completions: each text is cut where characters start,
and no difference of offsets is below zero. The search may be the scan, which never faults. -/
theorem complete_eq_ok (hfind : Answers find engine)
    (hfits : ColumnsFit engine document position language settings tuning) :
    (∀ line offset o, find? line offset o = .ok (Abbreviation.find? line offset o)) ∧
    complete find engine document position language settings library tuning =
      .ok (Completion.complete engine document position language settings library
        tuning).value := by
  refine ⟨find?_eq, ?_⟩
  rw [complete, Completion.complete]
  split
  · rfl
  · cases hdialect : Dialect.ofLanguage? language settings.excluded with
    | none => rfl
    | some dialect =>
      cases hline : document.line? position.line with
      | none => rfl
      | some line => exact completeLine_eq hfind fun e => hfits dialect line e hdialect hline

end

/-- An engine for lists that finds abbreviations by the scan. -/
def listOnly : Engine :=
  Lookup.engine { expansions := [("ul>li", some "<ul><li>$\x7b1\x7d</li></ul>")] }

theorem extraction_listOnly :
    (Extraction.ofLine listOnly.find "für ul>li|bem" ⟨0, 13⟩ (.forFamily (Dialect.family "html"))
      Filter.defaultLimit).value = some ⟨"ul>li", .onLine 0 4 13, [.bem]⟩ := by
  decide +kernel

theorem shown_listOnly :
    allShown (Completion.complete listOnly (.text "für ul>li|bem") ⟨0, 13⟩ "html" {} {} {}).value =
      [("ul>li|bem", "<ul><li>$\x7b0\x7d</li></ul>")] := by
  decide +kernel

/-- The offsets of a line with a character of two bytes: the scan starts behind it. -/
theorem complete_eq_ok_listOnly :
    Answers find? listOnly ∧ ColumnsFit listOnly (.text "für ul>li|bem") ⟨0, 13⟩ "html" {} {} ∧
    ∃ offers, complete find? listOnly (.text "für ul>li|bem") ⟨0, 13⟩ "html" {} {} {} =
        .ok offers ∧
      allShown offers = [("ul>li|bem", "<ul><li>$\x7b0\x7d</li></ul>")] := by
  have hfind : Answers find? listOnly := find?_eq
  have hfits : ColumnsFit listOnly (.text "für ul>li|bem") ⟨0, 13⟩ "html" {} {} := by
    intro dialect line e hdialect hline he
    obtain rfl := Option.some.inj ((show Dialect.ofLanguage? "html" [] = some "html" by
      decide).symm.trans hdialect)
    obtain rfl : "für ul>li|bem" = line := Option.some.inj ((show Document.line?
      (.text "für ul>li|bem") 0 = some "für ul>li|bem" by decide +kernel).symm.trans hline)
    obtain rfl := Option.some.inj (extraction_listOnly.symm.trans he)
    decide +kernel
  exact ⟨hfind, hfits, _, (complete_eq_ok hfind hfits).2, shown_listOnly⟩

end Emmet.Checked
