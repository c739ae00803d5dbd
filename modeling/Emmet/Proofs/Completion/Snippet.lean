import Emmet.Engine.Lookup
import Emmet.Proofs.Abbreviation.Word
import Emmet.Proofs.Completion.Shape

/-!
# A snippet of the user that is typed in full

A user who types the key of a snippet in full wants this snippet, whatever else goes on from the
key. This file shows that nothing on the way takes it away.

* `isNoise_of_known` : a known key is no noise, even if its expansion only repeats it;
* `Context.exists_first` : without a colon nothing is dropped before the abbreviation itself, so it
  is offered first;
* `snippet_offered` : a key that is a word, behind a blank or at the start of a line, is offered
  first.
-/

namespace Emmet.Completion

open Abbreviation (IsWord EndsInWord)

/-- A word behind a blank is no tag whose opening bracket is typed. -/
theorem isOpenTag_eq_false {line front word : List Char} (h : EndsInWord line front word) :
    isOpenTag line word = false := by
  unfold isOpenTag
  cases htyped : ('<' :: word).isSuffixOf line with
  | false => exact Bool.and_false _
  | true =>
    obtain ⟨rest, hrest⟩ := List.isSuffixOf_iff_suffix.1 htyped
    have hline := h.eq_append.symm.trans hrest.symm
    rw [List.append_cons rest] at hline
    obtain rfl := List.append_cancel_right hline
    have hblank := h.isBlank '<' List.getLast?_concat
    cases hblank

/-- The rules of markup keep a known key; only in XML a rule is asked before. -/
theorem isNoise_of_known {s : Noise.Subject} (hfamily : Dialect.family s.dialect = .markup)
    (hxml : s.dialect ≠ "xml") (hkey : s.abbreviation ∈ s.keys) : Noise.isNoise s = false := by
  have htag : Noise.xmlTag.check s = none := if_neg fun h => hxml h.1
  have hknown : Noise.knownName.check s = some false := by
    refine if_pos ?_
    rw [List.contains_iff_mem.2 hkey, Bool.or_true]
  unfold Noise.isNoise Noise.decideBy
  rw [hfamily, Noise.rules, List.findSome?_cons, htag, Option.map_none, List.findSome?_cons, hknown]
  rfl

/-- What stands first is offered first, whatever it is called then. -/
theorem exists_offers?_cons (settings : Settings) (c : Candidate) (items : List Candidate) :
    ∃ offers first rest, offers? settings (c :: items) = some offers ∧
      offers.items = first :: rest ∧ core first = core c := by
  unfold offers?
  split
  · exact ⟨_, _, _, rfl, rfl, rfl⟩
  · exact ⟨_, _, _, rfl, rfl, rfl⟩

namespace Context

variable {x : Context}

/-- An abbreviation without a colon that has an expansion is offered first. -/
theorem exists_first (hfamily : Dialect.family x.dialect = .markup)
    (hcolon : ':' ∉ x.abbreviation.toList) {c : Candidate} (hc : x.primaryCandidate? = some c) :
    ∃ offers first rest, (offersFor x).value = some offers ∧ offers.items = first :: rest ∧
      core first = core c := by
  obtain ⟨primary, items, hvalue, -, hitems⟩ := x.exists_arranged
  have hkept : x.withoutEcho primary items = items := by
    unfold withoutEcho
    split
    · exact if_neg fun h => hcolon h.2.2.1
    · rfl
  rw [markupSequence, hc, Option.toList_some, List.append_assoc, List.map_append] at hitems
  obtain ⟨head, tail, rfl, hhead, -⟩ := List.map_eq_cons_iff.1 hitems
  obtain ⟨offers, first, rest, hoffers, hfirst, hcore⟩ := exists_offers?_cons x.settings head tail
  refine ⟨offers, first, rest, ?_, hfirst, hcore.trans hhead⟩
  unfold offersFor
  rw [hfamily, Traced.value_bind, hvalue, hkept]
  exact hoffers

/-- A known key that expands to something is the candidate for the abbreviation itself. -/
theorem primaryCandidate?_of_known (hfamily : Dialect.family x.dialect = .markup)
    (hxml : x.dialect ≠ "xml") (hword : IsWord x.abbreviation.toList)
    (hkey : x.abbreviation ∈ x.library.snippetKeys x.dialect) {expansion : String}
    (hexpand : x.engine.expand x.abbreviation x.options = .ok expansion) (hne : expansion ≠ "") :
    x.primaryCandidate? = some (.ofExpansion x.labelWithFilters expansion abbreviationDetail
      x.extraction.range .expansion) := by
  have hvalid := hword.isValid hfamily
  rw [String.ofList_toList] at hvalid
  have hknown : x.abbreviation ∈ x.knownKeys :=
    List.mem_eraseDups.2 (List.mem_append_right _ hkey)
  have himportant : x.isImportant x.abbreviation = false := by
    have hsheet : Dialect.isStylesheet x.dialect = false := by
      rw [← Bool.not_eq_true, ← Dialect.family_eq_stylesheet_iff, hfamily]
      exact nofun
    rw [isImportant, hsheet, Bool.false_and]
  have hnoise : Noise.isNoise ⟨x.dialect, x.abbreviation, expansion, x.options.output,
      x.knownKeys⟩ = false := isNoise_of_known hfamily hxml hknown
  have hworthwhile : x.worthwhile? x.abbreviation x.knownKeys expansion = some expansion := by
    simp [worthwhile?, himportant, hnoise, hne]
  rw [primaryCandidate?, value_primary?, if_pos hvalid, hexpand]
  exact congrArg _ hworthwhile

end Context

variable {engine : Engine} {document : Document} {position : Position} {language dialect : String}
  {settings : Settings} {library : Library} {tuning : Tuning} {front key expansion : String}

/-- Behind a line that ends in a word, this word is completed, without filters. -/
theorem contextAt?_of_endsInWord {line : String} {before word : List Char}
    (hfind : engine.find = Abbreviation.find?) (hoffer : settings.offer ≠ .never)
    (hdialect : Dialect.ofLanguage? language settings.excluded = some dialect)
    (hline : document.line? position.line = some line)
    (hcolumn : line.toList.length ≤ position.column)
    (hends : EndsInWord line.toList before word) :
    contextAt? engine document position language settings library tuning =
      some ⟨engine, dialect,
        ⟨String.ofList word,
          Range.onLine position.line before.length (before.length + word.length), []⟩,
        (ExpansionOptions.resolve dialect settings none library).value, settings, library,
        tuning⟩ := by
  have hfound := hends.ofChars_eq hcolumn (.forFamily (Dialect.family dialect)) tuning.maxFilters
  rw [String.ofList_toList] at hfound
  unfold contextAt?
  rw [if_neg hoffer, hdialect, hline, hfind]
  simp only [Option.bind_eq_bind, Option.bind_some, Extraction.value_ofLine, hfound,
    List.take_of_length_le hcolumn, String.toList_ofList, isOpenTag_eq_false hends]
  exact if_neg fun h => Bool.false_ne_true h.2

/-- **A snippet of the user that is typed in full is offered.** The key of a snippet for a markup
dialect, a letter with letters and digits behind it, stands at the end of a line behind a blank or
nothing. If it expands to something, this is offered first, under the key and in its place; in XML
it may be hidden by the elements of HTML. -/
theorem snippet_offered (hfind : engine.find = Abbreviation.find?)
    (hoffer : settings.offer ≠ .never)
    (hdialect : Dialect.ofLanguage? language settings.excluded = some dialect)
    (hfamily : Dialect.family dialect = .markup) (hxml : dialect ≠ "xml")
    (hword : IsWord key.toList) (hkey : key ∈ library.snippetKeys dialect)
    (hfront : ∀ c ∈ front.toList.getLast?, Text.isAsciiBlank c = true)
    (hline : document.line? position.line = some (front ++ key))
    (hcolumn : (front ++ key).toList.length ≤ position.column)
    (hexpand : engine.expand key (ExpansionOptions.resolve dialect settings none library).value =
      .ok expansion)
    (hne : expansion ≠ "") :
    ∃ offers first rest,
      (complete engine document position language settings library tuning).value = some offers ∧
      offers.items = first :: rest ∧ first.label = key ∧
      first.template = Template.escapeDollars (Template.promote expansion) ∧
      first.range = Range.onLine position.line front.toList.length
        (front.toList.length + key.toList.length) := by
  have hends : EndsInWord (front ++ key).toList front.toList key.toList :=
    ⟨String.toList_append, hword, hfront⟩
  let x : Context := ⟨engine, dialect,
    ⟨key, Range.onLine position.line front.toList.length
      (front.toList.length + key.toList.length), []⟩,
    (ExpansionOptions.resolve dialect settings none library).value, settings, library, tuning⟩
  have hcontext : contextAt? engine document position language settings library tuning =
      some x := by
    rw [contextAt?_of_endsInWord hfind hoffer hdialect hline hcolumn hends, String.ofList_toList]
  have hprimary := Context.primaryCandidate?_of_known (x := x) hfamily hxml hword hkey hexpand hne
  have hlabel : x.labelWithFilters = key := String.append_empty
  rw [hlabel] at hprimary
  obtain ⟨offers, first, rest, hoffers, hfirst, hcore⟩ :=
    Context.exists_first (x := x) hfamily (hword.not_mem rfl) hprimary
  refine ⟨offers, first, rest, ?_, hfirst, ?_, ?_, ?_⟩
  · rw [value_complete, hcontext]
    exact hoffers
  · have hsame := congrArg Candidate.label hcore
    exact hsame
  · have hsame := congrArg Candidate.template hcore
    exact hsame
  · have hsame := congrArg Candidate.range hcore
    exact hsame

/-- Snippets of HTML, and one for JSX. -/
def cardDocument : Json := .object [
  ("html", .object [("snippets", .object [("card", .string "card")])]),
  ("jsx", .object [("snippets", .object [("nav", .string "Nav")])])]

/-- An engine that only repeats the key of the snippet. -/
def repeatedCard : Engine :=
  Lookup.engine { expansions := [("card", some "<card>$\x7b1\x7d</card>")] }

/-- The snippet comes from HTML, and its expansion would be noise if the key were not known. -/
theorem snippet_offered_card : ∃ library,
    (Library.ofDocuments cardDocument none).value = .ok library ∧
    "card" ∈ library.snippetKeys "jsx" ∧ ∃ offers first rest,
      (complete repeatedCard (.text "für card") ⟨0, 8⟩ "javascriptreact" {} library {}).value =
        some offers ∧
      offers.items = first :: rest ∧ first.label = "card" ∧
      first.template = "<card>$\x7b0\x7d</card>" ∧ first.range = Range.onLine 0 4 8 := by
  obtain ⟨library, hlibrary, hkey⟩ : ∃ library,
      (Library.ofDocuments cardDocument none).value = .ok library ∧
      "card" ∈ library.snippetKeys "jsx" := ⟨_, rfl, by decide⟩
  have hword : IsWord "card".toList := ⟨⟨'c', rfl, rfl⟩, List.all_eq_true.1 rfl⟩
  have hfront : ∀ c ∈ "für ".toList.getLast?, Text.isAsciiBlank c = true := by
    intro c hc
    obtain rfl := Option.some.inj hc
    rfl
  obtain ⟨offers, first, rest, hvalue, hfirst, hlabel, htemplate, hrange⟩ :=
    @snippet_offered repeatedCard (.text "für card") ⟨0, 8⟩ "javascriptreact" "jsx" {} library {}
      "für " "card" "<card>$\x7b1\x7d</card>" rfl nofun rfl rfl (by decide) hword hkey hfront
      (by decide) (by decide) rfl (by decide)
  have hfinal : Template.escapeDollars (Template.promote "<card>$\x7b1\x7d</card>") =
      "<card>$\x7b0\x7d</card>" := by decide +kernel
  exact ⟨library, hlibrary, hkey, offers, first, rest, hvalue, hfirst, hlabel,
    htemplate.trans hfinal, hrange⟩

end Emmet.Completion
