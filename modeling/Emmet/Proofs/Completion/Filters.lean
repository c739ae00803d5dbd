import Emmet.Engine.Lookup
import Emmet.Proofs.Abbreviation.Filters
import Emmet.Proofs.Completion.Events
import Emmet.Proofs.Expansion.Profile

/-!
# Filters reach the engine

A filter is wanted where it is typed behind the abbreviation, or where the profile of the dialect
lists it. On its way to an engine it is peeled off the line, written into a comma list, read again
and put together with the filters of a profile whose entries are renamed.

* `Profile.Lists` : a profile, as it is written, lists a filter;
* `mem_profileFilters_iff` : these are the filters of the profile that is resolved;
* `enabled_iff_wanted` : an engine is asked for class names in blocks, and for comments, just where
  the filter is wanted.
-/

namespace Emmet

namespace Profile

/-- The profile of a dialect as it is written: the one in the settings, else the one in the
library. -/
def written? (dialect : String) (settings library : Table Json) : Option Json :=
  (Table.find? settings dialect).or (Table.find? library dialect)

/-- A profile lists a filter: the code is a field of the comma list under `filters`, blanks around
it not counted. -/
def Lists (profile : Json) (f : Filter) : Prop :=
  ∃ entries codes, profile.object? = some entries ∧
    Table.find? (Table.ofEntries entries) "filters" = some (.string codes) ∧
    ∃ field ∈ codes.toList.splitOn ',', Text.trim field = f.code.toList

theorem value_resolve (dialect : String) (settings library : Table Json) :
    (resolve dialect settings library).value =
      (written? dialect settings library).elim [] fun profile => (modernize profile).value := by
  unfold resolve written?
  cases Table.find? settings dialect with
  | some profile => rfl
  | none =>
    rw [Option.none_or]
    cases Table.find? library dialect with
    | some profile => rfl
    | none => rfl

/-- Giving a profile the current names leaves its filters as they are. -/
theorem find?_modernize (profile : Json) :
    Table.find? (modernize profile).value "filters" =
      profile.object?.bind fun entries => Table.find? (Table.ofEntries entries) "filters" := by
  cases profile with
  | object entries => exact find?_ofEntries_currentEntry (by decide) entries
  | string s =>
    by_cases hs : s = "xhtml"
    · rw [hs]
      rfl
    · rw [show modernize (.string s) = _ from if_neg hs]
      rfl
  | null => rfl
  | bool b => rfl
  | integer n => rfl
  | float x => rfl
  | array items => rfl

theorem mem_profileFilters_modernize_iff {profile : Json} {f : Filter} :
    f ∈ ExpansionOptions.profileFilters (modernize profile).value ↔ Lists profile f := by
  unfold ExpansionOptions.profileFilters Lists
  rw [find?_modernize]
  split
  · next codes hcodes =>
    obtain ⟨entries, hentries, hlisted⟩ := Option.bind_eq_some_iff.1 hcodes
    rw [Filter.mem_ofCodes_iff, hentries]
    constructor
    · intro hfield
      exact ⟨entries, codes, rfl, hlisted, hfield⟩
    · rintro ⟨_, _, ⟨⟩, hcodes', hfield⟩
      rw [hlisted] at hcodes'
      obtain rfl := Json.string.inj (Option.some.inj hcodes')
      exact hfield
  · next hnone =>
    refine iff_of_false List.not_mem_nil ?_
    rintro ⟨entries, codes, hentries, hlisted, -⟩
    refine hnone codes ?_
    rw [hentries]
    exact hlisted

/-- The filters of the resolved profile are those that the written profile lists. -/
theorem mem_profileFilters_iff {dialect : String} {settings library : Table Json} {f : Filter} :
    f ∈ ExpansionOptions.profileFilters (resolve dialect settings library).value ↔
      ∃ profile, written? dialect settings library = some profile ∧ Lists profile f := by
  rw [value_resolve]
  cases written? dialect settings library with
  | none => exact iff_of_false List.not_mem_nil (by simp)
  | some profile => simp [mem_profileFilters_modernize_iff]

end Profile

/-- The filters of a dialect are those that are given and those of its profile. -/
theorem ExpansionOptions.values_resolve (dialect : String) (settings : Settings)
    (filters : List Filter) (library : Library) :
    let profile := (Profile.resolve dialect settings.profiles library.profiles).value
    (resolve dialect settings (Filter.joined? filters) library).value.output.values =
      outputValues dialect settings.preferences profile (filters ++ profileFilters profile) := by
  intro profile
  have hgiven := Filter.ofCodes_joined? filters
  change outputValues _ _ profile
    (((Filter.joined? filters).map Filter.ofCodes).getD [] ++ profileFilters profile) = _
  rw [hgiven]

namespace Completion

variable {engine : Engine} {document : Document} {position : Position} {language : String}
  {settings : Settings} {library : Library} {tuning : Tuning}

/-- A filter is wanted at a column of a line: it is typed left of it, or the profile of the dialect
lists it. -/
def IsWanted (dialect line : String) (column : Nat) (settings : Settings) (library : Library)
    (tuning : Tuning) (f : Filter) : Prop :=
  Filter.IsTyped tuning.maxFilters (line.toList.take column) f ∨
    ∃ profile, Profile.written? dialect settings.profiles library.profiles = some profile ∧
      Profile.Lists profile f

theorem filters_of_ofChars {find : Nat → Option Found} {line : List Char} {maxFilters : Nat}
    {e : Extraction} (h : Extraction.ofChars find line position maxFilters = some e) :
    e.filters = (Filter.peel maxFilters (line.take position.column)).2 := by
  unfold Extraction.ofChars at h
  obtain ⟨found, -, rfl⟩ := Option.map_eq_some_iff.1 h
  rfl

/-- **Filters reach the engine.** Whatever the engine is asked to expand, it is asked with class
names in blocks on just if that filter is wanted, and with comments on just if that one is: it is
typed directly left of the cursor, within the limit, or the profile of the dialect lists it. A
profile in the settings replaces the one in the library. -/
theorem enabled_iff_wanted {abbreviation : String} {options : ExpansionOptions}
    (h : .expand abbreviation options ∈
      (complete engine document position language settings library tuning).events) :
    ∃ dialect line, Dialect.ofLanguage? language settings.excluded = some dialect ∧
      document.line? position.line = some line ∧
      (∃ b, options.output.find? "bem.enabled" = some (.bool b) ∧
        (b = true ↔ IsWanted dialect line position.column settings library tuning .bem)) ∧
      (∃ b, options.output.find? "comment.enabled" = some (.bool b) ∧
        (b = true ↔ IsWanted dialect line position.column settings library tuning .comment)) := by
  have hquestion : ∀ n, Event.expand abbreviation options = .notice n → SaysInvalid n := nofun
  obtain ⟨x, hx, hasked⟩ := (mem_events_complete_iff hquestion).1 h
  obtain rfl := x.options_of_mem_events hasked
  obtain ⟨line, hdialect, hline, hfound, hoptions, -⟩ := of_contextAt? hx
  have hvalues := ExpansionOptions.values_resolve x.dialect settings x.extraction.filters library
  rw [← hoptions] at hvalues
  simp only at hvalues
  -- the filters are those that were peeled off and those of the profile
  generalize hfilters : x.extraction.filters ++ ExpansionOptions.profileFilters
    (Profile.resolve x.dialect settings.profiles library.profiles).value = filters at hvalues
  have hwanted (f : Filter) : filters.contains f = true ↔
      IsWanted x.dialect line position.column settings library tuning f := by
    rw [List.contains_iff_mem, ← hfilters, List.mem_append, filters_of_ofChars hfound,
      Filter.mem_peel_iff, Profile.mem_profileFilters_iff]
    rfl
  refine ⟨x.dialect, line, hdialect, hline, ⟨filters.contains .bem, ?_, hwanted .bem⟩,
    ⟨filters.contains .comment, ?_, hwanted .comment⟩⟩
  · rw [Output.find?, hvalues]
    rfl
  · rw [Output.find?, hvalues]
    rfl

/-- The abbreviation that an engine is asked to expand. -/
def question? : Event → Option String
  | .expand abbreviation _ => some abbreviation
  | .notice _ => none

theorem exists_expand {abbreviation : String} {events : List Event}
    (h : abbreviation ∈ events.filterMap question?) :
    ∃ options, Event.expand abbreviation options ∈ events := by
  obtain ⟨e, he, hquestion⟩ := List.mem_filterMap.1 h
  cases e with
  | notice n => cases hquestion
  | expand a options =>
    obtain rfl := Option.some.inj hquestion
    exact ⟨options, he⟩

/-- Class names in blocks are typed. Comments are listed in the library only, whose profile gives
way to an empty one. -/
theorem enabled_iff_wanted_list : ∃ options,
    .expand "ul" options ∈ (complete (Lookup.engine {}) (.text "ul|bem") ⟨0, 6⟩ "html"
      { profiles := [("html", .object [])] }
      { profiles := [("html", .object [("filters", .string "c")])] } {}).events ∧
    options.output.find? "bem.enabled" = some (.bool true) ∧
    options.output.find? "comment.enabled" = some (.bool false) := by
  have hasked : "ul" ∈ ((complete (Lookup.engine {}) (.text "ul|bem") ⟨0, 6⟩ "html"
      { profiles := [("html", .object [])] }
      { profiles := [("html", .object [("filters", .string "c")])] } {}).events.filterMap
        question?) := by decide +kernel
  obtain ⟨options, h⟩ := exists_expand hasked
  obtain ⟨dialect, line, hdialect, hline, ⟨b, hb, hbem⟩, ⟨c, hc, hcomment⟩⟩ := enabled_iff_wanted h
  obtain rfl : "html" = dialect := Option.some.inj hdialect
  obtain rfl : "ul|bem" = line := Option.some.inj hline
  have htyped : b = true := hbem.2 (.inl ⟨"ul".toList, [], by decide, by decide⟩)
  have hneither : ¬ c = true := by
    rw [hcomment]
    rintro (htyped | ⟨profile, hprofile, hlists⟩)
    · rw [← Filter.mem_peel_iff] at htyped
      exact absurd htyped (by decide)
    · obtain rfl := Option.some.inj hprofile
      obtain ⟨entries, codes, hentries, hlisted, -⟩ := hlists
      obtain rfl := Option.some.inj hentries
      cases hlisted
  rw [htyped] at hb
  rw [Bool.not_eq_true] at hneither
  rw [hneither] at hc
  exact ⟨options, h, hb, hc⟩

end Completion

end Emmet
