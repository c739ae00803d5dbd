import Emmet.Proofs.Expansion.Resolved

/-!
# Profiles before preferences

Some output options can be set by the profile of the dialect and by a preference, too. The profile
is about one dialect and the preference about all of them, so the profile should count first. This
file says which of the two does.

* `Shared` : the options that have two sources, with their three names;
* `find?_shared` : the value of such an option is that of its first source that has one;
* `find?_shared_profile` : where the profile has a value, it is used for the boolean attributes and
  for the closing of elements, whatever is preferred. The break between inline elements is that of
  the preference, if there is one.

The last one is out of line with the others (`inlineBreak_preferred`).
-/

namespace Emmet.ExpansionOptions

/-! ### Choosing values -/

variable {value default : Json}

theorem firstOf_cons_some (h : value.isNull = false) (rest : List (Option Json)) :
    firstOf (some value :: rest) default = value := by
  have hsome : id (some value) = some value := rfl
  rw [firstOf, List.filterMap_cons_some hsome, List.find?_cons_of_pos (by simp [h]),
    Option.getD_some]

theorem firstOf_cons_none (rest : List (Option Json)) :
    firstOf (none :: rest) default = firstOf rest default := by
  have hnone : id (none : Option Json) = none := rfl
  rw [firstOf, List.filterMap_cons_none hnone, firstOf]

/-- A preference is never `null`, so it is taken if it is there. -/
theorem firstOf_cons_preference? (preferences : Table Json) (key : String)
    (rest : List (Option Json)) : firstOf (preference? preferences key :: rest) default =
      (preference? preferences key).getD (firstOf rest default) := by
  cases hvalue : preference? preferences key with
  | none => rw [firstOf_cons_none, Option.getD_none]
  | some v => rw [firstOf_cons_some (isNull_of_preference? hvalue), Option.getD_some]

/-! ### Options with two sources -/

/-- An output option that a profile and a preference can set. -/
inductive Shared where
  /-- From how many inline elements on there is a line break between them. -/
  | inlineBreak
  /-- Whether boolean attributes are written without a value. -/
  | compactBoolean
  /-- How elements without content are closed. -/
  | closingStyle
  deriving DecidableEq, Repr

namespace Shared

/-- The name of the output option. -/
def output : Shared → String
  | inlineBreak => "output.inlineBreak"
  | compactBoolean => "output.compactBoolean"
  | closingStyle => "output.selfClosingStyle"

/-- The name of the option in a profile. -/
def profiled : Shared → String
  | inlineBreak => "inlineBreak"
  | compactBoolean => "compactBooleanAttributes"
  | closingStyle => "selfClosingStyle"

/-- The name of the preference. -/
def preferred : Shared → String
  | inlineBreak => "output.inlineBreak"
  | compactBoolean => "profile.allowCompactBoolean"
  | closingStyle => "output.selfClosingStyle"

/-- The two sources, in the order in which they are asked. -/
def sources (s : Shared) (preferences profile : Table Json) : List (Option Json) :=
  match s with
  | inlineBreak => [preference? preferences s.preferred, Table.find? profile s.profiled]
  | compactBoolean => [Table.find? profile s.profiled, preference? preferences s.preferred]
  | closingStyle => [Table.find? profile s.profiled, preference? preferences s.preferred]

end Shared

variable {dialect : String} {settings : Settings} {library : Library} {s : Shared}

/-- The value of an option is that of its first source that has one. -/
theorem find?_shared (dialect : String) (settings : Settings) (filters : Option String)
    (library : Library) (s : Shared) :
    let profile := (Profile.resolve dialect settings.profiles library.profiles).value
    ∃ default, (resolve dialect settings filters library).value.output.find? s.output =
      some (firstOf (s.sources settings.preferences profile) default) := by
  cases s with
  | inlineBreak => exact ⟨_, rfl⟩
  | compactBoolean => exact ⟨_, rfl⟩
  | closingStyle => exact ⟨_, rfl⟩

/-- **The profile counts before the preferences**, except for the break between inline elements.
If the profile of a dialect has a value for an option, that value is used for boolean attributes and
for the closing of elements. For the break it is used just if no other one is preferred. -/
theorem find?_shared_profile (filters : Option String)
    (hvalue : Table.find? (Profile.resolve dialect settings.profiles library.profiles).value
      s.profiled = some value) (hnull : value.isNull = false) :
    let used := (resolve dialect settings filters library).value.output.find? s.output
    let preferred := preference? settings.preferences s.preferred
    (s ≠ .inlineBreak → used = some value) ∧
    (s = .inlineBreak → used = some (preferred.getD value)) ∧
    (used = some value ↔ (s = .inlineBreak → ∀ v, preferred = some v → v = value)) := by
  intro used preferred
  obtain ⟨default, hused⟩ := find?_shared dialect settings filters library s
  have hprofile : s ≠ .inlineBreak → used = some value := by
    intro hs
    refine hused.trans (congrArg some ?_)
    cases s with
    | inlineBreak => exact absurd rfl hs
    | compactBoolean => rw [Shared.sources, hvalue, firstOf_cons_some hnull]
    | closingStyle => rw [Shared.sources, hvalue, firstOf_cons_some hnull]
  have hbreak : s = .inlineBreak → used = some (preferred.getD value) := by
    rintro rfl
    refine hused.trans (congrArg some ?_)
    rw [Shared.sources, firstOf_cons_preference?, hvalue, firstOf_cons_some hnull]
  refine ⟨hprofile, hbreak, ?_⟩
  by_cases hs : s = .inlineBreak
  · rw [hbreak hs, Option.some.injEq]
    cases preferred with
    | none => simp
    | some v => simp [hs]
  · simp [hprofile hs, hs]

/-- Elements are closed as the profile in the library says, by a former name, and not as it is
preferred. -/
theorem find?_shared_profile_closing :
    let settings : Settings := { preferences := [("output.selfClosingStyle", .string "xhtml")] }
    let library : Library :=
      { profiles := [("html", .object [("self_closing_tag", .bool true)])] }
    Table.find? (Profile.resolve "html" settings.profiles library.profiles).value
      "selfClosingStyle" = some (.string "xml") ∧ (Json.string "xml").isNull = false ∧
    (resolve "html" settings none library).value.output.find? "output.selfClosingStyle" =
      some (.string "xml") := by
  intro settings library
  have hvalue : Table.find? (Profile.resolve "html" settings.profiles library.profiles).value
      Shared.closingStyle.profiled = some (.string "xml") := rfl
  exact ⟨hvalue, rfl, (find?_shared_profile none hvalue rfl).1 (by decide)⟩

/-- A preferred break between inline elements is used in place of the one in the profile. -/
theorem inlineBreak_preferred :
    let settings : Settings :=
      { profiles := [("html", .object [("inlineBreak", .integer 2)])]
        preferences := [("output.inlineBreak", .integer 5)] }
    Table.find? (Profile.resolve "html" settings.profiles []).value "inlineBreak" =
      some (.integer 2) ∧ (Json.integer 2).isNull = false ∧
    (resolve "html" settings none {}).value.output.find? "output.inlineBreak" ≠
      some (.integer 2) := by
  refine ⟨rfl, rfl, fun h => ?_⟩
  have hused : some (Json.integer 5) = some (.integer 2) := h
  injection hused with hvalue
  injection hvalue with hinteger
  exact absurd hinteger (by decide)

end Emmet.ExpansionOptions
