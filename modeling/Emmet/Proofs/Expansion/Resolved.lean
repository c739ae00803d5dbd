import Emmet.Expansion.Options
import Emmet.Proofs.Table.Repeated

/-!
# Options are fully resolved

An engine never looks for a default: whatever the settings hold, and whichever values they leave
out, every output option has a value. This file says which options these are, and that a preference
that is `null` is one that is not there.

* `isNull_preferenceOr`, `isNull_firstOf` : a value that is chosen before a default is not `null`;
* `isNull_of_mem_outputValues` : so no output option is;
* `keys_subset_units` : the short forms of units that are known anyway stay known;
* `outputValues_congr` : of the preferences only those that are not `null` count;
* `resolve_fully` : the options of every dialect, with any settings and any library.

The least score of a match is the only number that is computed. It is never infinite and never the
result of an undefined operation, which would have to be written as `null`.
-/

namespace Emmet

namespace Table

variable {α : Type}

/-- The table without the entries under a name. -/
def without (t : Table α) (name : String) : Table α := t.filter fun e => e.1 ≠ name

theorem find?_without (t : Table α) (name key : String) :
    find? (without t name) key = if name = key then none else find? t key := by
  have hfilter := find?_filter (fun k => decide (k ≠ name)) t key
  rw [without, hfilter]
  by_cases h : name = key
  · simp [h]
  · simp [h, Ne.symm h]

end Table

namespace ExpansionOptions

/-- The options of a dialect without settings and without a library. -/
def bare (dialect : String) : ExpansionOptions := (resolve dialect {} none .empty).value

/-! ### No option is `null` -/

theorem isNull_of_preference? {preferences : Table Json} {key : String} {value : Json}
    (h : preference? preferences key = some value) : value.isNull = false := by
  obtain ⟨-, hvalue⟩ := Option.filter_eq_some_iff.1 h
  simpa using hvalue

theorem isNull_preferenceOr {preferences : Table Json} {key : String} {default : Json}
    (h : default.isNull = false) : (preferenceOr preferences key default).isNull = false := by
  unfold preferenceOr
  cases hvalue : preference? preferences key with
  | none => exact h
  | some v => exact isNull_of_preference? hvalue

theorem isNull_firstOf {candidates : List (Option Json)} {default : Json}
    (h : default.isNull = false) : (firstOf candidates default).isNull = false := by
  unfold firstOf
  cases hvalue : (candidates.filterMap id).find? fun v => !v.isNull with
  | none => exact h
  | some v =>
    have hv := List.find?_some hvalue
    simpa using hv

/-- The short forms of units with those of a preference. -/
def unitTable : Option Json → Table Json
  | some (.string list) =>
    Table.overlay defaultUnits ((list.toList.splitOn ',').filterMap unitOf?)
  | some (.object entries) => Table.overlay defaultUnits entries
  | _ => defaultUnits

theorem units_eq_object (preference : Option Json) :
    units preference = .object (unitTable preference) := by
  cases preference with
  | none => rfl
  | some value => cases value <;> rfl

theorem keys_subset_units (preference : Option Json) :
    Table.keys defaultUnits ⊆ Table.keys (unitTable preference) := by
  unfold unitTable
  split
  · exact Table.keys_subset_overlay _ _
  · exact Table.keys_subset_overlay _ _
  · exact fun _ h => h

/-- The least score is a number that can be written. -/
theorem isFinite_minimalScore (preference : Option Json) :
    (minimalScore preference).isFinite = true := by
  unfold minimalScore
  have hdefault : (0.3 : Float).isFinite = true := by decide
  have hzero : (0.0 : Float).isFinite = true := by decide
  have hone : (1.0 : Float).isFinite = true := by decide
  split
  · next score _ =>
    split
    · next hscore =>
      -- the score itself is taken only between the bounds
      by_cases hlow : score < 0.0
      · simp only [hlow, ↓reduceIte]
        split
        · exact hone
        · exact hzero
      · simp only [hlow, ↓reduceIte]
        split
        · exact hone
        · exact hscore
    · exact hdefault
  · exact hdefault

variable (dialect : String) (preferences profile : Table Json) (filters : List Filter)

theorem isNull_of_mem_outputValues :
    ∀ e ∈ outputValues dialect preferences profile filters, e.2.isNull = false := by
  have hor : ∀ key {default : Json}, default.isNull = false →
      (preferenceOr preferences key default).isNull = false := fun _ _ h => isNull_preferenceOr h
  have hfirst : ∀ candidates {default : Json}, default.isNull = false →
      (firstOf candidates default).isNull = false := fun _ _ h => isNull_firstOf h
  have hstring : ∀ s, (Json.string s).isNull = false := fun _ => rfl
  have hstrings : ∀ items, (Json.strings items).isNull = false := fun _ => rfl
  have hbool : ∀ b, (Json.bool b).isNull = false := fun _ => rfl
  have hinteger : ∀ n, (Json.integer n).isNull = false := fun _ => rfl
  have hfloat : ∀ score, (Json.float score).isNull = false := fun _ => rfl
  have hobject : ∀ entries, (Json.object entries).isNull = false := fun _ => rfl
  unfold outputValues
  simp only [List.forall_mem_cons, hor, hfirst, hstring, hstrings, hbool, hinteger, hfloat, hobject,
    units_eq_object, List.not_mem_nil, false_imp_iff, implies_true, and_self]

/-! ### Preferences that are `null` -/

/-- What a preference is written over with `null` is what it is without it. -/
theorem preference?_put_null (preferences : Table Json) (key name : String) :
    preference? (Table.put preferences key .null) name =
      preference? (Table.without preferences key) name := by
  unfold preference?
  rw [Table.find?_put, Table.find?_without]
  split
  · rfl
  · rfl

variable {preferences} in
/-- Of the preferences only those that are not `null` count. -/
theorem outputValues_congr {others : Table Json}
    (h : ∀ key, preference? preferences key = preference? others key) :
    outputValues dialect preferences profile filters =
      outputValues dialect others profile filters := by
  have hpreferred : preference? preferences = preference? others := funext h
  have hor : preferenceOr preferences = preferenceOr others := by
    funext key default
    rw [preferenceOr, preferenceOr, hpreferred]
  unfold outputValues
  rw [hpreferred, hor]

/-! ### All options -/

/-- **Options are fully resolved.** For every dialect, with any settings, filters and library, the
same output options are set in the same order as for HTML without settings. None of them is `null`,
the units that are known anyway have their short forms, and writing `null` over a preference is
leaving it out. -/
theorem resolve_fully (settings : Settings) (filters : Option String) (library : Library) :
    let output := (resolve dialect settings filters library).value.output
    Table.keys output.values = Table.keys (bare "html").output.values ∧
    output.values.length = 27 ∧ (Table.keys output.values).Nodup ∧
    (∀ e ∈ output.values, e.2.isNull = false) ∧
    (∃ score, output.find? "stylesheet.fuzzySearchMinScore" = some (.float score) ∧
      score.isFinite = true) ∧
    (∃ entries, output.find? "stylesheet.unitAliases" = some (.object entries) ∧
      ∀ short ∈ ["e", "p", "x", "r"], short ∈ Table.keys entries) ∧
    ∀ preferences key,
      resolve dialect { settings with preferences := Table.put preferences key .null } filters
          library =
        resolve dialect { settings with preferences := Table.without preferences key } filters
          library := by
  intro output
  have hkeys : Table.keys output.values = Table.keys (bare "html").output.values := rfl
  refine ⟨hkeys, rfl, ?_, ?_, ?_, ?_, ?_⟩
  · rw [hkeys]
    decide
  · exact isNull_of_mem_outputValues _ _ _ _
  · exact ⟨_, rfl, isFinite_minimalScore _⟩
  · refine ⟨unitTable (preference? settings.preferences "css.unitAliases"), ?_, ?_⟩
    · rw [← units_eq_object]
      rfl
    · exact fun short hshort => keys_subset_units _ hshort
  · intro preferences key
    have hvalues : ∀ profile filters,
        outputValues dialect (Table.put preferences key .null) profile filters =
          outputValues dialect (Table.without preferences key) profile filters :=
      fun profile filters => outputValues_congr dialect profile filters
        (preference?_put_null preferences key)
    unfold resolve
    simp only [hvalues]

end ExpansionOptions

end Emmet
