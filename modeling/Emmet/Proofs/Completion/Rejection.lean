import Emmet.Engine.Lookup
import Emmet.Proofs.Abbreviation.Prefix
import Emmet.Proofs.Completion.Events

/-!
# When the abbreviation of a style sheet is rejected

In a style sheet an abbreviation is expanded without its vendor prefix, but it is the typed text,
with the prefix, that has to be plausible. So some abbreviations are rejected for their prefix, and
some are accepted for it.

* `isValid_eq_isSheetValid` : whether a text is plausible is left to the rules of style sheets;
* `primary_rejected_iff` : when the typed abbreviation is rejected, and exactly when this is not
  what the abbreviation without its prefix deserves.
-/

namespace Emmet.Completion

open Abbreviation (isSheetValid WronglyAccepted WronglyRejected)

theorem isValid_eq_isSheetValid {dialect : String} (h : Dialect.family dialect = .stylesheet)
    (abbreviation : String) :
    Abbreviation.isValid dialect abbreviation = isSheetValid abbreviation.toList := by
  rw [Abbreviation.isValid, h]
  rfl

variable {engine : Engine} {document : Document} {position : Position} {language : String}
  {settings : Settings} {library : Library} {tuning : Tuning} {x : Context}

/-- The typed abbreviation is looked at, whatever is expanded. -/
theorem skipped_mem_events_complete_iff
    (hx : contextAt? engine document position language settings library tuning = some x)
    (hfamily : Dialect.family x.dialect = .stylesheet) :
    .notice (.skipped x.abbreviation .invalid) ∈
        (complete engine document position language settings library tuning).events ↔
      Abbreviation.isValid x.dialect x.abbreviation = false := by
  have hsays : ∀ n, Event.notice (.skipped x.abbreviation .invalid) = .notice n →
      SaysInvalid n := by
    rintro - ⟨⟩
    exact ⟨_, rfl⟩
  rw [mem_events_complete_iff hsays, hx, ← x.skipped_mem_events_iff hfamily]
  simp

/-- **Which abbreviations of style sheets are rejected.** The typed abbreviation is rejected just if
it is not plausible with its vendor prefix. This is the decision about the abbreviation without the
prefix, the text that is expanded, apart from those that are wrongly accepted (a selector, or a text
that goes on from letters of vendors) and those that are wrongly rejected (a color behind a hyphen,
and anything behind two hyphens). -/
theorem primary_rejected_iff
    (hx : contextAt? engine document position language settings library tuning = some x)
    (hfamily : Dialect.family x.dialect = .stylesheet) :
    let rejected := .notice (.skipped x.abbreviation .invalid) ∈
      (complete engine document position language settings library tuning).events
    let lead := (Vendor.split x.abbreviation.toList).1
    let rest := (Vendor.split x.abbreviation.toList).2
    (rejected ↔ Abbreviation.isValid x.dialect x.abbreviation = false) ∧
    (¬ rejected ∧ Abbreviation.isValid x.dialect x.short = false ↔ WronglyAccepted lead rest) ∧
    (rejected ∧ Abbreviation.isValid x.dialect x.short = true ↔ WronglyRejected lead rest) := by
  intro rejected lead rest
  have hrejected : rejected ↔ Abbreviation.isValid x.dialect x.abbreviation = false :=
    skipped_mem_events_complete_iff hx hfamily
  have hshort : Abbreviation.isValid x.dialect x.short = isSheetValid rest := by
    rw [isValid_eq_isSheetValid hfamily, Context.short, String.toList_ofList]
  obtain ⟨haccepted, hwrong⟩ := Abbreviation.judged_split x.abbreviation.toList
  refine ⟨hrejected, ?_, ?_⟩
  · rw [hrejected, hshort, isValid_eq_isSheetValid hfamily, Bool.not_eq_false]
    exact haccepted
  · rw [hrejected, hshort, isValid_eq_isSheetValid hfamily]
    exact hwrong

theorem exists_context {document : Document} {position : Position} {abbreviation : String}
    (h : (contextAt? (Lookup.engine {}) document position "css" {} {} {}).map
      (fun x => (x.dialect, x.abbreviation)) = some ("css", abbreviation)) : ∃ x,
    contextAt? (Lookup.engine {}) document position "css" {} {} {} = some x ∧
      x.dialect = "css" ∧ x.abbreviation = abbreviation := by
  obtain ⟨x, hx, hsame⟩ := Option.map_eq_some_iff.1 h
  exact ⟨x, hx, congrArg Prod.fst hsame, congrArg Prod.snd hsame⟩

/-- A selector is no abbreviation, but it is not rejected behind a hyphen. -/
theorem primary_accepted_hyphenSelector : ∃ x,
    contextAt? (Lookup.engine {}) (.text "-h1#abc") ⟨0, 7⟩ "css" {} {} {} = some x ∧
    Dialect.family x.dialect = .stylesheet ∧
    ¬ (.notice (.skipped x.abbreviation .invalid) ∈
        (complete (Lookup.engine {}) (.text "-h1#abc") ⟨0, 7⟩ "css" {} {} {}).events ↔
      Abbreviation.isValid x.dialect x.short = false) := by
  obtain ⟨x, hx, hdialect, habbreviation⟩ :=
    @exists_context (.text "-h1#abc") ⟨0, 7⟩ "-h1#abc" (by decide +kernel)
  have hfamily : Dialect.family x.dialect = .stylesheet := by
    rw [hdialect]
    rfl
  refine ⟨x, hx, hfamily, ?_⟩
  rw [skipped_mem_events_complete_iff hx hfamily, Context.short, habbreviation, hdialect]
  decide +kernel

/-- A color is an abbreviation, but it is rejected behind a hyphen. -/
theorem primary_rejected_iff_hyphenColor : ∃ x,
    contextAt? (Lookup.engine {}) (.text "-#fff") ⟨0, 5⟩ "css" {} {} {} = some x ∧
    Dialect.family x.dialect = .stylesheet ∧ Abbreviation.isValid x.dialect x.short = true ∧
    .notice (.skipped x.abbreviation .invalid) ∈
      (complete (Lookup.engine {}) (.text "-#fff") ⟨0, 5⟩ "css" {} {} {}).events := by
  obtain ⟨x, hx, hdialect, habbreviation⟩ :=
    @exists_context (.text "-#fff") ⟨0, 5⟩ "-#fff" (by decide +kernel)
  have hfamily : Dialect.family x.dialect = .stylesheet := by
    rw [hdialect]
    rfl
  obtain ⟨-, -, hrejected⟩ := primary_rejected_iff hx hfamily
  have hwrong : WronglyRejected (Vendor.split x.abbreviation.toList).1
      (Vendor.split x.abbreviation.toList).2 := by
    rw [habbreviation]
    exact ⟨by decide +kernel, .inr ⟨rfl, rfl⟩⟩
  obtain ⟨hskipped, hvalid⟩ := hrejected.2 hwrong
  exact ⟨x, hx, hfamily, hvalid, hskipped⟩

end Emmet.Completion
