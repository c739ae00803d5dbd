import Emmet.Proofs.Completion.Origin

/-!
# What is asked and reported on the way

While completions are computed, an engine is asked and notices come up. This file says which events
there can be, without saying in what order they come.

* `Traced.All` : a predicate of all events of a computation, with a lemma for each way in which
  computations are put together;
* `Context.options_of_mem_events` : putting candidates together asks with the options of the context
  only;
* `Context.skipped_mem_events_iff` : an abbreviation is reported as not valid just if it is not;
* `mem_events_complete_iff` : all questions, and all notices about an abbreviation that is not
  valid, come up while the candidates of the context are put together.
-/

namespace Emmet

namespace Traced

variable {ε α β : Type} {p : ε → Prop}

/-- All events that come up have a property. -/
def All (p : ε → Prop) (x : Traced ε α) : Prop := ∀ e ∈ x.events, p e

namespace All

theorem pure (a : α) : All p (Pure.pure a : Traced ε α) := nofun

theorem bind {x : Traced ε α} {f : α → Traced ε β} (hx : All p x) (hf : ∀ a, All p (f a)) :
    All p (x >>= f) := by
  intro e he
  rw [events_bind, List.mem_append] at he
  obtain he | he := he
  · exact hx e he
  · exact hf _ e he

theorem ite {c : Prop} [Decidable c] {x y : Traced ε α} (hx : All p x) (hy : All p y) :
    All p (if c then x else y) := by
  split
  · exact hx
  · exact hy

theorem emit {e : ε} (h : p e) : All p (Traced.emit e) := by
  intro e' he
  obtain rfl := List.mem_singleton.1 he
  exact h

theorem filterMap {f : α → Traced ε (Option β)} {as : List α} (h : ∀ a, All p (f a)) :
    All p (Traced.filterMap f as) := by
  intro e he
  rw [events_filterMap] at he
  obtain ⟨a, -, ha⟩ := List.mem_flatMap.1 he
  exact h a e ha

end All

end Traced

namespace Completion

open Traced (All)

/-! ### Questions -/

variable {p : Event → Prop}

theorem all_ask {engine : Engine} {abbreviation : String} {options : ExpansionOptions}
    (h : p (.expand abbreviation options)) : All p (ask engine abbreviation options) := by
  intro e he
  obtain rfl := List.mem_singleton.1 he
  exact h

/-- A notice says that an abbreviation is not valid. -/
def SaysInvalid (n : Notice) : Prop := ∃ a, n = .skipped a .invalid

/-- The events of a search for keys are questions, and notices about those that failed. -/
theorem all_suggestions {engine : Engine} {keys : List String} {q : Query}
    {options : ExpansionOptions} (hask : ∀ a, p (.expand a options))
    (hother : ∀ n, ¬ SaysInvalid n → p (.notice n)) :
    All p (suggestions engine keys q options) := by
  refine .ite (.pure _) (.filterMap fun key => ?_)
  unfold suggest
  split
  · exact .pure _
  · refine .bind (all_ask (hask _)) fun answer => ?_
    split
    · exact .ite (.pure _) (.pure _)
    · exact .bind (.emit (hother _ nofun)) fun _ => .pure _

namespace Context

variable (x : Context)

/-- The typed abbreviation is found not to be valid just if it is not; whatever is expanded, the
engine is asked with the options of the context. -/
theorem all_primary? {abbreviation : String} {keys : List String}
    (hask : ∀ a, p (.expand a x.options))
    (hinvalid : Abbreviation.isValid x.dialect x.abbreviation = false →
      p (.notice (.skipped x.abbreviation .invalid)))
    (hother : ∀ n, ¬ SaysInvalid n → p (.notice n)) :
    All p (x.primary? abbreviation keys) := by
  unfold primary?
  split
  · next h =>
    exact .bind (.emit (hinvalid (by simpa using h))) fun _ => .pure _
  · refine .bind (all_ask (hask _)) fun answer => ?_
    split
    · refine .bind (.emit (hother _ nofun)) fun _ => ?_
      exact .bind (.emit (hother _ nofun)) fun _ => .pure _
    · exact .ite (.bind (.emit (hother _ nofun)) fun _ => .pure _) (.pure _)

/-- What may come up while candidates are put together. -/
theorem all_offersFor (hask : ∀ a, p (.expand a x.options))
    (hinvalid : Abbreviation.isValid x.dialect x.abbreviation = false →
      p (.notice (.skipped x.abbreviation .invalid)))
    (hother : ∀ n, ¬ SaysInvalid n → p (.notice n)) : All p (offersFor x) := by
  have hprimary (abbreviation : String) (keys : List String) :
      All p (x.primary? abbreviation keys) := x.all_primary? hask hinvalid hother
  have hsuggestions (keys : List String) (q : Query) : All p (x.suggestions keys q) :=
    all_suggestions hask hother
  unfold offersFor
  split
  · refine .bind ?_ fun items => ?_
    · unfold stylesheet
      generalize Vendor.split x.abbreviation.toList = parts
      refine .bind (hprimary _ _) fun expansion => ?_
      refine .ite (.bind (.emit (hother _ nofun)) fun _ => .pure _) ?_
      refine .bind (hsuggestions _ _) fun items => ?_
      split
      · exact .pure _
      · exact .ite (.pure _) (.pure _)
    · split
      · exact .pure _
      · exact .pure _
  · refine .bind ?_ fun items => .pure _
    unfold markup
    refine .bind (hprimary _ _) fun expansion => ?_
    -- tags and snippets are asked for or not, each for itself
    refine .ite (.bind (.pure _) fun tags => ?_) (.bind (hsuggestions _ _) fun tags => ?_)
    · refine .ite (.bind (hsuggestions _ _) fun snippets => .pure _) ?_
      exact .bind (.pure _) fun _ => .pure _
    · refine .ite (.bind (hsuggestions _ _) fun snippets => .pure _) ?_
      exact .bind (.pure _) fun _ => .pure _

/-- The engine is asked with the options of the context only. -/
theorem options_of_mem_events {a : String} {options : ExpansionOptions}
    (h : .expand a options ∈ (offersFor x).events) : options = x.options := by
  have hall : All (∀ a options, · = Event.expand a options → options = x.options)
      (offersFor x) := by
    refine x.all_offersFor ?_ (fun _ => nofun) fun _ _ => nofun
    rintro a - - ⟨⟩
    rfl
  exact hall _ h a options rfl

/-- In a style sheet the abbreviation that is looked at is the typed one. -/
theorem skipped_mem_events_iff (h : Dialect.family x.dialect = .stylesheet) :
    .notice (.skipped x.abbreviation .invalid) ∈ (offersFor x).events ↔
      Abbreviation.isValid x.dialect x.abbreviation = false := by
  constructor
  · intro hmem
    by_contra hvalid
    have hall : All (· ≠ Event.notice (.skipped x.abbreviation .invalid)) (offersFor x) := by
      refine x.all_offersFor (fun _ => nofun) (fun hinvalid => absurd hinvalid hvalid) ?_
      rintro n hn ⟨⟩
      exact hn ⟨_, rfl⟩
    exact hall _ hmem rfl
  · intro hinvalid
    have hprimary (abbreviation : String) (keys : List String) :
        .notice (.skipped x.abbreviation .invalid) ∈ (x.primary? abbreviation keys).events := by
      unfold primary?
      rw [hinvalid]
      exact List.mem_cons_self
    unfold offersFor stylesheet
    rw [h, Traced.events_bind, Traced.events_bind]
    exact List.mem_append_left _ (List.mem_append_left _ (hprimary _ _))

end Context

/-! ### From the document to the context -/

variable {engine : Engine} {document : Document} {position : Position} {language : String}
  {settings : Settings} {library : Library} {tuning : Tuning} {x : Context}

/-- The notices of a profile are about its shape. -/
theorem events_resolve {dialect : String} {filters : Option String} {n : Notice}
    (h : n ∈ (ExpansionOptions.resolve dialect settings filters library).events) :
    ∃ profile, n = .oddProfile profile := by
  have hmodernize (profile : Json) : All (∃ shape, · = Notice.oddProfile shape)
      (Profile.modernize profile) := by
    unfold Profile.modernize
    split
    · exact .pure _
    · exact .ite (.pure _) (.bind (.emit ⟨_, rfl⟩) fun _ => .pure _)
    · exact .bind (.emit ⟨_, rfl⟩) fun _ => .pure _
  have hresolve : All (∃ shape, · = Notice.oddProfile shape)
      (ExpansionOptions.resolve dialect settings filters library) := by
    refine .bind ?_ fun _ => .pure _
    unfold Profile.resolve
    split
    · exact hmodernize _
    · split
      · exact hmodernize _
      · exact .pure _
  exact hresolve n h

/-- Before candidates are put together nothing is asked, and no abbreviation is found not to be
valid. -/
theorem events_complete :
    ∃ notices : List Notice, (∀ n ∈ notices, ¬ SaysInvalid n) ∧
      (complete engine document position language settings library tuning).events =
        notices.map .notice ++
          (contextAt? engine document position language settings library tuning).elim []
            fun x => (offersFor x).events := by
  unfold complete contextAt?
  split
  · exact ⟨[], List.forall_mem_nil _, rfl⟩
  cases hdialect : Dialect.ofLanguage? language settings.excluded with
  | none => exact ⟨[], List.forall_mem_nil _, rfl⟩
  | some dialect =>
    cases hline : document.line? position.line with
    | none => exact ⟨[], List.forall_mem_nil _, rfl⟩
    | some line =>
      simp only [completeLine, Traced.events_bind, value_reporting, Option.bind_eq_bind,
        Option.bind_some, Extraction.value_ofLine]
      unfold Extraction.ofLine
      cases Extraction.ofChars (fun stop => engine.find line stop (.forFamily
        (Dialect.family dialect))) line.toList position tuning.maxFilters with
      | none =>
        refine ⟨[.noAbbreviation position.line position.column, .skipped "" .noAbbreviation], ?_,
          rfl⟩
        simp [SaysInvalid]
      | some e =>
        simp only [Option.bind_some]
        split
        · refine ⟨[.skipped e.abbreviation .openTag], ?_, rfl⟩
          simp [SaysInvalid]
        · refine ⟨(ExpansionOptions.resolve dialect settings (Filter.joined? e.filters)
            library).events, fun n hn => ?_, rfl⟩
          obtain ⟨profile, rfl⟩ := events_resolve hn
          rintro ⟨a, ha⟩
          cases ha

/-- So questions, and notices about an abbreviation that is not valid, are those of the context. -/
theorem mem_events_complete_iff {e : Event} (he : ∀ n, e = .notice n → SaysInvalid n) :
    e ∈ (complete engine document position language settings library tuning).events ↔
      ∃ x, contextAt? engine document position language settings library tuning = some x ∧
        e ∈ (offersFor x).events := by
  obtain ⟨notices, hnotices, hevents⟩ := @events_complete engine document position language
    settings library tuning
  have hnot : e ∉ notices.map .notice := by
    intro hmem
    obtain ⟨n, hn, rfl⟩ := List.mem_map.1 hmem
    exact hnotices n hn (he n rfl)
  rw [hevents, List.mem_append, or_iff_right hnot]
  cases contextAt? engine document position language settings library tuning with
  | none => simp
  | some x => simp

end Completion

end Emmet
