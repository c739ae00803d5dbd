import Emmet.Completion.Basic
import Emmet.Proofs.Abbreviation.Range
import Mathlib.Data.List.Basic

/-!
# Where the offered candidates come from

A candidate does not name the abbreviation that was expanded for it. This file puts the candidates
together once more, as `Origin`s that do, and leaves out what the settings and the sorting add.

* `core` : a candidate without what the settings and the sorting add;
* `Context.candidates` : all candidates of a context, each with its source;
* `Context.kept` : those that are left without a repeated abbreviation;
* `Context.offered` : those that insert different templates;
* `of_contextAt?` : what a context knows of the document and of the settings;
* `shown_complete` : with their labels and templates, these are the offered candidates.
-/

namespace Emmet.Completion

/-- A candidate with the abbreviation that was expanded for it. -/
structure Origin where
  source : String
  label : String
  template : String
  deriving DecidableEq, Repr

/-- The label and the template. -/
def Origin.shown (o : Origin) : String × String := (o.label, o.template)

/-- The label and the template of a candidate. -/
def shown (c : Candidate) : String × String := (c.label, c.template)

/-- A candidate without its place in the sorting and its kind. -/
def core (c : Candidate) : Candidate :=
  { c with sortText := none, filterText := none, kind := .snippet }

/-- The labels and templates that are offered. -/
def allShown (offers : Option Offers) : List (String × String) :=
  (offers.elim [] Offers.items).map shown

theorem map_shown_of_map_core {cs ds : List Candidate} (h : cs.map core = ds.map core) :
    cs.map shown = ds.map shown := by
  have hshown := congrArg (List.map shown) h
  rwa [List.map_map, List.map_map] at hshown

theorem shown_of_core_primary {c d : Option Candidate} (h : c.map core = d.map core) :
    c.map shown = d.map shown := by
  have hshown := congrArg (Option.map shown) h
  rwa [Option.map_map, Option.map_map] at hshown

theorem mem_allShown_iff {offers : Option Offers} {label template : String} :
    (label, template) ∈ allShown offers ↔
      ∃ os, offers = some os ∧ ∃ i ∈ os.items, i.label = label ∧ i.template = template := by
  cases offers with
  | none => simp [allShown]
  | some os => simp [allShown, shown]

/-! ### Keys -/

/-- The origin of the candidate for a key. -/
def keyOrigin? (engine : Engine) (q : Query) (options : ExpansionOptions) (key : String) :
    Option Origin :=
  (q.restOf? key).bind fun rest =>
    match engine.expand (q.abbreviation ++ rest) options with
    | .ok expansion =>
      if expansion = "" then none
      else some ⟨q.abbreviation ++ rest, q.typed ++ rest, Template.finish expansion⟩
    | .error _ => none

/-- The origins of the candidates for all keys. -/
def keyOrigins (engine : Engine) (keys : List String) (q : Query) (options : ExpansionOptions) :
    List Origin :=
  if q.typed = "" then [] else keys.filterMap (keyOrigin? engine q options)

variable {engine : Engine} {q : Query} {options : ExpansionOptions} {o : Origin}

theorem shown_suggest (engine : Engine) (q : Query) (options : ExpansionOptions) (key : String) :
    (suggest engine q options key).value.map shown =
      (keyOrigin? engine q options key).map Origin.shown := by
  cases hrest : q.restOf? key with
  | none => simp [suggest, keyOrigin?, hrest]
  | some rest =>
    cases hexpand : engine.expand (q.abbreviation ++ rest) options with
    | error e => simp [suggest, keyOrigin?, hrest, hexpand]
    | ok expansion =>
      by_cases hempty : expansion = ""
      · simp [suggest, keyOrigin?, hrest, hexpand, hempty]
      · simp [suggest, keyOrigin?, hrest, hexpand, hempty, shown, Origin.shown,
          Candidate.ofExpansion]

theorem shown_suggestions (engine : Engine) (keys : List String) (q : Query)
    (options : ExpansionOptions) : (suggestions engine keys q options).value.map shown =
      (keyOrigins engine keys q options).map Origin.shown := by
  unfold suggestions keyOrigins
  split
  · rfl
  · rw [Traced.value_filterMap, List.map_filterMap, List.map_filterMap]
    simp only [shown_suggest]

theorem expand_of_mem_keyOrigins {keys : List String} (h : o ∈ keyOrigins engine keys q options) :
    ∃ expansion, engine.expand o.source options = .ok expansion := by
  unfold keyOrigins at h
  split at h
  · cases h
  · obtain ⟨key, -, hkey⟩ := List.mem_filterMap.1 h
    obtain ⟨rest, -, horigin⟩ := Option.bind_eq_some_iff.1 hkey
    cases hexpand : engine.expand (q.abbreviation ++ rest) options with
    | error e => simp [hexpand] at horigin
    | ok expansion =>
      rw [hexpand] at horigin
      simp only at horigin
      split at horigin
      · cases horigin
      · obtain rfl := Option.some.inj horigin
        exact ⟨expansion, hexpand⟩

/-! ### The candidates of a context -/

namespace Context

variable (x : Context)

/-- What is offered of the expansion of an abbreviation; none if it is noise. -/
def worthwhile? (abbreviation : String) (keys : List String) (expansion : String) :
    Option String :=
  let expansion := if x.isImportant abbreviation then "!important" else expansion
  if expansion = "" ∨
      Noise.isNoise ⟨x.dialect, abbreviation, expansion, x.options.output, keys⟩ = true then none
  else some expansion

theorem value_primary? (abbreviation : String) (keys : List String) :
    (x.primary? abbreviation keys).value =
      if Abbreviation.isValid x.dialect x.abbreviation then
        (x.engine.expand abbreviation x.options).toOption.bind (x.worthwhile? abbreviation keys)
      else none := by
  unfold primary?
  cases Abbreviation.isValid x.dialect x.abbreviation with
  | false => rfl
  | true =>
    simp only [Bool.not_true, Bool.false_eq_true, ↓reduceIte, Traced.value_bind, value_ask]
    cases x.engine.expand abbreviation x.options with
    | error e => rfl
    | ok expansion => exact apply_ite Traced.value _ _ _

theorem expand_of_primary? {abbreviation expansion : String} {keys : List String}
    (h : (x.primary? abbreviation keys).value = some expansion) :
    ∃ expansion, x.engine.expand abbreviation x.options = .ok expansion := by
  rw [value_primary?] at h
  split at h
  · obtain ⟨e, he, -⟩ := Option.bind_eq_some_iff.1 h
    cases hexpand : x.engine.expand abbreviation x.options with
    | error _ => rw [hexpand] at he; cases he
    | ok expansion => exact ⟨expansion, rfl⟩
  · cases h

/-- The tag that keys go on from. -/
def tag : String := String.ofList (lastTag x.abbreviation.toList)

/-- The abbreviation itself, in markup. -/
def markupPrimary? : Option Origin :=
  (x.primary? x.abbreviation x.knownKeys).value.map fun expansion =>
    ⟨x.abbreviation, x.labelWithFilters, Template.finish expansion⟩

theorem label_of_markupPrimary? (h : o ∈ x.markupPrimary?) : o.label = x.labelWithFilters := by
  obtain ⟨expansion, -, rfl⟩ := Option.map_eq_some_iff.1 h
  rfl

theorem source_of_markupPrimary? (h : o ∈ x.markupPrimary?) : o.source = x.abbreviation := by
  obtain ⟨expansion, -, rfl⟩ := Option.map_eq_some_iff.1 h
  rfl

/-- The tags that go on from the typed tag. -/
def tagOrigins : List Origin :=
  if x.dialect = "xml" then []
  else keyOrigins x.engine Tag.common (x.query x.tag abbreviationDetail .expansion true) x.options

/-- The snippets that go on from the typed tag. -/
def snippetOrigins : List Origin :=
  if x.settings.suggestions then
    keyOrigins x.engine (x.knownKeys.filter fun k => !Tag.isCommon k)
      (x.query x.tag abbreviationDetail .snippet true) x.options
  else []

/-- The candidates of markup. -/
def markupCandidates : List Origin :=
  x.markupPrimary?.toList ++ x.tagOrigins ++ x.snippetOrigins

/-- The letters that ask for vendors. -/
def lead : String := String.ofList (Vendor.split x.abbreviation.toList).1

/-- The abbreviation without the letters that ask for vendors. -/
def short : String := String.ofList (Vendor.split x.abbreviation.toList).2

/-- The typed text is left to the plain completion of properties. -/
def isDeferred : Bool :=
  x.tuning.propertyLength < (Vendor.split x.abbreviation.toList).2.length && Property.isStart x.short

/-- The abbreviation itself, in a style sheet. -/
def stylesheetPrimary? : Option Origin :=
  ((x.primary? x.short []).value.map fun expansion =>
    let primary := x.stylesheetPrimary x.lead expansion
    ⟨x.short, primary.label, primary.template⟩).filter fun o => x.isPlausible o.label x.short

theorem source_of_stylesheetPrimary? (h : o ∈ x.stylesheetPrimary?) : o.source = x.short := by
  obtain ⟨expansion, -, rfl⟩ := Option.map_eq_some_iff.1 (Option.filter_eq_some_iff.1 h).1
  rfl

/-- The properties and values that go on from the typed text. -/
def propertyOrigins : List Origin :=
  keyOrigins x.engine (x.library.stylesheetKeys x.dialect)
    (x.query x.abbreviation snippetDetail .snippet false) x.options

/-- The candidates of a style sheet. -/
def stylesheetCandidates : List Origin :=
  if x.isDeferred then [] else x.propertyOrigins ++ x.stylesheetPrimary?.toList

/-- All candidates. -/
def candidates : List Origin :=
  match Dialect.family x.dialect with
  | .markup => x.markupCandidates
  | .stylesheet => x.stylesheetCandidates

/-- What is labelled like the abbreviation is dropped, since the abbreviation is only repeated. -/
def DropsEcho : Prop :=
  x.dialect = "html" ∧ 2 ≤ x.candidates.length ∧ ':' ∈ x.abbreviation.toList ∧
    x.markupPrimary?.map Origin.template = some x.echoTemplate

instance : Decidable x.DropsEcho := inferInstanceAs (Decidable (_ ∧ _))

/-- The candidates without a repeated abbreviation. -/
def kept : List Origin :=
  if x.DropsEcho then x.candidates.filter fun o => o.label != x.labelWithFilters
  else x.candidates

end Context

/-- Keeps the first of the candidates with one template. -/
def distinct : List String → List Origin → List Origin
  | _, [] => []
  | seen, o :: os =>
    if o.template ∈ seen then distinct seen os else o :: distinct (o.template :: seen) os

/-- The candidates that are offered. -/
def Context.offered (x : Context) : List Origin := distinct [] x.kept

/-- A candidate is the abbreviation itself or comes from a key. -/
theorem Context.mem_candidates_cases {x : Context} (h : o ∈ x.candidates) :
    o ∈ x.markupPrimary? ∨ o ∈ x.stylesheetPrimary? ∨
      ∃ keys q, o ∈ keyOrigins x.engine keys q x.options := by
  unfold candidates at h
  split at h
  · rw [markupCandidates, List.mem_append, List.mem_append, Option.mem_toList] at h
    rcases h with (hprimary | htag) | hsnippet
    · exact .inl hprimary
    · unfold tagOrigins at htag
      split at htag
      · cases htag
      · exact .inr (.inr ⟨_, _, htag⟩)
    · unfold snippetOrigins at hsnippet
      split at hsnippet
      · exact .inr (.inr ⟨_, _, hsnippet⟩)
      · cases hsnippet
  · unfold stylesheetCandidates at h
    split at h
    · cases h
    · rw [List.mem_append, Option.mem_toList] at h
      rcases h with hproperty | hprimary
      · exact .inr (.inr ⟨_, _, hproperty⟩)
      · exact .inr (.inl hprimary)

/-- Every candidate is an expansion of its source. -/
theorem Context.expand_of_mem_candidates {x : Context} (h : o ∈ x.candidates) :
    ∃ expansion, x.engine.expand o.source x.options = .ok expansion := by
  obtain hprimary | hprimary | ⟨keys, q, hkey⟩ := mem_candidates_cases h
  · obtain ⟨expansion, hexpansion, rfl⟩ := Option.map_eq_some_iff.1 hprimary
    exact x.expand_of_primary? hexpansion
  · obtain ⟨expansion, hexpansion, rfl⟩ :=
      Option.map_eq_some_iff.1 (Option.filter_eq_some_iff.1 hprimary).1
    exact x.expand_of_primary? hexpansion
  · exact expand_of_mem_keyOrigins hkey

theorem mem_distinct_iff {seen : List String} {os : List Origin} :
    o ∈ distinct seen os ↔
      o.template ∉ seen ∧ os.find? (fun i => i.template == o.template) = some o := by
  induction os generalizing seen with
  | nil => simp [distinct]
  | cons p os ih =>
    rw [distinct, List.find?_cons]
    by_cases htemplate : p.template = o.template
    · rw [htemplate]
      by_cases hseen : o.template ∈ seen
      · rw [if_pos hseen, ih]
        simp [hseen]
      · rw [if_neg hseen, List.mem_cons, ih]
        simp [hseen, eq_comm]
    · have hne : o ≠ p := fun h => htemplate (h ▸ rfl)
      have hbeq : (p.template == o.template) = false := beq_false_of_ne htemplate
      rw [hbeq]
      split
      · exact ih
      · rw [List.mem_cons, ih, List.mem_cons]
        simp [hne, Ne.symm htemplate]

/-- Of the candidates with one template the first is offered. -/
theorem Context.mem_offered_iff {x : Context} : o ∈ x.offered ↔
    x.kept.find? (fun i => i.template == o.template) = some o := by
  rw [offered, mem_distinct_iff]
  simp

/-- No two offered candidates have one template. -/
theorem Context.eq_of_mem_offered {x : Context} {i : Origin} (hi : i ∈ x.offered)
    (ho : o ∈ x.offered) (h : i.template = o.template) : i = o := by
  have hfirst := mem_offered_iff.1 hi
  rw [h, mem_offered_iff.1 ho] at hfirst
  exact (Option.some.inj hfirst).symm

theorem Context.mem_candidates_of_mem_offered {x : Context} (h : o ∈ x.offered) :
    o ∈ x.candidates := by
  have hkept : o ∈ x.kept := List.mem_of_find?_eq_some (mem_offered_iff.1 h)
  unfold kept at hkept
  split at hkept
  · exact (List.mem_filter.1 hkept).1
  · exact hkept

/-! ### The offered candidates -/

theorem shown_distinctTemplates (seen : List String) {items : List Candidate} {os : List Origin}
    (h : items.map shown = os.map Origin.shown) :
    (distinctTemplates seen items).map shown = (distinct seen os).map Origin.shown := by
  induction os generalizing seen items with
  | nil =>
    rw [List.map_nil, List.map_eq_nil_iff] at h
    rw [h]
    rfl
  | cons o os ih =>
    obtain ⟨i, items, rfl, hi, hitems⟩ := List.map_eq_cons_iff.1 h
    have htemplate : i.template = o.template := congrArg Prod.snd hi
    unfold distinctTemplates distinct
    rw [htemplate]
    split
    · exact ih seen hitems
    · rw [List.map_cons, List.map_cons, hi, ih _ hitems]

theorem allShown_offers? (settings : Settings) {items : List Candidate} {os : List Origin}
    (h : items.map shown = os.map Origin.shown) :
    allShown (offers? settings items) = (distinct [] os).map Origin.shown := by
  have hshown : (if settings.asSnippets then
      items.map fun i => { i with kind := .snippet } else items).map shown =
        os.map Origin.shown := by
    rw [← h]
    split
    · rw [List.map_map]
      rfl
    · rfl
  rw [← shown_distinctTemplates [] hshown]
  unfold offers?
  simp only
  split
  · next hnone => rw [hnone]; rfl
  · rfl

theorem distinct_append_of_mem {seen : List String} {os : List Origin} {p : Origin}
    (h : p.template ∈ seen ∨ ∃ o ∈ os, o.template = p.template) :
    distinct seen (os ++ [p]) = distinct seen os := by
  induction os generalizing seen with
  | nil =>
    have hseen : p.template ∈ seen := by simpa using h
    simp [distinct, hseen]
  | cons o os ih =>
    rw [List.cons_append, distinct, distinct]
    split
    · next ho =>
      refine ih (h.elim .inl ?_)
      rintro ⟨i, hi, htemplate⟩
      obtain rfl | hi := List.mem_cons.1 hi
      · exact .inl (htemplate ▸ ho)
      · exact .inr ⟨i, hi, htemplate⟩
    · rw [ih]
      obtain hseen | ⟨i, hi, htemplate⟩ := h
      · exact .inl (List.mem_cons_of_mem _ hseen)
      · obtain rfl | hi := List.mem_cons.1 hi
        · exact .inl (htemplate ▸ List.mem_cons_self)
        · exact .inr ⟨i, hi, htemplate⟩

namespace Context

variable (x : Context)

theorem shown_filter_label (label : String) {items : List Candidate} {os : List Origin}
    (h : items.map shown = os.map Origin.shown) :
    (items.filter fun i => i.label != label).map shown =
      (os.filter fun o => o.label != label).map Origin.shown := by
  have hitems := List.filter_map (f := shown) (p := fun s => s.1 != label) (l := items)
  have hos := List.filter_map (f := Origin.shown) (p := fun s => s.1 != label) (l := os)
  rw [h, hos] at hitems
  exact hitems.symm

theorem withoutEcho_eq {primary : Option Candidate} {items : List Candidate}
    (hprimary : primary.map shown = x.markupPrimary?.map Origin.shown)
    (hlength : items.length = x.candidates.length) : x.withoutEcho primary items =
      if x.DropsEcho then items.filter fun i => i.label != x.labelWithFilters else items := by
  cases hp : x.markupPrimary? with
  | none =>
    rw [hp, Option.map_none, Option.map_eq_none_iff] at hprimary
    simp [withoutEcho, DropsEcho, hp, hprimary]
  | some o =>
    rw [hp, Option.map_some] at hprimary
    obtain ⟨p, rfl, hshown⟩ := Option.map_eq_some_iff.1 hprimary
    obtain ⟨hlabel, htemplate⟩ := Prod.mk.inj hshown
    have hold : o.label = x.labelWithFilters := x.label_of_markupPrimary? hp
    have hdrops : x.DropsEcho ↔ x.dialect = "html" ∧ 2 ≤ items.length ∧
        ':' ∈ x.abbreviation.toList ∧ p.template = x.echoTemplate := by
      rw [DropsEcho, hp, hlength, htemplate, Option.map_some, Option.some.injEq]
    simp only [withoutEcho, ← hdrops, hlabel, hold]

theorem shown_withoutEcho {primary : Option Candidate} {items : List Candidate}
    (hprimary : primary.map shown = x.markupPrimary?.map Origin.shown)
    (hitems : items.map shown = x.candidates.map Origin.shown) :
    (x.withoutEcho primary items).map shown = x.kept.map Origin.shown := by
  have hlength : items.length = x.candidates.length := by
    simpa using congrArg List.length hitems
  rw [x.withoutEcho_eq hprimary hlength, kept]
  split
  · exact shown_filter_label _ hitems
  · exact hitems

theorem core_sorted {b : Bool} {primary : Option Candidate} :
    (if b = true then primary.map fun p => { p with sortText := some ("0" ++ p.label) }
      else primary).map core = primary.map core := by
  split
  · rw [Option.map_map]
    rfl
  · rfl

theorem core_behind {b : Bool} {items : List Candidate} {filterText sortText : Option String} :
    (if b = true then items.map fun i => { i with filterText, sortText } else items).map core =
      items.map core := by
  split
  · rw [List.map_map]
    rfl
  · rfl

theorem shown_sorted {b : Bool} {primary : Option Candidate} :
    (if b = true then primary.map fun p => { p with sortText := some ("0" ++ p.label) }
      else primary).map shown = primary.map shown :=
  shown_of_core_primary core_sorted

theorem shown_behind {b : Bool} {items : List Candidate} {filterText sortText : Option String} :
    (if b = true then items.map fun i => { i with filterText, sortText } else items).map shown =
      items.map shown :=
  map_shown_of_map_core core_behind

theorem shown_ofExpansion_primary : ((x.primary? x.abbreviation x.knownKeys).value.map fun e =>
    Candidate.ofExpansion x.labelWithFilters e abbreviationDetail x.extraction.range
      .expansion).map shown = x.markupPrimary?.map Origin.shown := by
  rw [markupPrimary?, Option.map_map, Option.map_map]
  rfl

theorem shown_toList {primary : Option Candidate} {p : Option Origin}
    (h : primary.map shown = p.map Origin.shown) :
    primary.toList.map shown = p.toList.map Origin.shown := by
  rw [← Option.toList_map, ← Option.toList_map, h]

theorem shown_arranged (h : Dialect.family x.dialect = .markup) {primary : Option Candidate}
    {tags snippets : List Candidate}
    (hprimary : primary.map shown = x.markupPrimary?.map Origin.shown)
    (htags : tags.map shown = x.tagOrigins.map Origin.shown)
    (hsnippets : snippets.map shown = x.snippetOrigins.map Origin.shown) :
    (x.withoutEcho primary (primary.toList ++ tags ++ snippets)).map shown =
      x.kept.map Origin.shown := by
  refine x.shown_withoutEcho hprimary ?_
  rw [candidates, h, markupCandidates, List.map_append, List.map_append, List.map_append,
    List.map_append, shown_toList hprimary, htags, hsnippets]

theorem shown_markup (h : Dialect.family x.dialect = .markup) :
    x.markup.value.map shown = x.kept.map Origin.shown := by
  have htags : x.dialect ≠ "xml" → (x.suggestions Tag.common (x.query x.tag abbreviationDetail
      .expansion true)).value.map shown = x.tagOrigins.map Origin.shown := by
    intro hxml
    rw [tagOrigins, if_neg hxml]
    exact shown_suggestions ..
  have hnoTags : x.dialect = "xml" →
      ([] : List Candidate).map shown = x.tagOrigins.map Origin.shown := by
    intro hxml
    rw [tagOrigins, if_pos hxml]
    rfl
  have hsnippets : x.settings.suggestions = true → (x.suggestions (x.knownKeys.filter fun k =>
      !Tag.isCommon k) (x.query x.tag abbreviationDetail .snippet true)).value.map shown =
        x.snippetOrigins.map Origin.shown := by
    intro hsettings
    rw [snippetOrigins, if_pos hsettings]
    exact shown_suggestions ..
  have hnoSnippets : ¬ x.settings.suggestions = true →
      ([] : List Candidate).map shown = x.snippetOrigins.map Origin.shown := by
    intro hsettings
    rw [snippetOrigins, if_neg hsettings]
    rfl
  have hprimary {b : Bool} := shown_sorted (b := b) |>.trans x.shown_ofExpansion_primary
  -- tags and snippets are asked for or not, each for itself
  unfold markup
  simp only [Traced.value_bind]
  split
  · next hxml =>
    split
    · next hs => exact x.shown_arranged h hprimary (hnoTags hxml) (shown_behind.trans (hsnippets hs))
    · next hs =>
      exact x.shown_arranged h hprimary (hnoTags hxml) (shown_behind.trans (hnoSnippets hs))
  · next hxml =>
    split
    · next hs => exact x.shown_arranged h hprimary (htags hxml) (shown_behind.trans (hsnippets hs))
    · next hs =>
      exact x.shown_arranged h hprimary (htags hxml) (shown_behind.trans (hnoSnippets hs))

/-! ### Style sheets -/

theorem not_dropsEcho (h : Dialect.family x.dialect = .stylesheet) : ¬ x.DropsEcho := by
  rintro ⟨hhtml, -⟩
  rw [hhtml] at h
  exact absurd h (by decide)

theorem stylesheetPrimary?_of_some {expansion : String}
    (h : (x.primary? x.short []).value = some expansion) : x.stylesheetPrimary? =
      let primary := x.stylesheetPrimary x.lead expansion
      if x.isPlausible primary.label x.short then
        some ⟨x.short, primary.label, primary.template⟩
      else none := by
  rw [stylesheetPrimary?, h]
  rfl

theorem exists_template_iff {items : List Candidate} {os : List Origin} {template : String}
    (h : items.map shown = os.map Origin.shown) :
    (items.any fun i => i.template == template) = true ↔ ∃ o ∈ os, o.template = template := by
  have htemplates : items.map Candidate.template = os.map Origin.template := by
    simpa [Function.comp_def, shown, Origin.shown] using congrArg (List.map Prod.snd) h
  simp only [List.any_eq_true, beq_iff_eq]
  rw [← List.mem_map, ← List.mem_map, htemplates]

/-- A style sheet offers its candidates, apart from the abbreviation itself where that would come up
twice. -/
theorem exists_stylesheet (h : Dialect.family x.dialect = .stylesheet) :
    (x.stylesheet.value = none ∧ x.candidates = []) ∨
      ∃ items os, x.stylesheet.value = some items ∧ items.map shown = os.map Origin.shown ∧
        distinct [] x.candidates = distinct [] os := by
  have hitems : (x.suggestions (x.library.stylesheetKeys x.dialect) (x.query x.abbreviation
      snippetDetail .snippet false)).value.map shown = x.propertyOrigins.map Origin.shown :=
    shown_suggestions ..
  have hshort : String.ofList (Vendor.split x.abbreviation.toList).2 = x.short := rfl
  have hlead : String.ofList (Vendor.split x.abbreviation.toList).1 = x.lead := rfl
  rw [candidates, h]
  unfold stylesheet
  simp only [Traced.value_bind, hshort, hlead]
  split
  · next hdeferred => exact .inl ⟨rfl, if_pos hdeferred⟩
  · next hdeferred =>
    right
    have hcandidates : x.stylesheetCandidates =
        x.propertyOrigins ++ x.stylesheetPrimary?.toList := if_neg hdeferred
    simp only [hcandidates, Traced.value_bind]
    split
    · next hnone =>
      have hprimary : x.stylesheetPrimary? = none := by
        rw [stylesheetPrimary?, hnone]
        rfl
      exact ⟨_, _, rfl, hitems, by rw [hprimary, Option.toList_none, List.append_nil]⟩
    · next expansion hexpansion =>
      rw [x.stylesheetPrimary?_of_some hexpansion]
      simp only
      by_cases hplausible : x.isPlausible (x.stylesheetPrimary x.lead expansion).label x.short = true
      · rw [if_pos hplausible, hplausible, Bool.and_true]
        split
        · refine ⟨_, _, rfl, ?_, rfl⟩
          rw [List.map_append, hitems, List.map_append]
          rfl
        · -- its template is there already, so it would be dropped as a repetition
          next hold =>
          refine ⟨_, _, rfl, hitems, distinct_append_of_mem (.inr ?_)⟩
          rw [Bool.not_eq_true, Bool.not_eq_false'] at hold
          exact (exists_template_iff hitems).1 hold
      · rw [if_neg hplausible, Bool.eq_false_iff.2 hplausible, Bool.and_false]
        exact ⟨_, _, rfl, hitems, by rw [Option.toList_none, List.append_nil]⟩

/-! ### What is offered at a cursor -/

/-- The labels and templates that are offered are those of the offered candidates. -/
theorem shown_offersFor : allShown (offersFor x).value = x.offered.map Origin.shown := by
  unfold offersFor offered
  cases h : Dialect.family x.dialect with
  | markup =>
    rw [Traced.value_bind]
    exact allShown_offers? x.settings (x.shown_markup h)
  | stylesheet =>
    rw [Traced.value_bind, kept, if_neg (x.not_dropsEcho h)]
    obtain ⟨hnone, hcandidates⟩ | ⟨items, os, hsome, hshown, hdistinct⟩ := x.exists_stylesheet h
    · rw [hnone, hcandidates]
      rfl
    · rw [hsome, hdistinct]
      exact allShown_offers? x.settings hshown

end Context

/-- The context in which candidates for a position of a document are put together, if any are. -/
def contextAt? (engine : Engine) (document : Document) (position : Position) (language : String)
    (settings : Settings) (library : Library) (tuning : Tuning) : Option Context :=
  if settings.offer = .never then none
  else do
    let dialect ← Dialect.ofLanguage? language settings.excluded
    let line ← document.line? position.line
    let family := Dialect.family dialect
    let e ← (Extraction.ofLine engine.find line position (.forFamily family)
      tuning.maxFilters).value
    if family = .markup ∧
        isOpenTag (line.toList.take position.column) e.abbreviation.toList = true then none
    else
      let options := (ExpansionOptions.resolve dialect settings (Filter.joined? e.filters)
        library).value
      return ⟨engine, dialect, e, options, settings, library, tuning⟩

section

variable {engine : Engine} {document : Document} {position : Position} {language : String}
  {settings : Settings} {library : Library} {tuning : Tuning} {x : Context}

/-- What a context knows: the abbreviation in the line, and the options that are resolved for it. -/
theorem of_contextAt?
    (h : contextAt? engine document position language settings library tuning = some x) :
    ∃ line, Dialect.ofLanguage? language settings.excluded = some x.dialect ∧
      document.line? position.line = some line ∧
      Extraction.ofChars (fun stop => engine.find line stop (.forFamily (Dialect.family x.dialect)))
        line.toList position tuning.maxFilters = some x.extraction ∧
      x.options = (ExpansionOptions.resolve x.dialect settings
        (Filter.joined? x.extraction.filters) library).value ∧
      x.engine = engine ∧ x.settings = settings ∧ x.library = library ∧ x.tuning = tuning := by
  unfold contextAt? at h
  split at h
  · cases h
  obtain ⟨dialect, hdialect, h⟩ := Option.bind_eq_some_iff.1 h
  obtain ⟨line, hline, h⟩ := Option.bind_eq_some_iff.1 h
  obtain ⟨e, he, h⟩ := Option.bind_eq_some_iff.1 h
  rw [Extraction.value_ofLine] at he
  simp only at h
  split at h
  · cases h
  · obtain rfl := Option.some.inj h
    exact ⟨line, hdialect, hline, he, rfl, rfl, rfl, rfl, rfl⟩

end

/-- The candidates that are offered at a position of a document. -/
def offered (engine : Engine) (document : Document) (position : Position) (language : String)
    (settings : Settings) (library : Library) (tuning : Tuning) : List Origin :=
  (contextAt? engine document position language settings library tuning).elim [] Context.offered

theorem mem_offered_iff_exists {document : Document} {position : Position} {language : String}
    {settings : Settings} {library : Library} {tuning : Tuning} {o : Origin} :
    o ∈ offered engine document position language settings library tuning ↔
      ∃ x, contextAt? engine document position language settings library tuning = some x ∧
        o ∈ x.offered := by
  unfold offered
  cases contextAt? engine document position language settings library tuning with
  | none => simp
  | some x => simp

variable (engine : Engine) (document : Document) (position : Position) (language : String)
  (settings : Settings) (library : Library) (tuning : Tuning)

theorem value_complete :
    (complete engine document position language settings library tuning).value =
      (contextAt? engine document position language settings library tuning).bind fun x =>
        (offersFor x).value := by
  unfold complete contextAt?
  split
  · rfl
  cases hdialect : Dialect.ofLanguage? language settings.excluded with
  | none => rfl
  | some dialect =>
    cases hline : document.line? position.line with
    | none => rfl
    | some line =>
      simp only [completeLine, Traced.value_bind, value_reporting, Option.bind_eq_bind,
        Option.bind_some]
      cases Extraction.ofLine engine.find line position (.forFamily (Dialect.family dialect))
        tuning.maxFilters with
      | mk found events =>
        cases found with
        | none => rfl
        | some e =>
          simp only [Option.bind_some]
          split
          · rfl
          · rfl

/-- The labels and templates that are offered are those of the offered candidates. -/
theorem shown_complete :
    allShown (complete engine document position language settings library tuning).value =
      (offered engine document position language settings library tuning).map Origin.shown := by
  rw [value_complete, offered]
  cases contextAt? engine document position language settings library tuning with
  | none => rfl
  | some x => exact x.shown_offersFor

end Emmet.Completion
