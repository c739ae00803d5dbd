import Emmet.Engine.Lookup
import Emmet.Proofs.Completion.Origin

/-!
# The shape of what is offered

What is offered is put together from three sources of candidates, in their order: the abbreviation
itself, tags that go on from the typed tag, and snippets that do. On the way their sorting and their
kind may change, an abbreviation that is only repeated is dropped, and so are candidates whose
template is there already.

* `Context.markupSequence` : the candidates of markup from the three sources;
* `Context.exists_arranged` : they are what is put together, up to what changes on the way;
* `complete_shape` : nothing is new, nothing comes twice, and no template of the sequence is lost
  apart from a repeated abbreviation.
-/

namespace Emmet.Completion

theorem label_of_core {c d : Candidate} (h : core c = core d) : c.label = d.label := by
  have hlabel := congrArg Candidate.label h
  exact hlabel

theorem template_of_core {c d : Candidate} (h : core c = core d) : c.template = d.template := by
  have htemplate := congrArg Candidate.template h
  exact htemplate

theorem preview_of_core {c d : Candidate} (h : core c = core d) : c.preview = d.preview := by
  have hpreview := congrArg Candidate.preview h
  exact hpreview

/-! ### Keys -/

/-- The candidate for a key, if the key goes on from what is typed and has an expansion. -/
def keyCandidate? (engine : Engine) (q : Query) (options : ExpansionOptions) (key : String) :
    Option Candidate :=
  (q.restOf? key).bind fun rest =>
    match engine.expand (q.abbreviation ++ rest) options with
    | .ok expansion =>
      if expansion = "" then none
      else some (.ofExpansion (q.typed ++ rest) expansion q.detail q.range q.kind)
    | .error _ => none

/-- The candidates for all keys, in their order; none if nothing is typed. -/
def keyCandidates (engine : Engine) (keys : List String) (q : Query)
    (options : ExpansionOptions) : List Candidate :=
  if q.typed = "" then [] else keys.filterMap (keyCandidate? engine q options)

theorem value_suggest (engine : Engine) (q : Query) (options : ExpansionOptions) (key : String) :
    (suggest engine q options key).value = keyCandidate? engine q options key := by
  unfold suggest keyCandidate?
  cases q.restOf? key with
  | none => rfl
  | some rest =>
    simp only [Traced.value_bind, value_ask, Option.bind_some]
    cases engine.expand (q.abbreviation ++ rest) options with
    | error e => rfl
    | ok expansion => exact apply_ite Traced.value _ _ _

theorem value_suggestions (engine : Engine) (keys : List String) (q : Query)
    (options : ExpansionOptions) :
    (suggestions engine keys q options).value = keyCandidates engine keys q options := by
  unfold suggestions keyCandidates
  split
  · rfl
  · simp only [Traced.value_filterMap, value_suggest]

/-- A key that is suggested is what is typed, in lower case, with its rest. -/
theorem restOf?_eq_some {q : Query} {key rest : String} (h : q.restOf? key = some rest) :
    key.toList = Text.lower q.typed.toList ++ rest.toList ∧ (q.skipFull = true → rest ≠ "") := by
  unfold Query.restOf? at h
  split at h
  · next after hafter =>
    split at h
    · cases h
    · next hfull =>
      obtain rfl := Option.some.inj h
      rw [String.toList_ofList]
      refine ⟨(List.append_eq_of_isPrefixOf?_eq_some hafter).symm,
        fun hskip hempty => hfull ⟨hskip, ?_⟩⟩
      rw [← String.toList_ofList (l := after), hempty, String.toList_empty]
  · cases h

theorem exists_of_mem_keyCandidates {engine : Engine} {keys : List String} {q : Query}
    {options : ExpansionOptions} {c : Candidate} (h : c ∈ keyCandidates engine keys q options) :
    ∃ key ∈ keys, ∃ rest expansion, q.restOf? key = some rest ∧
      engine.expand (q.abbreviation ++ rest) options = .ok expansion ∧ expansion ≠ "" ∧
      c = .ofExpansion (q.typed ++ rest) expansion q.detail q.range q.kind := by
  unfold keyCandidates at h
  split at h
  · cases h
  · obtain ⟨key, hkey, hcandidate⟩ := List.mem_filterMap.1 h
    obtain ⟨rest, hrest, hc⟩ := Option.bind_eq_some_iff.1 hcandidate
    split at hc
    · next expansion hexpand =>
      split at hc
      · cases hc
      · next hne =>
        obtain rfl := Option.some.inj hc
        exact ⟨key, hkey, rest, expansion, hrest, hexpand, hne, rfl⟩
    · cases hc

theorem range_of_mem_keyCandidates {engine : Engine} {keys : List String} {q : Query}
    {options : ExpansionOptions} {c : Candidate} (h : c ∈ keyCandidates engine keys q options) :
    c.range = q.range := by
  obtain ⟨key, -, rest, expansion, -, -, -, rfl⟩ := exists_of_mem_keyCandidates h
  rfl

/-! ### Candidates with one template -/

theorem distinctTemplates_sublist (seen : List String) (items : List Candidate) :
    (distinctTemplates seen items).Sublist items := by
  induction items generalizing seen with
  | nil => exact .slnil
  | cons c items ih =>
    rw [distinctTemplates]
    split
    · exact (ih seen).cons c
    · exact (ih _).cons_cons c

theorem template_not_mem_of_mem_distinctTemplates {seen : List String} {items : List Candidate}
    {i : Candidate} (h : i ∈ distinctTemplates seen items) : i.template ∉ seen := by
  induction items generalizing seen with
  | nil => cases h
  | cons c items ih =>
    rw [distinctTemplates] at h
    split at h
    · exact ih h
    · next hc =>
      obtain rfl | h := List.mem_cons.1 h
      · exact hc
      · exact fun hseen => ih h (List.mem_cons_of_mem _ hseen)

theorem nodup_distinctTemplates (seen : List String) (items : List Candidate) :
    ((distinctTemplates seen items).map Candidate.template).Nodup := by
  induction items generalizing seen with
  | nil => exact List.nodup_nil
  | cons c items ih =>
    rw [distinctTemplates]
    split
    · exact ih seen
    · rw [List.map_cons]
      refine List.nodup_cons.2 ⟨fun h => ?_, ih _⟩
      obtain ⟨i, hi, htemplate⟩ := List.mem_map.1 h
      exact template_not_mem_of_mem_distinctTemplates hi (htemplate ▸ List.mem_cons_self)

theorem exists_mem_distinctTemplates {seen : List String} {items : List Candidate} {c : Candidate}
    (h : c ∈ items) (hseen : c.template ∉ seen) :
    ∃ i ∈ distinctTemplates seen items, i.template = c.template := by
  induction items generalizing seen with
  | nil => cases h
  | cons d items ih =>
    rw [distinctTemplates]
    obtain rfl | h := List.mem_cons.1 h
    · rw [if_neg hseen]
      exact ⟨c, List.mem_cons_self, rfl⟩
    · by_cases htemplate : d.template = c.template
      · rw [if_neg (htemplate ▸ hseen)]
        exact ⟨d, List.mem_cons_self, htemplate⟩
      · split
        · exact ih h hseen
        · have hnew : c.template ∉ d.template :: seen := by
            simpa [Ne.symm htemplate] using hseen
          obtain ⟨i, hi, hic⟩ := ih h hnew
          exact ⟨i, List.mem_cons_of_mem _ hi, hic⟩

/-- What is offered of some candidates: one for each template, in their order. -/
structure OffersOf (items : List Candidate) (offers : Offers) : Prop where
  isIncomplete : offers.isIncomplete = true
  ne_nil : offers.items ≠ []
  nodup : (offers.items.map Candidate.template).Nodup
  sublist : (offers.items.map core).Sublist (items.map core)
  exists_template : ∀ c ∈ items, ∃ i ∈ offers.items, i.template = c.template

theorem offersOf_of_offers? {settings : Settings} {items : List Candidate} {offers : Offers}
    (h : offers? settings items = some offers) : OffersOf items offers := by
  unfold offers? at h
  simp only at h
  generalize hcalled : (if settings.asSnippets = true then
    items.map fun i => { i with kind := .snippet } else items) = called at h
  -- what a candidate is called is no part of its core
  have hcore : called.map core = items.map core := by
    rw [← hcalled]
    split
    · rw [List.map_map]
      rfl
    · rfl
  split at h
  · cases h
  · next hne =>
    obtain rfl := Option.some.inj h
    refine ⟨rfl, hne, nodup_distinctTemplates [] called, ?_, fun c hc => ?_⟩
    · rw [← hcore]
      exact (distinctTemplates_sublist [] called).map core
    · obtain ⟨d, hd, hdc⟩ : ∃ d ∈ called, core d = core c := by
        rw [← List.mem_map, hcore]
        exact List.mem_map_of_mem hc
      obtain ⟨i, hi, hid⟩ := exists_mem_distinctTemplates hd List.not_mem_nil
      exact ⟨i, hi, hid.trans (template_of_core hdc)⟩

namespace Context

variable (x : Context)

/-! ### Markup -/

/-- The candidate for the abbreviation itself, in markup. -/
def primaryCandidate? : Option Candidate :=
  (x.primary? x.abbreviation x.knownKeys).value.map fun expansion =>
    .ofExpansion x.labelWithFilters expansion abbreviationDetail x.extraction.range .expansion

/-- The tags that go on from the typed tag, in the order of the table of tags. -/
def tagCandidates : List Candidate :=
  if x.dialect = "xml" then []
  else keyCandidates x.engine Tag.common (x.query x.tag abbreviationDetail .expansion true)
    x.options

/-- The snippets that go on from the typed tag: those of the engine, then those of the library, each
at its first place. -/
def snippetCandidates : List Candidate :=
  if x.settings.suggestions then
    keyCandidates x.engine (x.knownKeys.filter fun k => !Tag.isCommon k)
      (x.query x.tag abbreviationDetail .snippet true) x.options
  else []

/-- The candidates of markup from all sources. -/
def markupSequence : List Candidate :=
  x.primaryCandidate?.toList ++ x.tagCandidates ++ x.snippetCandidates

/-- The three sources put together: if only the last tag goes on, the candidates for it stay behind
the abbreviation itself. -/
def arrange (primary : Option Candidate) (tags snippets : List Candidate) : List Candidate :=
  let behind := primary.isSome && !snippets.isEmpty && x.tag != x.abbreviation
  let primary := if behind then
      primary.map fun p => { p with sortText := some ("0" ++ p.label) }
    else primary
  let snippets := if behind then
      snippets.map fun i =>
        { i with filterText := some x.abbreviation, sortText := some ("9" ++ x.abbreviation) }
    else snippets
  x.withoutEcho primary (primary.toList ++ tags ++ snippets)

theorem value_markup : x.markup.value =
    x.arrange x.primaryCandidate? x.tagCandidates x.snippetCandidates := by
  have hsuggestions (keys : List String) (q : Query) :
      (x.suggestions keys q).value = keyCandidates x.engine keys q x.options :=
    value_suggestions ..
  unfold markup tagCandidates snippetCandidates
  simp only [Traced.value_bind]
  -- tags and snippets are asked for or not, each for itself
  split
  · split
    · simp only [Traced.value_bind, Traced.value_pure, hsuggestions]
      rfl
    · rfl
  · split
    · simp only [Traced.value_bind, Traced.value_pure, hsuggestions]
      rfl
    · simp only [Traced.value_bind, Traced.value_pure, hsuggestions]
      rfl

/-- The sequence is what is put together, up to sorting and kind. -/
theorem exists_arranged : ∃ primary items, x.markup.value = x.withoutEcho primary items ∧
    primary.map core = x.primaryCandidate?.map core ∧
    items.map core = x.markupSequence.map core := by
  rw [value_markup]
  refine ⟨_, _, rfl, core_sorted, ?_⟩
  rw [List.map_append, List.map_append, core_behind, ← Option.toList_map, core_sorted,
    markupSequence, List.map_append, List.map_append, ← Option.toList_map]

theorem range_of_mem_markupSequence {c : Candidate} (h : c ∈ x.markupSequence) :
    c.range = x.extraction.range := by
  rw [markupSequence, List.mem_append, List.mem_append, Option.mem_toList] at h
  obtain (hprimary | htag) | hsnippet := h
  · obtain ⟨expansion, -, rfl⟩ := Option.map_eq_some_iff.1 hprimary
    rfl
  · unfold tagCandidates at htag
    split at htag
    · cases htag
    · exact range_of_mem_keyCandidates htag
  · unfold snippetCandidates at hsnippet
    split at hsnippet
    · exact range_of_mem_keyCandidates hsnippet
    · cases hsnippet

theorem shown_keyCandidates (engine : Engine) (keys : List String) (q : Query)
    (options : ExpansionOptions) : (keyCandidates engine keys q options).map shown =
      (keyOrigins engine keys q options).map Origin.shown := by
  rw [← value_suggestions, shown_suggestions]

theorem shown_markupSequence :
    x.markupSequence.map shown = x.markupCandidates.map Origin.shown := by
  have hprimary : x.primaryCandidate?.map shown = x.markupPrimary?.map Origin.shown :=
    x.shown_ofExpansion_primary
  have htags : x.tagCandidates.map shown = x.tagOrigins.map Origin.shown := by
    unfold tagCandidates tagOrigins
    split
    · rfl
    · exact shown_keyCandidates ..
  have hsnippets : x.snippetCandidates.map shown = x.snippetOrigins.map Origin.shown := by
    unfold snippetCandidates snippetOrigins
    split
    · exact shown_keyCandidates ..
    · rfl
  rw [markupSequence, markupCandidates, List.map_append, List.map_append, List.map_append,
    List.map_append, shown_toList hprimary, htags, hsnippets]

/-- Only a repeated abbreviation is dropped from the sequence. -/
theorem markup_shape (h : Dialect.family x.dialect = .markup) :
    (x.markup.value.map core).Sublist (x.markupSequence.map core) ∧
    ∀ c ∈ x.markupSequence, (∃ i ∈ x.markup.value, core i = core c) ∨
      (x.DropsEcho ∧ c.label = x.labelWithFilters) := by
  obtain ⟨primary, items, hvalue, hprimary, hitems⟩ := x.exists_arranged
  have hshown : primary.map shown = x.markupPrimary?.map Origin.shown := by
    rw [← x.shown_ofExpansion_primary]
    exact shown_of_core_primary hprimary
  -- so the condition on the number of candidates is one on `items`
  have hlength : items.length = x.candidates.length := by
    have hsame := (map_shown_of_map_core hitems).trans x.shown_markupSequence
    rw [candidates, h]
    simpa using congrArg List.length hsame
  rw [hvalue, x.withoutEcho_eq hshown hlength, ← hitems]
  have hfind : ∀ c ∈ x.markupSequence, ∃ i ∈ items, core i = core c := by
    intro c hc
    rw [← List.mem_map, hitems]
    exact List.mem_map_of_mem hc
  split
  · next hdrops =>
    refine ⟨List.filter_sublist.map core, fun c hc => ?_⟩
    obtain ⟨i, hi, hic⟩ := hfind c hc
    by_cases hlabel : i.label = x.labelWithFilters
    · exact .inr ⟨hdrops, (label_of_core hic).symm.trans hlabel⟩
    · exact .inl ⟨i, List.mem_filter.2 ⟨hi, bne_iff_ne.2 hlabel⟩, hic⟩
  · exact ⟨List.Sublist.refl _, fun c hc => .inl (hfind c hc)⟩

/-! ### Style sheets -/

/-- The properties and values that go on from the typed text. -/
def propertyCandidates : List Candidate :=
  keyCandidates x.engine (x.library.stylesheetKeys x.dialect)
    (x.query x.abbreviation snippetDetail .snippet false) x.options

/-- A style sheet gives nothing only if the typed text is left to the plain completion, and all its
candidates replace the abbreviation. -/
theorem stylesheet_shape : (x.stylesheet.value = none ↔ x.isDeferred = true) ∧
    ∀ items, x.stylesheet.value = some items → ∀ i ∈ items, i.range = x.extraction.range := by
  have hsuggestions : (x.suggestions (x.library.stylesheetKeys x.dialect)
      (x.query x.abbreviation snippetDetail .snippet false)).value = x.propertyCandidates :=
    value_suggestions ..
  have hproperties : ∀ i ∈ x.propertyCandidates, i.range = x.extraction.range :=
    fun i hi => range_of_mem_keyCandidates hi
  unfold stylesheet
  simp only [Traced.value_bind]
  -- all ways but the first give the properties, some with the abbreviation behind them
  split
  · next hdeferred =>
    exact ⟨iff_of_true rfl hdeferred,
      fun items hitems => absurd hitems (Option.some_ne_none _).symm⟩
  · next hdeferred =>
    simp only [Traced.value_bind, hsuggestions]
    split
    · exact ⟨iff_of_false (Option.some_ne_none _) hdeferred,
        fun items hitems => Option.some.inj hitems ▸ hproperties⟩
    · split
      · refine ⟨iff_of_false (Option.some_ne_none _) hdeferred, fun items hitems i hi => ?_⟩
        obtain rfl := Option.some.inj hitems
        obtain hi | hi := List.mem_append.1 hi
        · exact hproperties i hi
        · obtain rfl := List.mem_singleton.1 hi
          rfl
      · exact ⟨iff_of_false (Option.some_ne_none _) hdeferred,
          fun items hitems => Option.some.inj hitems ▸ hproperties⟩

end Context

/-! ### What is offered at a cursor -/

variable {engine : Engine} {document : Document} {position : Position} {language : String}
  {settings : Settings} {library : Library} {tuning : Tuning} {offers : Offers}

/-- **The shape of the list.** What is offered is never complete, inserts different templates, and
replaces the extracted abbreviation; it is empty only where a style sheet leaves the typed text to
the plain completion of properties. In markup it is a part of the sequence of candidates, in its
order, and each template of the sequence is there, apart from those labelled like an abbreviation
that is only repeated. -/
theorem complete_shape
    (h : (complete engine document position language settings library tuning).value =
      some offers) :
    ∃ x, contextAt? engine document position language settings library tuning = some x ∧
      offers.isIncomplete = true ∧
      (offers.items.map Candidate.template).Nodup ∧
      (∀ i ∈ offers.items, i.range = x.extraction.range) ∧
      (offers.items = [] ↔ Dialect.family x.dialect = .stylesheet ∧ x.isDeferred = true) ∧
      (Dialect.family x.dialect = .markup →
        (offers.items.map core).Sublist (x.markupSequence.map core) ∧
        ∀ c ∈ x.markupSequence, (∃ i ∈ offers.items, i.template = c.template) ∨
          (x.DropsEcho ∧ c.label = x.labelWithFilters)) := by
  rw [value_complete] at h
  obtain ⟨x, hx, hoffers⟩ := Option.bind_eq_some_iff.1 h
  refine ⟨x, hx, ?_⟩
  unfold offersFor at hoffers
  cases hfamily : Dialect.family x.dialect with
  | markup =>
    rw [hfamily, Traced.value_bind] at hoffers
    obtain ⟨hincomplete, hne, hnodup, hsublist, htemplates⟩ := offersOf_of_offers? hoffers
    obtain ⟨hmarkup, hdropped⟩ := x.markup_shape hfamily
    have hsequence := hsublist.trans hmarkup
    refine ⟨hincomplete, hnodup, fun i hi => ?_, iff_of_false hne nofun, fun _ =>
      ⟨hsequence, fun c hc => ?_⟩⟩
    · obtain ⟨c, hc, hci⟩ := List.mem_map.1 (hsequence.subset (List.mem_map_of_mem hi))
      have hsame := congrArg Candidate.range hci
      have hrange := x.range_of_mem_markupSequence hc
      exact hsame.symm.trans hrange
    · obtain ⟨i, hi, hic⟩ | hecho := hdropped c hc
      · obtain ⟨j, hj, hji⟩ := htemplates i hi
        exact .inl ⟨j, hj, hji.trans (template_of_core hic)⟩
      · exact .inr hecho
  | stylesheet =>
    rw [hfamily, Traced.value_bind] at hoffers
    obtain ⟨hnone, hrange⟩ := x.stylesheet_shape
    cases hvalue : x.stylesheet.value with
    | none =>
      rw [hvalue] at hoffers
      obtain rfl := Option.some.inj hoffers
      exact ⟨rfl, List.nodup_nil, nofun, iff_of_true rfl ⟨rfl, hnone.1 hvalue⟩, nofun⟩
    | some items =>
      rw [hvalue] at hoffers
      obtain ⟨hincomplete, hne, hnodup, hsublist, -⟩ := offersOf_of_offers? hoffers
      have hkept : ¬ x.isDeferred = true := fun hdeferred => by
        rw [hnone.2 hdeferred] at hvalue
        cases hvalue
      refine ⟨hincomplete, hnodup, fun i hi => ?_, iff_of_false hne fun h => hkept h.2, nofun⟩
      obtain ⟨c, hc, hci⟩ := List.mem_map.1 (hsublist.subset (List.mem_map_of_mem hi))
      have hsame := congrArg Candidate.range hci
      exact hsame.symm.trans (hrange items hvalue c hc)

/-- An engine that only repeats `a:b` and has the same template for two keys that go on from it. -/
def repeatedLink : Engine :=
  Lookup.engine {
    expansions := [("a:b", some "<a:b>$\x7b1\x7d</a:b>"), ("a:bc", some "<a>$\x7b1\x7d</a>"),
      ("a:bd", some "<a>$\x7b1\x7d</a>")]
    keys := ["a:bc", "a:bd"] }

theorem shown_repeatedLink :
    allShown (complete repeatedLink (.text "a:b") ⟨0, 3⟩ "html" {} {} {}).value =
      [("a:bc", "<a>$\x7b0\x7d</a>")] := by
  decide +kernel

/-- The repeated abbreviation is dropped, and of two keys with one template the first is offered. -/
theorem complete_shape_repeatedLink : ∃ offers,
    (complete repeatedLink (.text "a:b") ⟨0, 3⟩ "html" {} {} {}).value = some offers ∧
    allShown (some offers) = [("a:bc", "<a>$\x7b0\x7d</a>")] ∧
    offers.isIncomplete = true ∧ (offers.items.map Candidate.template).Nodup := by
  have hshown := List.mem_singleton_self ("a:bc", "<a>$\x7b0\x7d</a>")
  rw [← shown_repeatedLink] at hshown
  obtain ⟨offers, h, -⟩ := mem_allShown_iff.1 hshown
  obtain ⟨x, -, hincomplete, hnodup, -⟩ := complete_shape h
  exact ⟨offers, h, h ▸ shown_repeatedLink, hincomplete, hnodup⟩

end Emmet.Completion
