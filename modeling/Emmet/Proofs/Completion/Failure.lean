import Emmet.Engine.Lookup
import Emmet.Proofs.Completion.Origin
import Mathlib.Data.Set.Insert

/-!
# Completions of an engine that fails

An engine that fails on some abbreviations should offer what it offers for the others all the same.
This file compares two engines that differ in this only.

* `Engine.Fails` : an engine that fails on a set of abbreviations, and else is a given one;
* `Context.candidates_of_fails` : of all candidates, just those that it fails on are missing;
* `Context.Shadowed` : an offered candidate comes up behind another one with its template, which is
  dropped along with a repeated abbreviation only if the abbreviation expands;
* `complete_of_fails` : those are the only candidates for other abbreviations that get lost.
-/

namespace Emmet

/-- The second engine fails on the abbreviations in `X`, and else it is the first one. -/
structure Engine.Fails (engine : Engine) (X : Set String) (failing : Engine) : Prop where
  find : failing.find = engine.find
  snippetKeys : failing.snippetKeys = engine.snippetKeys
  error : ∀ a ∈ X, ∀ options, ∃ e, failing.expand a options = .error e
  expand : ∀ a ∉ X, ∀ options, failing.expand a options = engine.expand a options

namespace Completion

variable {engine failing : Engine} {X : Set String} [DecidablePred (· ∈ X)]

/-! ### The candidates of an engine that fails -/

/-- The expansion did not fail. -/
def survives (X : Set String) [DecidablePred (· ∈ X)] (o : Origin) : Bool := decide (o.source ∉ X)

theorem filter_survives {o : Option Origin} (source : String) (h : ∀ i ∈ o, i.source = source) :
    o.filter (survives X) = if source ∈ X then none else o := by
  cases o with
  | none => simp
  | some i =>
    obtain rfl := h i rfl
    simp [survives, Option.filter]

theorem keyOrigin?_of_fails (h : engine.Fails X failing) (q : Query) (options : ExpansionOptions)
    (key : String) : keyOrigin? failing q options key =
      (keyOrigin? engine q options key).filter (survives X) := by
  unfold keyOrigin?
  cases q.restOf? key with
  | none => rfl
  | some rest =>
    rw [Option.bind_some, Option.bind_some, filter_survives (q.abbreviation ++ rest)]
    · by_cases hX : q.abbreviation ++ rest ∈ X
      · obtain ⟨e, he⟩ := h.error _ hX options
        rw [if_pos hX, he]
      · rw [if_neg hX, h.expand _ hX]
    · intro i hi
      split at hi
      · split at hi
        · cases hi
        · obtain rfl := Option.some.inj hi
          rfl
      · cases hi

theorem keyOrigins_of_fails (h : engine.Fails X failing) (keys : List String) (q : Query)
    (options : ExpansionOptions) : keyOrigins failing keys q options =
      (keyOrigins engine keys q options).filter (survives X) := by
  unfold keyOrigins
  split
  · rfl
  · rw [List.filter_filterMap]
    simp only [keyOrigin?_of_fails h]

namespace Context

/-- The context with another engine. -/
def withEngine (x : Context) (engine : Engine) : Context := { x with engine }

variable {x : Context}

theorem primary?_of_fails (h : x.engine.Fails X failing) (a : String) (keys : List String) :
    ((x.withEngine failing).primary? a keys).value =
      if a ∈ X then none else (x.primary? a keys).value := by
  have hvalue : ((x.withEngine failing).primary? a keys).value =
      if Abbreviation.isValid x.dialect x.abbreviation then
        (failing.expand a x.options).toOption.bind (x.worthwhile? a keys)
      else none := (x.withEngine failing).value_primary? a keys
  rw [hvalue, value_primary?]
  by_cases hX : a ∈ X
  · obtain ⟨e, he⟩ := h.error a hX x.options
    rw [if_pos hX, he]
    exact ite_self none
  · rw [if_neg hX, h.expand a hX]

omit [DecidablePred (· ∈ X)] in
theorem knownKeys_of_fails (h : x.engine.Fails X failing) :
    (x.withEngine failing).knownKeys = x.knownKeys := by
  unfold knownKeys
  rw [show (x.withEngine failing).engine.snippetKeys = x.engine.snippetKeys from h.snippetKeys]
  rfl

theorem markupPrimary?_of_fails (h : x.engine.Fails X failing) :
    (x.withEngine failing).markupPrimary? =
      if x.abbreviation ∈ X then none else x.markupPrimary? := by
  have hprimary := primary?_of_fails h x.abbreviation x.knownKeys
  rw [← knownKeys_of_fails h] at hprimary
  unfold markupPrimary?
  rw [show (x.withEngine failing).abbreviation = x.abbreviation from rfl, hprimary,
    knownKeys_of_fails h]
  split
  · rfl
  · rfl

theorem stylesheetPrimary?_of_fails (h : x.engine.Fails X failing) :
    (x.withEngine failing).stylesheetPrimary? =
      if x.short ∈ X then none else x.stylesheetPrimary? := by
  have hprimary := primary?_of_fails h x.short []
  unfold stylesheetPrimary?
  rw [show (x.withEngine failing).short = x.short from rfl, hprimary]
  split
  · rfl
  · rfl

/-- **The candidates of an engine that fails** are those for the abbreviations that it expands. -/
theorem candidates_of_fails (h : x.engine.Fails X failing) :
    (x.withEngine failing).candidates = x.candidates.filter (survives X) := by
  have htags : (x.withEngine failing).tagOrigins = x.tagOrigins.filter (survives X) := by
    unfold tagOrigins
    rw [show (x.withEngine failing).dialect = x.dialect from rfl]
    split
    · rfl
    · exact keyOrigins_of_fails h ..
  have hsnippets : (x.withEngine failing).snippetOrigins = x.snippetOrigins.filter (survives X) := by
    unfold snippetOrigins
    rw [show (x.withEngine failing).settings = x.settings from rfl, knownKeys_of_fails h]
    split
    · exact keyOrigins_of_fails h ..
    · rfl
  have hproperties : (x.withEngine failing).propertyOrigins =
      x.propertyOrigins.filter (survives X) := keyOrigins_of_fails h ..
  unfold candidates
  rw [show (x.withEngine failing).dialect = x.dialect from rfl]
  cases Dialect.family x.dialect with
  | markup =>
    simp only [markupCandidates]
    rw [htags, hsnippets, markupPrimary?_of_fails h, List.filter_append, List.filter_append,
      ← Option.toList_filter, filter_survives _ fun _ => x.source_of_markupPrimary?]
  | stylesheet =>
    simp only [stylesheetCandidates]
    rw [show (x.withEngine failing).isDeferred = x.isDeferred from rfl]
    split
    · rfl
    · rw [hproperties, stylesheetPrimary?_of_fails h, List.filter_append, ← Option.toList_filter,
        filter_survives _ fun _ => x.source_of_stylesheetPrimary?]

end Context

/-! ### What is offered -/

theorem find?_filter_of_find? {α : Type} {p q : α → Bool} {l : List α} {a : α}
    (h : l.find? q = some a) (hp : p a = true) : (l.filter p).find? q = some a := by
  obtain ⟨hq, as, bs, hl, has⟩ := List.find?_eq_some_iff_append.1 h
  rw [List.find?_filter, List.find?_eq_some_iff_append]
  refine ⟨by simp [hp, hq], as, bs, hl, fun b hb => ?_⟩
  have hb : q b = false := by simpa using has b hb
  simp [hb]

namespace Context

variable {x : Context} {o : Origin}

/-- An offered candidate comes up behind another one with its template once the typed abbreviation
fails: that one is labelled like the abbreviation and is dropped along with it while the
abbreviation expands, to an element that only repeats it. -/
structure Shadowed (x : Context) (X : Set String) (o : Origin) : Prop where
  fails : x.abbreviation ∈ X
  echo : x.DropsEcho
  first : ∃ before i after, x.candidates = before ++ i :: after ∧
    (∀ j ∈ before, j.template = o.template → j.source ∈ X) ∧
    i.source ∉ X ∧ i.template = o.template ∧ i.label = x.labelWithFilters

/-- The first of the candidates left with a template. -/
theorem find?_survivors_eq_some_iff {template : String} {i : Origin} :
    (x.candidates.filter (survives X)).find? (fun j => j.template == template) = some i ↔
      ∃ before after, x.candidates = before ++ i :: after ∧
        (∀ j ∈ before, j.template = template → j.source ∈ X) ∧
        i.source ∉ X ∧ i.template = template := by
  rw [List.find?_filter, List.find?_eq_some_iff_append]
  simp only [survives, decide_eq_true_eq, beq_iff_eq]
  constructor
  · rintro ⟨⟨hsource, htemplate⟩, before, after, hcandidates, hbefore⟩
    refine ⟨before, after, hcandidates, fun j hj heq => ?_, hsource, htemplate⟩
    simpa [heq] using hbefore j hj
  · rintro ⟨before, after, hcandidates, hbefore, hsource, htemplate⟩
    refine ⟨⟨hsource, htemplate⟩, before, after, hcandidates, fun j hj => ?_⟩
    by_cases heq : j.template = template
    · simp [hbefore j hj heq]
    · simp [heq]

theorem two_le_length_of_mem {α : Type} {l : List α} {a b : α} (ha : a ∈ l) (hb : b ∈ l)
    (hne : a ≠ b) : 2 ≤ l.length := by
  obtain ⟨as, bs, rfl⟩ := List.append_of_mem ha
  have hrest : b ∈ as ++ bs := by simpa [Ne.symm hne] using hb
  have := List.length_pos_of_mem hrest
  rw [List.length_append] at this
  simp only [List.length_append, List.length_cons]
  omega

/-- While the typed abbreviation expands, it is dropped if any other candidate is left. -/
theorem dropsEcho_of_fails (h : x.engine.Fails X failing) (hecho : x.DropsEcho)
    (habbreviation : x.abbreviation ∉ X) (ho : o ∈ x.candidates) (hX : o.source ∉ X)
    (hlabel : o.label ≠ x.labelWithFilters) : (x.withEngine failing).DropsEcho := by
  obtain ⟨hhtml, -, hcolon, htemplate⟩ := hecho
  obtain ⟨p, hp, -⟩ := Option.map_eq_some_iff.1 htemplate
  have hpX : p.source ∉ X := by rwa [x.source_of_markupPrimary? hp]
  have hplabel : p.label = x.labelWithFilters := x.label_of_markupPrimary? hp
  have hpmem : p ∈ x.candidates := by
    rw [candidates, hhtml]
    simp [show Dialect.family "html" = .markup from rfl, markupCandidates, hp]
  refine ⟨hhtml, ?_, hcolon, ?_⟩
  · -- the abbreviation itself is left, too
    rw [candidates_of_fails h]
    refine two_le_length_of_mem (a := o) (b := p) ?_ ?_ fun heq => hlabel (heq ▸ hplabel)
    · exact List.mem_filter.2 ⟨ho, by simpa [survives] using hX⟩
    · exact List.mem_filter.2 ⟨hpmem, by simpa [survives] using hpX⟩
  · rw [markupPrimary?_of_fails h, if_neg habbreviation, htemplate]
    rfl

theorem dropsEcho_of_dropsEcho_failing (h : x.engine.Fails X failing)
    (hecho : (x.withEngine failing).DropsEcho) : x.DropsEcho ∧ x.abbreviation ∉ X := by
  obtain ⟨hhtml, hlength, hcolon, htemplate⟩ := hecho
  rw [markupPrimary?_of_fails h] at htemplate
  rw [candidates_of_fails h] at hlength
  by_cases hX : x.abbreviation ∈ X
  · rw [if_pos hX] at htemplate
    cases htemplate
  · rw [if_neg hX] at htemplate
    exact ⟨⟨hhtml, Nat.le_trans hlength (List.length_filter_le ..), hcolon, htemplate⟩, hX⟩

/-- Once the typed abbreviation fails nothing is dropped any more. -/
theorem kept_of_abbreviation_fails (h : x.engine.Fails X failing) (hfails : x.abbreviation ∈ X) :
    (x.withEngine failing).kept = x.candidates.filter (survives X) := by
  rw [kept, if_neg fun hecho => (dropsEcho_of_dropsEcho_failing h hecho).2 hfails,
    candidates_of_fails h]

theorem label_ne_of_dropsEcho (ho : o ∈ x.offered) (hecho : x.DropsEcho) :
    o.label ≠ x.labelWithFilters := by
  have hkept : o ∈ x.kept := List.mem_of_find?_eq_some (mem_offered_iff.1 ho)
  rw [kept, if_pos hecho, List.mem_filter, bne_iff_ne] at hkept
  exact hkept.2

/-- Unless the typed abbreviation fails and is dropped otherwise, both engines drop the same. -/
theorem kept_of_fails (h : x.engine.Fails X failing) (ho : o ∈ x.offered) (hX : o.source ∉ X)
    (hnot : ¬ (x.abbreviation ∈ X ∧ x.DropsEcho)) :
    (x.withEngine failing).kept = x.kept.filter (survives X) := by
  by_cases hecho : x.DropsEcho
  · have hfails : x.abbreviation ∉ X := fun hfails => hnot ⟨hfails, hecho⟩
    have hecho' : (x.withEngine failing).DropsEcho :=
      dropsEcho_of_fails h hecho hfails (mem_candidates_of_mem_offered ho) hX
        (label_ne_of_dropsEcho ho hecho)
    rw [kept, if_pos hecho', kept, if_pos hecho, candidates_of_fails h]
    exact List.filter_comm ..
  · rw [kept, if_neg fun hecho' => hecho (dropsEcho_of_dropsEcho_failing h hecho').1, kept,
      if_neg hecho, candidates_of_fails h]

theorem shadowed_iff {i : Origin} (hfails : x.abbreviation ∈ X) (hecho : x.DropsEcho)
    (hi : (x.candidates.filter (survives X)).find? (fun j => j.template == o.template) = some i) :
    x.Shadowed X o ↔ i.label = x.labelWithFilters := by
  constructor
  · rintro ⟨-, -, before, j, after, hcandidates, hbefore, hsource, htemplate, hlabel⟩
    have hj := find?_survivors_eq_some_iff.2
      ⟨before, after, hcandidates, hbefore, hsource, htemplate⟩
    obtain rfl := Option.some.inj (hi.symm.trans hj)
    exact hlabel
  · intro hlabel
    obtain ⟨before, after, hcandidates, hbefore, hsource, htemplate⟩ :=
      find?_survivors_eq_some_iff.1 hi
    exact ⟨hfails, hecho, before, i, after, hcandidates, hbefore, hsource, htemplate, hlabel⟩

/-- With another label than the abbreviation, the first candidate left is the one that is offered
while the abbreviation expands. -/
theorem eq_of_label_ne {i : Origin} (hecho : x.DropsEcho) (ho : o ∈ x.offered) (hX : o.source ∉ X)
    (hi : (x.candidates.filter (survives X)).find? (fun j => j.template == o.template) = some i)
    (hlabel : i.label ≠ x.labelWithFilters) : i = o := by
  have ho' := mem_offered_iff.1 ho
  rw [kept, if_pos hecho] at ho'
  have hlabel' : (i.label != x.labelWithFilters) = true := bne_iff_ne.2 hlabel
  -- both are the first of those that survive and have another label
  have hfirst := find?_filter_of_find? ho' (show survives X o = true by simpa [survives] using hX)
  have hfirst' := find?_filter_of_find? (p := fun j => j.label != x.labelWithFilters) hi hlabel'
  rw [List.filter_comm, hfirst'] at hfirst
  exact Option.some.inj hfirst

/-- The failing engine offers something with the template of every candidate for an abbreviation
that it expands, and with the label of the candidate unless that is shadowed. -/
theorem exists_offered_of_fails (h : x.engine.Fails X failing) (ho : o ∈ x.offered)
    (hX : o.source ∉ X) : ∃ i ∈ (x.withEngine failing).offered, i.template = o.template ∧
      (i.label = o.label ↔ ¬ x.Shadowed X o) := by
  have hsurvives : survives X o = true := by simpa [survives] using hX
  by_cases hcase : x.abbreviation ∈ X ∧ x.DropsEcho
  · -- what was dropped beside the abbreviation comes back, and may come first
    obtain ⟨hfails, hecho⟩ := hcase
    obtain ⟨i, hi⟩ : ∃ i, (x.candidates.filter (survives X)).find?
        (fun j => j.template == o.template) = some i := by
      rw [← Option.isSome_iff_exists, List.find?_isSome]
      exact ⟨o, List.mem_filter.2 ⟨mem_candidates_of_mem_offered ho, hsurvives⟩, beq_self_eq_true _⟩
    have htemplate : i.template = o.template := by simpa using List.find?_some hi
    refine ⟨i, ?_, htemplate, ?_⟩
    · rw [mem_offered_iff, kept_of_abbreviation_fails h hfails, htemplate]
      exact hi
    · rw [shadowed_iff hfails hecho hi]
      constructor
      · intro hsame hlabel
        exact label_ne_of_dropsEcho ho hecho (hsame ▸ hlabel)
      · intro hlabel
        rw [eq_of_label_ne hecho ho hX hi hlabel]
  · refine ⟨o, ?_, rfl, iff_of_true rfl fun hshadowed => hcase ⟨hshadowed.fails, hshadowed.echo⟩⟩
    rw [mem_offered_iff, kept_of_fails h ho hX hcase]
    exact find?_filter_of_find? (mem_offered_iff.1 ho) hsurvives

end Context

/-! ### Completions at a cursor -/

section

variable {document : Document} {position : Position} {language : String} {settings : Settings}
  {library : Library} {tuning : Tuning}

omit [DecidablePred (· ∈ X)] in
theorem contextAt?_of_fails (h : engine.Fails X failing) :
    contextAt? failing document position language settings library tuning =
      (contextAt? engine document position language settings library tuning).map
        fun x => x.withEngine failing := by
  unfold contextAt?
  rw [h.find]
  split
  · rfl
  cases Dialect.ofLanguage? language settings.excluded with
  | none => rfl
  | some dialect =>
    cases document.line? position.line with
    | none => rfl
    | some line =>
      simp only [Option.bind_eq_bind, Option.bind_some]
      cases (Extraction.ofLine engine.find line position (.forFamily (Dialect.family dialect))
        tuning.maxFilters).value with
      | none => rfl
      | some e =>
        simp only [Option.bind_some]
        split
        · rfl
        · rfl

end

/-- What is offered holds a candidate with a label and a template if such an origin is offered. -/
theorem exists_item_iff {offers : Offers} {os : List Origin} {label template : String}
    (h : allShown (some offers) = os.map Origin.shown) :
    (∃ i ∈ offers.items, i.label = label ∧ i.template = template) ↔
      ∃ o ∈ os, o.label = label ∧ o.template = template := by
  have hshown : (label, template) ∈ allShown (some offers) ↔
      (label, template) ∈ os.map Origin.shown := by rw [h]
  simpa [mem_allShown_iff, Origin.shown] using hshown

omit [DecidablePred (· ∈ X)] in
/-- **Where an engine fails on some abbreviations, the candidates for the others are offered all the
same**, unless they are shadowed; and if they are, something with their template is offered. -/
theorem complete_of_fails (h : engine.Fails X failing) (document : Document) (position : Position)
    (language : String) (settings : Settings) (library : Library) (tuning : Tuning) :
    allShown (complete engine document position language settings library tuning).value =
      (offered engine document position language settings library tuning).map Origin.shown ∧
    ∀ o ∈ offered engine document position language settings library tuning,
      (∃ options expansion, engine.expand o.source options = .ok expansion) ∧
      (o.source ∉ X → ∃ offers,
        (complete failing document position language settings library tuning).value =
          some offers ∧
        (∃ i ∈ offers.items, i.template = o.template) ∧
        ((∃ i ∈ offers.items, i.label = o.label ∧ i.template = o.template) ↔
          ¬ ∃ x, contextAt? engine document position language settings library tuning = some x ∧
            x.Shadowed X o)) := by
  classical
  refine ⟨shown_complete .., fun o ho => ?_⟩
  obtain ⟨x, hx, hox⟩ := mem_offered_iff_exists.1 ho
  obtain ⟨-, -, -, -, -, rfl, -⟩ := of_contextAt? hx
  refine ⟨⟨x.options, Context.expand_of_mem_candidates (Context.mem_candidates_of_mem_offered hox)⟩,
    fun hX => ?_⟩
  obtain ⟨i, hi, htemplate, hlabel⟩ := Context.exists_offered_of_fails h hox hX
  have hshown : allShown
      (complete failing document position language settings library tuning).value =
        (x.withEngine failing).offered.map Origin.shown := by
    rw [shown_complete, offered, contextAt?_of_fails h, hx]
    rfl
  have hmem : (i.label, i.template) ∈ allShown
      (complete failing document position language settings library tuning).value := by
    rw [hshown]
    exact List.mem_map_of_mem hi
  obtain ⟨offers, hoffers, item, hitem, -, hitemTemplate⟩ := mem_allShown_iff.1 hmem
  rw [hoffers] at hshown
  refine ⟨offers, hoffers, ⟨item, hitem, hitemTemplate.trans htemplate⟩, ?_⟩
  -- of the candidates that the failing engine offers, only `i` has the template
  have honly : (∃ j ∈ (x.withEngine failing).offered, j.label = o.label ∧
      j.template = o.template) ↔ i.label = o.label := by
    constructor
    · rintro ⟨j, hj, hjlabel, hjtemplate⟩
      rw [← hjlabel, Context.eq_of_mem_offered hi hj (htemplate.trans hjtemplate.symm)]
    · exact fun hsame => ⟨i, hi, hsame, htemplate⟩
  rw [exists_item_iff hshown, honly, hlabel, hx]
  simp

/-! ### A candidate that gets lost -/

/-- Engines that know two snippets with one template, one of which is written like the abbreviation
`a:b` with a filter. -/
def twoSnippets (expansion : Option String) : Engine :=
  Lookup.engine {
    expansions := [("a:b", expansion), ("a:b|c", some "<i>$\x7b1\x7d</i>"),
      ("a:bz", some "<i>$\x7b1\x7d</i>")]
    keys := ["a:b|c", "a:bz"] }

theorem fails_twoSnippets (expansion : String) :
    (twoSnippets (some expansion)).Fails {"a:b"} (twoSnippets none) where
  find := rfl
  snippetKeys := rfl
  error := by
    rintro a rfl options
    exact ⟨_, rfl⟩
  expand := by
    intro a ha options
    have hne : "a:b" ≠ a := fun h => ha h.symm
    simp [twoSnippets, Lookup.engine, Lookup.expand, Table.find?, hne]

/-- While `a:b` expands, to an element that only repeats it, the first of the snippets is dropped
along with it. -/
theorem offered_twoSnippets : offered (twoSnippets (some "<a:b>$\x7b1\x7d</a:b>")) (.text "a:b|c")
    ⟨0, 5⟩ "html" {} {} {} = [⟨"a:bz", "a:bz", "<i>$\x7b0\x7d</i>"⟩] := by
  decide +kernel

/-- Once `a:b` fails, it is the first of the snippets that is offered. -/
theorem shown_twoSnippets_none :
    allShown (complete (twoSnippets none) (.text "a:b|c") ⟨0, 5⟩ "html" {} {} {}).value =
      [("a:b|c", "<i>$\x7b0\x7d</i>")] := by
  decide +kernel

/-- The snippet `a:bz` is offered while `a:b` expands, and no longer once `a:b` fails, though `a:bz`
expands as before. -/
theorem complete_loses_twoSnippets :
    let engine := twoSnippets (some "<a:b>$\x7b1\x7d</a:b>")
    let failing := twoSnippets none
    let o : Origin := ⟨"a:bz", "a:bz", "<i>$\x7b0\x7d</i>"⟩
    engine.Fails {"a:b"} failing ∧ o.source ∉ ({"a:b"} : Set String) ∧
      offered engine (.text "a:b|c") ⟨0, 5⟩ "html" {} {} {} = [o] ∧
      allShown (complete engine (.text "a:b|c") ⟨0, 5⟩ "html" {} {} {}).value = [o.shown] ∧
      allShown (complete failing (.text "a:b|c") ⟨0, 5⟩ "html" {} {} {}).value =
        [("a:b|c", o.template)] := by
  refine ⟨fails_twoSnippets _, by simp, offered_twoSnippets, ?_, shown_twoSnippets_none⟩
  rw [shown_complete, offered_twoSnippets]
  rfl

/-- At `a:b|c` the snippet `a:bz` is shadowed, so only its template is offered. -/
theorem complete_of_fails_twoSnippets :
    let engine := twoSnippets (some "<a:b>$\x7b1\x7d</a:b>")
    let failing := twoSnippets none
    let o : Origin := ⟨"a:bz", "a:bz", "<i>$\x7b0\x7d</i>"⟩
    engine.Fails {"a:b"} failing ∧ o ∈ offered engine (.text "a:b|c") ⟨0, 5⟩ "html" {} {} {} ∧
      o.source ∉ ({"a:b"} : Set String) ∧
      (∃ x, contextAt? engine (.text "a:b|c") ⟨0, 5⟩ "html" {} {} {} = some x ∧
        x.Shadowed {"a:b"} o) ∧
      ∃ offers, (complete failing (.text "a:b|c") ⟨0, 5⟩ "html" {} {} {}).value = some offers ∧
        ∃ i ∈ offers.items, i.template = o.template := by
  have h := fails_twoSnippets "<a:b>$\x7b1\x7d</a:b>"
  have ho : ⟨"a:bz", "a:bz", "<i>$\x7b0\x7d</i>"⟩ ∈ offered
      (twoSnippets (some "<a:b>$\x7b1\x7d</a:b>")) (.text "a:b|c") ⟨0, 5⟩ "html" {} {} {} := by
    rw [offered_twoSnippets]
    exact List.mem_singleton_self _
  have hX : "a:bz" ∉ ({"a:b"} : Set String) := by simp
  obtain ⟨offers, hoffers, htemplate, hiff⟩ :=
    ((complete_of_fails h (.text "a:b|c") ⟨0, 5⟩ "html" {} {} {}).2 _ ho).2 hX
  refine ⟨h, ho, hX, ?_, offers, hoffers, htemplate⟩
  by_contra hshadowed
  have hlost := mem_allShown_iff.2 ⟨offers, hoffers, hiff.2 hshadowed⟩
  rw [shown_twoSnippets_none] at hlost
  exact absurd hlost (by decide)

end Completion

end Emmet
