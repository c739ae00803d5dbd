import Emmet.Engine.Lookup
import Emmet.Proofs.Completion.Origin
import Emmet.Proofs.Template.Final

/-!
# Offered templates are finished

Whatever an engine expands, what is inserted is a finished template: finishing it once more would
change nothing.

* `Context.finish_of_mem_candidates` : the template of every candidate is a finished expansion;
* `complete_templates_final` : so no offered template is changed by either step of finishing.
-/

namespace Emmet.Completion

theorem finish_of_mem_keyOrigins {engine : Engine} {keys : List String} {q : Query}
    {options : ExpansionOptions} {o : Origin} (h : o ∈ keyOrigins engine keys q options) :
    ∃ expansion, o.template = Template.finish expansion := by
  unfold keyOrigins at h
  split at h
  · cases h
  · obtain ⟨key, -, hkey⟩ := List.mem_filterMap.1 h
    obtain ⟨rest, -, horigin⟩ := Option.bind_eq_some_iff.1 hkey
    split at horigin
    · next expansion _ =>
      split at horigin
      · cases horigin
      · obtain rfl := Option.some.inj horigin
        exact ⟨expansion, rfl⟩
    · cases horigin

/-- The template of every candidate is a finished expansion. -/
theorem Context.finish_of_mem_candidates {x : Context} {o : Origin} (h : o ∈ x.candidates) :
    ∃ expansion, o.template = Template.finish expansion := by
  obtain hprimary | hprimary | ⟨keys, q, hkey⟩ := mem_candidates_cases h
  · obtain ⟨expansion, -, rfl⟩ := Option.map_eq_some_iff.1 hprimary
    exact ⟨expansion, rfl⟩
  · obtain ⟨expansion, -, rfl⟩ :=
      Option.map_eq_some_iff.1 (Option.filter_eq_some_iff.1 hprimary).1
    exact ⟨Vendor.apply expansion x.lead x.settings.preferences, rfl⟩
  · exact finish_of_mem_keyOrigins hkey

/-- The template of everything offered is a finished expansion. -/
theorem finish_of_complete {engine : Engine} {document : Document} {position : Position}
    {language : String} {settings : Settings} {library : Library} {tuning : Tuning}
    {offers : Offers}
    (h : (complete engine document position language settings library tuning).value = some offers)
    {i : Candidate} (hi : i ∈ offers.items) :
    ∃ expansion, i.template = Template.finish expansion := by
  have hshown := mem_allShown_iff.2 ⟨offers, h, i, hi, rfl, rfl⟩
  rw [shown_complete] at hshown
  obtain ⟨o, ho, hoi⟩ := List.mem_map.1 hshown
  obtain ⟨x, -, hx⟩ := mem_offered_iff_exists.1 ho
  rw [← (Prod.mk.inj hoi).2]
  exact Context.finish_of_mem_candidates (Context.mem_candidates_of_mem_offered hx)

open Template in
/-- **Offered templates are final.** Renumbering the last tab stops and protecting the dollar signs
commute, and doing either of them twice is doing it once. So neither changes what is offered. -/
theorem complete_templates_final :
    (∀ text, promote (escapeDollars text) = escapeDollars (promote text)) ∧
    (∀ text, promote (promote text) = promote text) ∧
    (∀ text, escapeDollars (escapeDollars text) = escapeDollars text) ∧
    ∀ engine document position language settings library tuning, ∀ offers,
      (complete engine document position language settings library tuning).value = some offers →
      ∀ i ∈ offers.items,
        escapeDollars i.template = i.template ∧ promote i.template = i.template := by
  refine ⟨promote_escapeDollars, promote_promote, escapeDollars_escapeDollars, ?_⟩
  intro engine document position language settings library tuning offers h i hi
  obtain ⟨expansion, htemplate⟩ := finish_of_complete h hi
  rw [htemplate]
  exact ⟨escapeDollars_finish expansion, promote_finish expansion⟩

/-- An engine that expands `li` to an item with a price and three tab stops. -/
def pricedItem : Engine :=
  Lookup.engine { expansions := [("li", some "<li>$5 $\x7b2:a\x7d $\x7b9\x7d $\x7b10\x7d</li>")] }

theorem shown_pricedItem :
    allShown (complete pricedItem (.text "li") ⟨0, 2⟩ "html" {} {} {}).value =
      [("li", "<li>\\$5 $\x7b2:a\x7d $\x7b9\x7d $\x7b0\x7d</li>")] := by
  decide +kernel

open Template in
/-- The price of the item is protected and its last tab stop is the final one, once and for all. -/
theorem complete_templates_final_pricedItem : ∃ offers,
    (complete pricedItem (.text "li") ⟨0, 2⟩ "html" {} {} {}).value = some offers ∧
    ∃ i ∈ offers.items, i.template = "<li>\\$5 $\x7b2:a\x7d $\x7b9\x7d $\x7b0\x7d</li>" ∧
      escapeDollars i.template = i.template ∧ promote i.template = i.template := by
  have hshown := List.mem_singleton_self ("li", "<li>\\$5 $\x7b2:a\x7d $\x7b9\x7d $\x7b0\x7d</li>")
  rw [← shown_pricedItem] at hshown
  obtain ⟨offers, h, i, hi, -, htemplate⟩ := mem_allShown_iff.1 hshown
  exact ⟨offers, h, i, hi, htemplate,
    complete_templates_final.2.2.2 pricedItem _ _ _ _ _ _ offers h i hi⟩

end Emmet.Completion
