import Emmet.Engine.Lookup
import Emmet.Proofs.Completion.Shape
import Emmet.Proofs.Text.LowerCase
import Mathlib.Data.List.TakeWhile

/-!
# What goes on from the typed tag

A suggestion shows the typed tag with the rest of a key behind it, and inserts the expansion of the
whole abbreviation with this rest behind it. The tag is cut out of the abbreviation and lower-cased
before it is looked up, so these are three texts, which have to fit together.

* `isLastTag_iff` : where the tag is cut out;
* `Context.GoesOn` : the label, the key and the expansion fit together;
* `Context.GoesOn.label_not_common`, `Context.primary_not_common` : no candidate is labelled like an
  element of HTML in XML;
* `complete_goesOn` : all that is offered in markup, apart from the abbreviation itself, goes on
  from the typed tag.
-/

namespace Emmet.Completion

/-! ### The last tag -/

/-- A text ends in a tag behind an operator that starts an element. -/
def EndsInTag (cs tag : List Char) : Prop :=
  tag ≠ [] ∧ (∀ c ∈ tag, isTagChar c = true) ∧
    ∃ front operator, cs = front ++ operator :: tag ∧ (operator = '>' ∨ operator = '+')

/-- The tag that is typed last: the tag that the text ends in, or all of it if it ends in none. -/
def IsLastTag (cs tag : List Char) : Prop :=
  EndsInTag cs tag ∨ tag = cs ∧ ∀ other, ¬ EndsInTag cs other

variable {cs tag : List Char}

/-- Neither operator is part of a tag, so the tag is cut at the first character from the right that
is not part of one. -/
theorem endsInTag_iff : EndsInTag cs tag ↔ tag ≠ [] ∧ cs.reverse.takeWhile isTagChar = tag.reverse ∧
    ∃ operator before, cs.reverse.dropWhile isTagChar = operator :: before ∧
      (operator = '>' ∨ operator = '+') := by
  constructor
  · rintro ⟨hne, htag, front, operator, rfl, hoperator⟩
    have hstop : isTagChar operator = false := by
      rcases hoperator with rfl | rfl
      · decide +kernel
      · decide +kernel
    have hall : ∀ c ∈ tag.reverse, isTagChar c = true := fun c hc => htag c (List.mem_reverse.1 hc)
    have hreverse : (front ++ operator :: tag).reverse =
        tag.reverse ++ operator :: front.reverse := by simp
    rw [hreverse]
    refine ⟨hne, ?_, operator, front.reverse, ?_, hoperator⟩
    · rw [List.takeWhile_append_of_pos hall, List.takeWhile_cons_of_neg (by simp [hstop]),
        List.append_nil]
    · rw [List.dropWhile_append_of_pos hall, List.dropWhile_cons_of_neg (by simp [hstop])]
  · rintro ⟨hne, htake, operator, before, hdrop, hoperator⟩
    refine ⟨hne, fun c hc => ?_, before.reverse, operator, ?_, hoperator⟩
    · have hmem : c ∈ cs.reverse.takeWhile isTagChar := htake ▸ List.mem_reverse.2 hc
      exact List.mem_takeWhile_imp hmem
    · have hcut := List.takeWhile_append_dropWhile (p := isTagChar) (l := cs.reverse)
      rw [htake, hdrop] at hcut
      simpa using congrArg List.reverse hcut.symm

theorem isLastTag_lastTag (cs : List Char) : IsLastTag cs (lastTag cs) := by
  unfold lastTag
  split
  · next c run operator before htake hdrop =>
    split
    · next hoperator =>
      refine .inl (endsInTag_iff.2 ⟨?_, ?_, operator, before, hdrop, hoperator⟩)
      · exact mt List.reverse_eq_nil_iff.1 (List.cons_ne_nil c run)
      · rw [htake, List.reverse_reverse]
    · next hoperator =>
      refine .inr ⟨rfl, fun other hother => hoperator ?_⟩
      obtain ⟨-, -, operator', before', hdrop', hoperator'⟩ := endsInTag_iff.1 hother
      obtain ⟨rfl, -⟩ := List.cons.inj (hdrop.symm.trans hdrop')
      exact hoperator'
  · next hcut =>
    refine .inr ⟨rfl, fun other hother => ?_⟩
    obtain ⟨hne, htake, operator, before, hdrop, -⟩ := endsInTag_iff.1 hother
    obtain ⟨c, run, hrun⟩ := List.exists_cons_of_ne_nil (mt List.reverse_eq_nil_iff.1 hne)
    exact hcut c run operator before (htake.trans hrun) hdrop

/-- There is just one last tag. -/
theorem isLastTag_iff : IsLastTag cs tag ↔ tag = lastTag cs := by
  refine ⟨fun h => ?_, fun h => h ▸ isLastTag_lastTag cs⟩
  rcases h, isLastTag_lastTag cs with ⟨h | ⟨rfl, h⟩, hlast | ⟨hlast, hnone⟩⟩
  · exact List.reverse_injective ((endsInTag_iff.1 h).2.1.symm.trans (endsInTag_iff.1 hlast).2.1)
  · exact absurd h (hnone tag)
  · exact absurd hlast (h _)
  · exact hlast.symm

/-! ### Suggestions -/

namespace Context

variable {x : Context}

/-- A key is the name of a tag, but not in XML, or that of a snippet that is no tag, if snippets are
wanted. -/
def IsKey (x : Context) (key : String) : Prop :=
  key ∈ Tag.common ∧ x.dialect ≠ "xml" ∨
    key ∉ Tag.common ∧ x.settings.suggestions = true ∧
      (key ∈ x.engine.snippetKeys x.dialect ∨ key ∈ x.library.snippetKeys x.dialect)

/-- A candidate goes on from the typed tag with the rest of a key, and inserts what the engine makes
of the abbreviation with this rest. -/
structure GoesOn (x : Context) (i : Candidate) (tag key rest expansion : String) : Prop where
  isLastTag : IsLastTag x.abbreviation.toList tag.toList
  rest_ne : rest ≠ ""
  key_eq : key.toList = Text.lower tag.toList ++ rest.toList
  isKey : x.IsKey key
  label_eq : i.label = tag ++ rest
  expand_eq : x.engine.expand (x.abbreviation ++ rest) x.options = .ok expansion
  expansion_ne : expansion ≠ ""
  template_eq : i.template = Template.escapeDollars (Template.promote expansion)
  preview_eq : i.preview = Template.preview expansion

theorem goesOn_of_mem_keyCandidates {keys : List String} {detail : String} {kind : CandidateKind}
    {c : Candidate} (hkeys : ∀ key ∈ keys, x.IsKey key)
    (h : c ∈ keyCandidates x.engine keys (x.query x.tag detail kind true) x.options) :
    ∃ tag key rest expansion, x.GoesOn c tag key rest expansion := by
  obtain ⟨key, hkey, rest, expansion, hrest, hexpand, hne, rfl⟩ := exists_of_mem_keyCandidates h
  obtain ⟨hkeyEq, hrestNe⟩ := restOf?_eq_some hrest
  have hlast : IsLastTag x.abbreviation.toList x.tag.toList := by
    rw [tag, String.toList_ofList]
    exact isLastTag_lastTag _
  exact ⟨x.tag, key, rest, expansion, hlast, hrestNe rfl, hkeyEq, hkeys key hkey, rfl, hexpand, hne,
    rfl, rfl⟩

theorem goesOn_of_mem_tagCandidates {c : Candidate} (h : c ∈ x.tagCandidates) :
    ∃ tag key rest expansion, x.GoesOn c tag key rest expansion := by
  unfold tagCandidates at h
  split at h
  · cases h
  · next hxml => exact goesOn_of_mem_keyCandidates (fun key hkey => .inl ⟨hkey, hxml⟩) h

theorem goesOn_of_mem_snippetCandidates {c : Candidate} (h : c ∈ x.snippetCandidates) :
    ∃ tag key rest expansion, x.GoesOn c tag key rest expansion := by
  unfold snippetCandidates at h
  split at h
  · next hsuggestions =>
    refine goesOn_of_mem_keyCandidates (fun key hkey => .inr ?_) h
    obtain ⟨hknown, hcommon⟩ := List.mem_filter.1 hkey
    rw [Bool.not_eq_true', Tag.isCommon, ← Bool.not_eq_true, List.contains_iff_mem] at hcommon
    exact ⟨hcommon, hsuggestions, List.mem_append.1 (List.mem_eraseDups.1 hknown)⟩
  · cases h

/-- What changes on the way to the list is no part of how a candidate goes on. -/
theorem GoesOn.of_core {c i : Candidate} {tag key rest expansion : String} (hcore : core c = core i)
    (h : x.GoesOn c tag key rest expansion) : x.GoesOn i tag key rest expansion :=
  { h with
    label_eq := (label_of_core hcore).symm.trans h.label_eq
    template_eq := (template_of_core hcore).symm.trans h.template_eq
    preview_eq := (preview_of_core hcore).symm.trans h.preview_eq }

/-! ### Elements of HTML in XML -/

theorem plain_common : (Tag.common.all fun name =>
    name.toList.all fun c => decide (Text.IsLower c) && c != '|') = true := by
  decide +kernel

/-- The names of elements are in lower case, and nothing in them looks like a filter. -/
theorem plain_of_mem_common {name : String} (h : name ∈ Tag.common) :
    ∀ c ∈ name.toList, Text.IsLower c ∧ c ≠ '|' := by
  intro c hc
  have hplain := List.all_eq_true.1 (List.all_eq_true.1 plain_common name h) c hc
  rwa [Bool.and_eq_true, decide_eq_true_iff, bne_iff_ne] at hplain

/-- A tag that the name of an element starts with is in lower case already, so the label is the
key. -/
theorem GoesOn.label_not_common {i : Candidate} {tag key rest expansion : String}
    (h : x.GoesOn i tag key rest expansion) (hxml : x.dialect = "xml") : i.label ∉ Tag.common := by
  intro hlabel
  have hplain := plain_of_mem_common hlabel
  rw [h.label_eq, String.toList_append] at hplain
  have hkey : key = i.label := by
    have hkeyEq := h.key_eq
    rw [Text.lower_eq_self fun c hc => (hplain c (List.mem_append_left _ hc)).1,
      ← String.toList_append, ← h.label_eq] at hkeyEq
    exact String.toList_inj.1 hkeyEq
  rw [← hkey] at hlabel
  rcases h.isKey with ⟨-, hdialect⟩ | ⟨hcommon, -⟩
  · exact hdialect hxml
  · exact hcommon hlabel

/-- The name of an element is noise in XML. -/
theorem isNoise_of_common {s : Noise.Subject} (hxml : s.dialect = "xml")
    (hcommon : s.abbreviation ∈ Tag.common) : Noise.isNoise s = true := by
  have hlower : Text.lower s.abbreviation.toList = s.abbreviation.toList :=
    Text.lower_eq_self fun c hc => (plain_of_mem_common hcommon c hc).1
  have htag : Noise.xmlTag.check s = some true := by
    refine if_pos ⟨hxml, List.any_eq_true.2 ⟨_, hcommon, ?_⟩⟩
    rw [hlower]
    exact List.isPrefixOf_iff_prefix.2 (List.prefix_refl _)
  have hfamily : Dialect.family s.dialect = .markup := by
    rw [hxml]
    decide
  unfold Noise.isNoise Noise.decideBy
  rw [hfamily, Noise.rules, List.findSome?_cons, htag]
  rfl

theorem labelWithFilters_of_common (h : x.labelWithFilters ∈ Tag.common) :
    x.labelWithFilters = x.abbreviation := by
  have hplain := plain_of_mem_common h
  unfold labelWithFilters at hplain ⊢
  cases hfilters : x.extraction.filters with
  | nil => exact String.append_empty
  | cons f fs =>
    refine absurd rfl (hplain '|' ?_).2
    rw [hfilters, String.toList_append, String.toList_ofList]
    exact List.mem_append_right _ List.mem_cons_self

/-- The abbreviation itself is not offered under the name of an element, either. -/
theorem primary_not_common {c : Candidate} (hxml : x.dialect = "xml")
    (h : c ∈ x.primaryCandidate?) : c.label ∉ Tag.common := by
  intro hlabel
  obtain ⟨expansion, hexpansion, rfl⟩ := Option.map_eq_some_iff.1 h
  have hcommon : x.labelWithFilters ∈ Tag.common := hlabel
  rw [labelWithFilters_of_common hcommon] at hcommon
  rw [value_primary?] at hexpansion
  split at hexpansion
  · obtain ⟨e, -, hworthwhile⟩ := Option.bind_eq_some_iff.1 hexpansion
    unfold worthwhile? at hworthwhile
    rw [if_pos (.inr (isNoise_of_common hxml hcommon))] at hworthwhile
    cases hworthwhile
  · cases hexpansion

/-! ### What is offered -/

theorem sublist_of_offersFor {offers : Offers} (hfamily : Dialect.family x.dialect = .markup)
    (h : (offersFor x).value = some offers) :
    (offers.items.map core).Sublist (x.markupSequence.map core) := by
  unfold offersFor at h
  rw [hfamily, Traced.value_bind] at h
  exact (offersOf_of_offers? h).sublist.trans (x.markup_shape hfamily).1

/-- At most one thing is offered for the abbreviation itself, and behind it stands what goes on from
the typed tag. -/
theorem exists_goesOn {offers : Offers} (hfamily : Dialect.family x.dialect = .markup)
    (h : (offersFor x).value = some offers) :
    ∃ first rest, offers.items = first ++ rest ∧
      (first.map core).Sublist (x.primaryCandidate?.toList.map core) ∧
      ∀ i ∈ rest, ∃ tag key rest expansion, x.GoesOn i tag key rest expansion := by
  have hsublist := sublist_of_offersFor hfamily h
  rw [markupSequence, List.append_assoc, List.map_append] at hsublist
  obtain ⟨firstCores, restCores, hcores, hfirst, hrest⟩ := List.sublist_append_iff.1 hsublist
  obtain ⟨first, rest, hitems, rfl, rfl⟩ := List.map_eq_append_iff.1 hcores
  refine ⟨first, rest, hitems, hfirst, fun i hi => ?_⟩
  obtain ⟨c, hc, hcore⟩ := List.mem_map.1 (hrest.subset (List.mem_map_of_mem hi))
  obtain ⟨tag, key, after, expansion, hgoesOn⟩ :
      ∃ tag key rest expansion, x.GoesOn c tag key rest expansion := by
    rcases List.mem_append.1 hc with hc | hc
    · exact goesOn_of_mem_tagCandidates hc
    · exact goesOn_of_mem_snippetCandidates hc
  exact ⟨tag, key, after, expansion, hgoesOn.of_core hcore⟩

end Context

variable {engine : Engine} {document : Document} {position : Position} {language : String}
  {settings : Settings} {library : Library} {tuning : Tuning} {offers : Offers}

/-- **Suggestions of markup are coherent.** Apart from the abbreviation itself, which is offered at
most once and first, each candidate has a key that goes on from the typed tag: its label is the tag
with the rest of the key, and it inserts and shows the expansion of the whole abbreviation with this
rest. In XML nothing is labelled like an element of HTML. -/
theorem complete_goesOn
    (h : (complete engine document position language settings library tuning).value =
      some offers) :
    ∃ x, contextAt? engine document position language settings library tuning = some x ∧
      (Dialect.family x.dialect = .markup →
        ∃ first rest, offers.items = first ++ rest ∧
          (first.map core).Sublist (x.primaryCandidate?.toList.map core) ∧
          (∀ i ∈ rest, ∃ tag key rest expansion, x.GoesOn i tag key rest expansion) ∧
          (x.dialect = "xml" → ∀ i ∈ offers.items, i.label ∉ Tag.common)) := by
  rw [value_complete] at h
  obtain ⟨x, hx, hoffers⟩ := Option.bind_eq_some_iff.1 h
  refine ⟨x, hx, fun hfamily => ?_⟩
  obtain ⟨first, rest, hitems, hfirst, hrest⟩ := Context.exists_goesOn hfamily hoffers
  refine ⟨first, rest, hitems, hfirst, hrest, fun hxml i hi => ?_⟩
  rw [hitems] at hi
  rcases List.mem_append.1 hi with hi | hi
  · obtain ⟨c, hc, hcore⟩ := List.mem_map.1 (hfirst.subset (List.mem_map_of_mem hi))
    rw [← label_of_core hcore]
    exact Context.primary_not_common hxml (Option.mem_toList.1 hc)
  · obtain ⟨tag, key, after, expansion, hgoesOn⟩ := hrest i hi
    exact hgoesOn.label_not_common hxml

/-- An engine that knows links and one kind of them, in a list. -/
def listedLinks : Engine :=
  Lookup.engine {
    expansions := [("ul>LIN", some "<ul><LIN>$\x7b1\x7d</LIN></ul>"),
      ("ul>LINk", some "<ul><LINk a='$'>$\x7b1\x7d</LINk></ul>"),
      ("ul>LINk:css", some "<ul><link rel='x'></ul>")]
    keys := ["link:css", "list"] }

theorem shown_listedLinks :
    allShown (complete listedLinks (.text "ul>LIN") ⟨0, 6⟩ "html" {} {} {}).value =
      [("ul>LIN", "<ul><LIN>$\x7b0\x7d</LIN></ul>"),
        ("LINk", "<ul><LINk a='\\$'>$\x7b0\x7d</LINk></ul>"),
        ("LINk:css", "<ul><link rel='x'></ul>")] := by
  decide +kernel

/-- Behind `ul>` the letters `LIN` go on to `link` and to `link:css`, and stay as they are typed. -/
theorem complete_goesOn_listedLinks : ∃ offers x first rest,
    (complete listedLinks (.text "ul>LIN") ⟨0, 6⟩ "html" {} {} {}).value = some offers ∧
    contextAt? listedLinks (.text "ul>LIN") ⟨0, 6⟩ "html" {} {} {} = some x ∧
    (allShown (some offers)).map Prod.fst = ["ul>LIN", "LINk", "LINk:css"] ∧
    x.abbreviation = "ul>LIN" ∧ offers.items = first ++ rest ∧ first.length ≤ 1 ∧
    ∀ i ∈ rest, ∃ key after expansion, x.GoesOn i "LIN" key after expansion := by
  have hshown := List.mem_cons_self (a := ("ul>LIN", "<ul><LIN>$\x7b0\x7d</LIN></ul>"))
    (l := [("LINk", "<ul><LINk a='\\$'>$\x7b0\x7d</LINk></ul>"),
      ("LINk:css", "<ul><link rel='x'></ul>")])
  rw [← shown_listedLinks] at hshown
  obtain ⟨offers, h, -⟩ := mem_allShown_iff.1 hshown
  obtain ⟨x, hx, hcoherent⟩ := complete_goesOn h
  have hfound : (contextAt? listedLinks (.text "ul>LIN") ⟨0, 6⟩ "html" {} {} {}).map
      (fun x => (x.dialect, x.abbreviation)) = some ("html", "ul>LIN") := by decide +kernel
  rw [hx, Option.map_some] at hfound
  obtain ⟨hdialect, habbreviation⟩ := Prod.mk.inj (Option.some.inj hfound)
  have hfamily : Dialect.family x.dialect = .markup := by
    rw [hdialect]
    decide
  obtain ⟨first, rest, hitems, hfirst, hrest, -⟩ := hcoherent hfamily
  refine ⟨offers, x, first, rest, h, hx, ?_, habbreviation, hitems, ?_, fun i hi => ?_⟩
  · rw [← h, shown_listedLinks]
    rfl
  · have hlength := hfirst.length_le
    rw [List.length_map, List.length_map] at hlength
    exact hlength.trans (Option.length_toList_le)
  · obtain ⟨tag, key, after, expansion, hgoesOn⟩ := hrest i hi
    -- the last tag is determined by the abbreviation
    have htag := isLastTag_iff.1 hgoesOn.isLastTag
    rw [habbreviation] at htag
    obtain rfl : tag = "LIN" := String.toList_inj.1 (htag.trans (by decide +kernel))
    exact ⟨key, after, expansion, hgoesOn⟩

end Emmet.Completion
