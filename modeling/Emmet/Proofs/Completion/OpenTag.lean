import Emmet.Engine.Lookup
import Emmet.Proofs.Abbreviation.Nesting
import Emmet.Proofs.Completion.Events

/-!
# A tag that is being typed

Behind `<` the name of a tag is typed, and that is not to be completed. Three parts look at the text
left of the cursor, each in its own way: filters are peeled off its end, the scan walks through it,
and the word at its end is compared with what the scan found. This file shows that they all see the
same name, whatever stands before the bracket.

* `isElementChar` : the characters of a name;
* `ofChars_openTag` : the name is extracted, and no filter is taken off it;
* `contextAt?_openTag` : so there is nothing for which candidates could be put together;
* `complete_openTag` : nothing is offered, and no engine is asked.
-/

namespace Emmet.Completion

open Abbreviation (isAbbreviationChar isJoining isQuote closesGroup walk Takes)

/-- A character of the name of an element, as it is typed: an ASCII letter or digit, or one of `_`,
`-`, `:` and `.`. -/
def isElementChar (c : Char) : Bool := c.isAlphanum || ['_', '-', ':', '.'].contains c

section Characters

variable {c : Char} (h : isElementChar c = true)
include h

theorem isElementChar_cases : c.isAlphanum = true ∨ c ∈ ['_', '-', ':', '.'] := by
  simpa only [isElementChar, Bool.or_eq_true, List.contains_iff_mem] using h

theorem isAbbreviationChar_of_isElementChar : isAbbreviationChar c = true := by
  rcases isElementChar_cases h with h | h
  · rw [isAbbreviationChar, h, Bool.true_or]
  · simp only [List.mem_cons, List.not_mem_nil, or_false] at h
    rcases h with rfl | rfl | rfl | rfl <;> rfl

theorem isOpenTagChar_of_isElementChar : isOpenTagChar c = true := by
  rcases isElementChar_cases h with h | h
  · rw [isOpenTagChar, Text.isWord_of_isAlphanum h, Bool.true_or]
  · simp only [List.mem_cons, List.not_mem_nil, or_false] at h
    rcases h with rfl | rfl | rfl | rfl <;> rfl

theorem isJoining_of_isElementChar : isJoining c = false := by
  by_contra hjoining
  simp only [isJoining, Bool.not_eq_false, Bool.or_eq_true, beq_iff_eq] at hjoining
  rcases hjoining with ((rfl | rfl) | rfl) | rfl <;> cases h

end Characters

variable {front name right : List Char}

/-! ### The three readings -/

/-- The text left of the cursor ends with the name. -/
theorem take_openTag {column : Nat} (hcolumn : column = (front ++ '<' :: name).length) :
    (front ++ '<' :: (name ++ right)).take column = front ++ '<' :: name := by
  rw [hcolumn, ← List.cons_append, ← List.append_assoc, List.take_left]

theorem dropWhile_isJoining_name (h : ∀ c ∈ name, isElementChar c = true) :
    name.dropWhile isJoining = name :=
  Abbreviation.dropWhile_append_of_head (List.forall_mem_nil _) fun c hc =>
    isJoining_of_isElementChar (h c (List.mem_of_mem_head? hc))

/-- The walk takes the name and stops at the bracket. -/
theorem walk_openTag (h : ∀ c ∈ name, isElementChar c = true) :
    walk .markup [] (front ++ '<' :: name).reverse = ⟨name.reverse, []⟩ := by
  have htakes : Takes .markup [] name.reverse [] ('<' :: front.reverse) := by
    refine Abbreviation.takes_of_isAbbreviationChar fun c hc => ?_
    have hchar := h c (List.mem_reverse.1 hc)
    refine ⟨isAbbreviationChar_of_isElementChar hchar, ?_⟩
    rintro rfl
    cases hchar
  have hstop : walk .markup [] ('<' :: front.reverse) = ⟨[], []⟩ :=
    Abbreviation.walk_cons_stop rfl
  have htext : (front ++ '<' :: name).reverse = name.reverse ++ '<' :: front.reverse := by simp
  rw [htext, htakes, hstop, Abbreviation.Walk.after, List.append_nil]

/-- No filter is taken off the name, and none that reaches over the bracket. -/
theorem peel_openTag (h : ∀ c ∈ name, isElementChar c = true) (limit : Nat) :
    Filter.peel limit (front ++ '<' :: name) = (front ++ '<' :: name, []) := by
  rw [List.append_cons]
  refine Filter.peel_of_not_isSuffix
    (Filter.not_isSuffix_append (fun hmem => ?_) fun c hc => ?_)
  · cases h _ hmem
  · rw [List.getLast?_concat, Option.mem_some_iff] at hc
    subst hc
    exact ⟨by decide, rfl⟩

/-- The word at the end is the name, and the bracket stands before it. -/
theorem isOpenTag_openTag (h : ∀ c ∈ name, isElementChar c = true) :
    isOpenTag (front ++ '<' :: name) name = true := by
  have hword : ((front ++ '<' :: name).reverse.takeWhile isOpenTagChar).reverse = name := by
    have hchars : ∀ c ∈ name.reverse, isOpenTagChar c = true := fun c hc =>
      isOpenTagChar_of_isElementChar (h c (List.mem_reverse.1 hc))
    rw [List.reverse_append, List.reverse_cons, List.append_assoc, List.singleton_append,
      List.takeWhile_append_of_pos hchars, List.takeWhile_cons_of_neg (by decide),
      List.append_nil, List.reverse_reverse]
  have htyped : ('<' :: name).isSuffixOf (front ++ '<' :: name) = true :=
    List.isSuffixOf_iff_suffix.2 (List.suffix_append ..)
  rw [isOpenTag, hword, htyped, beq_self_eq_true]
  rfl

/-- The name is extracted, and nothing else. -/
theorem ofChars_openTag (hne : name ≠ []) (h : ∀ c ∈ name, isElementChar c = true)
    (hright : ∀ c ∈ right.head?, isQuote c = false ∧ closesGroup .markup c = false)
    {position : Position} (hcolumn : position.column = (front ++ '<' :: name).length)
    (lookAhead : Bool) (maxFilters : Nat) :
    Extraction.ofChars (fun stop => Abbreviation.find?
        (String.ofList (front ++ '<' :: (name ++ right))) stop ⟨.markup, lookAhead⟩)
        (front ++ '<' :: (name ++ right)) position maxFilters =
      some ⟨String.ofList name, Range.onLine position.line (front.length + 1) position.column,
        []⟩ := by
  have hline : front ++ '<' :: (name ++ right) = front ++ '<' :: name ++ right := by simp
  have hscan : Abbreviation.scan (front ++ '<' :: (name ++ right))
      (Text.bytes (front ++ '<' :: name)) ⟨.markup, lookAhead⟩ =
        some (name, Text.bytes (front ++ ['<'])) := by
    rw [hline, Abbreviation.scan_front (o := ⟨.markup, lookAhead⟩)
      (Abbreviation.closersAhead_eq_nil hright) (walk_openTag h) (by simpa using hne),
      List.reverse_reverse, dropWhile_isJoining_name h, List.append_cons]
    simp only [Text.bytes, Text.size_append, Nat.add_sub_cancel]
  have hstart : Text.columnAt Text.utf8 (front ++ '<' :: (name ++ right))
      (Text.bytes (front ++ ['<'])) = front.length + 1 := by
    rw [List.append_cons, Text.columnAt_bytes rfl, List.length_append, List.length_singleton]
  unfold Extraction.ofChars
  simp only [take_openTag hcolumn, peel_openTag h, Abbreviation.find?, String.toList_ofList, hscan,
    hstart, Option.map_some]
  have hend : front.length + 1 + name.length = position.column := by
    rw [hcolumn, List.length_append, List.length_cons]
    omega
  simp only [Nat.sub_self, Nat.add_zero, hend]

/-! ### Nothing to offer -/

variable {engine : Engine} {document : Document} {position : Position} {language : String}
  {settings : Settings} {library : Library} {tuning : Tuning}

theorem contextAt?_openTag (hfind : engine.find = Abbreviation.find?)
    (hmarkup : ∀ dialect, Dialect.ofLanguage? language settings.excluded = some dialect →
      Dialect.family dialect = .markup)
    (hne : name ≠ []) (hname : ∀ c ∈ name, isElementChar c = true)
    (hright : ∀ c ∈ right.head?, isQuote c = false ∧ closesGroup .markup c = false)
    (hline : document.line? position.line = some (String.ofList (front ++ '<' :: (name ++ right))))
    (hcolumn : position.column = (front ++ '<' :: name).length) :
    contextAt? engine document position language settings library tuning = none := by
  unfold contextAt?
  split
  · rfl
  · cases hdialect : Dialect.ofLanguage? language settings.excluded with
    | none => rfl
    | some dialect =>
      have hfamily := hmarkup dialect hdialect
      have hfound := ofChars_openTag hne hname hright hcolumn true tuning.maxFilters
      simp only [Option.bind_eq_bind, Option.bind_some, hline, hfind, hfamily,
        Extraction.value_ofLine, String.toList_ofList, ScanOptions.forFamily, beq_self_eq_true,
        hfound, take_openTag hcolumn, isOpenTag_openTag hname, and_self, ↓reduceIte]

/-- **A tag that is being typed is not completed.** The cursor stands behind `<` and the name of a
tag, and right of it no quotation mark and no closing bracket, which would count as typed. Then
nothing is offered and no engine is asked, whatever stands before the tag and however many filters
may be taken off. -/
theorem complete_openTag (hfind : engine.find = Abbreviation.find?)
    (hmarkup : ∀ dialect, Dialect.ofLanguage? language settings.excluded = some dialect →
      Dialect.family dialect = .markup)
    (hne : name ≠ []) (hname : ∀ c ∈ name, isElementChar c = true)
    (hright : ∀ c ∈ right.head?, c ∉ ['"', '\'', ')', ']', '\x7d'])
    (hline : document.line? position.line = some (String.ofList (front ++ '<' :: (name ++ right))))
    (hcolumn : position.column = (front ++ '<' :: name).length) :
    (complete engine document position language settings library tuning).value = none ∧
      ∀ a options, .expand a options ∉
        (complete engine document position language settings library tuning).events := by
  have hahead : ∀ c ∈ right.head?, isQuote c = false ∧ closesGroup .markup c = false := by
    intro c hc
    simpa [isQuote, closesGroup, and_assoc] using hright c hc
  have hnone := @contextAt?_openTag _ _ _ engine document position language settings library tuning
    hfind hmarkup hne hname hahead hline hcolumn
  constructor
  · rw [value_complete, hnone, Option.bind_none]
  · intro a options hmem
    have hquestion : ∀ n, Event.expand a options = .notice n → SaysInvalid n := by
      rintro n ⟨⟩
    obtain ⟨x, hx, -⟩ := (mem_events_complete_iff hquestion).1 hmem
    cases hnone.symm.trans hx

/-- An engine that has an expansion for everything. -/
def willing : Engine := Lookup.engine { fallback := .echo, keys := ["my-tag"] }

/-- Before the tag stand a closing tag, an open group, a filter and a character of two bytes; the
name has characters of every kind, and right of the cursor the tag goes on. -/
theorem complete_openTag_component :
    let line := "é</p>(ul>li|c <my-tag:x.y_1 class=\"b\">"
    let document := Document.text line
    let position : Position := ⟨0, 27⟩
    willing.find = Abbreviation.find? ∧
    (∀ dialect, Dialect.ofLanguage? "javascriptreact" [] = some dialect →
      Dialect.family dialect = .markup) ∧
    document.line? position.line = some line ∧
    (complete willing document position "javascriptreact" {} {} {}).value = none ∧
    ∀ a options, .expand a options ∉
      (complete willing document position "javascriptreact" {} {} {}).events := by
  intro line document position
  have hmarkup : ∀ dialect, Dialect.ofLanguage? "javascriptreact" [] = some dialect →
      Dialect.family dialect = .markup := by
    intro dialect h
    obtain rfl := Option.some.inj h
    rfl
  have hline : document.line? position.line = some line := by decide
  have hname : ∀ c ∈ "my-tag:x.y_1".toList, isElementChar c = true := List.all_eq_true.1 rfl
  have hright : ∀ c ∈ " class=\"b\">".toList.head?, c ∉ ['"', '\'', ')', ']', '\x7d'] := by
    intro c hc
    obtain rfl := Option.some.inj hc
    decide
  exact ⟨rfl, hmarkup, hline, @complete_openTag "é</p>(ul>li|c ".toList "my-tag:x.y_1".toList
    " class=\"b\">".toList willing document position "javascriptreact" {} {} {} rfl hmarkup
    (by decide) hname hright hline (by decide)⟩

end Emmet.Completion
