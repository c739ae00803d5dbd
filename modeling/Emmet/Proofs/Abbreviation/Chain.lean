import Emmet.Proofs.Abbreviation.HtmlTag

/-!
# A chain of elements behind a tag

In `<div>ul>li` the first `>` ends a tag and the second one is the child operator, and the detection
of tags has to tell them apart at every `>` of the abbreviation. It reads the names left of the
operator as the end of an attribute value, across the `>` of the tag and into its last attribute. If
that one has a value without quotation marks, as in `<a b=c>ul>li`, the reading ends at an equals
sign behind a name, and the operator is taken for the end of a tag.

* `Chain` : names joined by dots and child operators;
* `RunEnds` : where the reading ends, and what stands there;
* `endsTag_chain` : the child operators of a chain are taken for the ends of tags exactly if the tag
  ends in a value without quotation marks;
* `find?_chain` : what is found of a chain behind a tag.
-/

namespace Emmet.Abbreviation

/-! ### Chains -/

/-- Elements, each the child of the one in front of it: names, with classes behind dots. -/
inductive Chain where
  | name (n : TagName)
  | dot (c : Chain) (n : TagName)
  | child (c : Chain) (n : TagName)

namespace Chain

/-- A chain as it is written. -/
def text : Chain → List Char
  | name n => n.1
  | dot c n => c.text ++ '.' :: n.1
  | child c n => c.text ++ '>' :: n.1

/-- The part behind the last child operator. -/
def last : Chain → Chain
  | name n => .name n
  | dot c n => .dot c.last n
  | child _ n => .name n

/-- The part up to the last child operator, which is a part of it. -/
def front : Chain → List Char
  | name _ => []
  | dot c _ => c.front
  | child c _ => c.text ++ ['>']

theorem front_append_last (x : Chain) : x.front ++ x.last.text = x.text := by
  induction x with
  | name n => rfl
  | dot x n ih => rw [front, last, text, text, ← ih, List.append_assoc]
  | child x n => simp [front, last, text]

end Chain

/-- The value of the attribute has no quotation marks. -/
def HtmlAttribute.isBare : HtmlAttribute → Bool
  | bare _ _ => true
  | _ => false

/-- The last attribute of the tag has a value without quotation marks, and no blank stands behind
it. -/
def HtmlTag.endsBare : HtmlTag → Bool
  | closing _ => false
  | opening _ attributes blanks _ _ => blanks.isEmpty && attributes.getLast?.any (·.2.isBare)

/-! ### Where a value ends -/

variable {left cs : List Char} {b c : Char} {bare : Bool}

/-- A character that every value without quotation marks goes on with. -/
def IsInner (c : Char) : Prop := IsPlain c ∧ isOpening c = false

theorem IsInner.of_isNameChar (h : isNameChar c = true) : IsInner c := by
  have hne : ∀ d : Char, isNameChar d = false → c ≠ d := by
    rintro d hd rfl
    rw [h] at hd
    cases hd
  refine ⟨⟨?_, hne '=' rfl, not_isAsciiBlank_of_isNameChar h⟩, ?_⟩
  · simp [isQuote, hne '"' rfl, hne '\'' rfl]
  · simp [isOpening, hne '(' rfl, hne '[' rfl, hne '\x7b' rfl, hne '<' rfl]

theorem IsInner.of_mem_tagEnd {closesItself : Bool} (h : c ∈ (tagEnd closesItself).reverse) :
    IsInner c := by
  have hmem : c ∈ tagEnd closesItself := List.mem_reverse.1 h
  have hc : c = '/' ∨ c = '>' := by
    cases closesItself with
    | false => exact .inr (List.mem_singleton.1 hmem)
    | true => simpa [tagEnd] using hmem
  rcases hc with rfl | rfl <;> exact ⟨⟨rfl, by decide, rfl⟩, rfl⟩

/-- To the left, the characters that a value can go on with end at the equals sign of an attribute
(`bare`), or at another character that no value has. -/
def RunEnds (bare : Bool) (left : List Char) : Prop :=
  ∃ run stop far, left = run ++ stop :: far ∧ (∀ c ∈ run, IsInner c) ∧ ¬ IsPlain stop ∧
    ((beforeChar '=' (stop :: far)).bind beforeName).isSome = bare

theorem RunEnds.append (h : RunEnds bare left) (hcs : ∀ c ∈ cs, IsInner c) :
    RunEnds bare (cs ++ left) := by
  obtain ⟨run, stop, far, rfl, hrun, hstop, hbare⟩ := h
  exact ⟨cs ++ run, stop, far, (List.append_assoc ..).symm,
    List.forall_mem_append.2 ⟨hcs, hrun⟩, hstop, hbare⟩

theorem RunEnds.of_isAsciiBlank_or_isQuote (hb : Text.isAsciiBlank b = true ∨ isQuote b = true)
    (left : List Char) : RunEnds false (b :: left) := by
  have hne : b ≠ '=' := by
    rintro rfl
    rcases hb with hb | hb <;> cases hb
  refine ⟨[], b, left, rfl, nofun, fun h => ?_, by simp [beforeChar, hne]⟩
  rcases hb with hb | hb
  · rw [h.2.2] at hb
    cases hb
  · rw [h.1] at hb
    cases hb

theorem RunEnds.of_equals {name : List Char} (hname : IsName name) (left : List Char) :
    RunEnds true ('=' :: (name ++ left)) := by
  refine ⟨[], '=', name ++ left, rfl, by simp, fun h => h.2.1 rfl, ?_⟩
  obtain ⟨c, name, rfl⟩ := List.exists_cons_of_ne_nil hname.1
  simp [beforeChar, beforeName, hname.2 c]

/-- A run in front of an attribute ends in it, or in front of it. -/
theorem HtmlAttribute.runEnds (x : HtmlAttribute) (hb : Text.isAsciiBlank b = true)
    (left : List Char) : RunEnds x.isBare (x.text.reverse ++ b :: left) := by
  have hname : ∀ name : TagName, ∀ c ∈ name.1.reverse, IsInner c :=
    fun name c hc => .of_isNameChar (name.2.2 c (List.mem_reverse.1 hc))
  cases x with
  | flag name => exact (RunEnds.of_isAsciiBlank_or_isQuote (.inl hb) left).append (hname name)
  | bare name value =>
    have hends := (RunEnds.of_equals name.2.reverse (b :: left)).append (hname value)
    simpa [text, isBare] using hends
  | quoted name quote value hquote hvalue =>
    have hends := RunEnds.of_isAsciiBlank_or_isQuote (.inr hquote)
      (value.reverse ++ quote :: '=' :: (name.1.reverse ++ b :: left))
    simpa [text, isBare] using hends

/-- A run that comes to a tag from the right ends in its last attribute, or behind it. A tag without
attributes has no equals sign. -/
theorem HtmlTag.runEnds_or (t : HtmlTag) :
    RunEnds t.endsBare t.text.reverse ∨ t.endsBare = false ∧ '=' ∉ t.text := by
  have hname : ∀ name : TagName, '=' ∉ name.1 := by
    intro name hmem
    exact absurd (name.2.2 '=' hmem) (by decide)
  cases t with
  | closing name => exact .inr ⟨rfl, by simp [text, hname]⟩
  | opening name attributes blanks hblanks closesItself =>
    have htext : (opening name attributes blanks hblanks closesItself).text.reverse =
        (tagEnd closesItself).reverse ++
          (blanks.reverse ++ ((name.1 ++ attributesText attributes).reverse ++ ['<'])) := by
      simp [text]
    rw [htext]
    obtain rfl | ⟨front, b, rfl⟩ := List.eq_nil_or_concat' blanks
    · obtain rfl | ⟨attributes, ⟨gap, x⟩, rfl⟩ := List.eq_nil_or_concat' attributes
      · refine .inr ⟨rfl, ?_⟩
        cases closesItself <;> simp [text, attributesText, tagEnd, hname]
      · obtain ⟨b, more, hb, -, hattribute⟩ :=
          exists_reverse_attributesText name attributes gap x ['<']
        have hends : RunEnds x.isBare ((name.1 ++
            attributesText (attributes ++ [(gap, x)])).reverse ++ ['<']) := by
          rw [hattribute]
          exact x.runEnds hb _
        exact .inl (by simpa [endsBare] using hends.append fun c => IsInner.of_mem_tagEnd)
    · have hb : Text.isAsciiBlank b = true := hblanks b (by simp)
      have hrun : ∀ c ∈ (tagEnd closesItself).reverse, IsInner c := fun c => IsInner.of_mem_tagEnd
      have hends := (RunEnds.of_isAsciiBlank_or_isQuote (.inl hb) (front.reverse ++
        ((name.1 ++ attributesText attributes).reverse ++ ['<']))).append hrun
      have hblank : (front ++ [b]).isEmpty = false := by
        cases front <;> rfl
      exact .inl (by simpa [endsBare, hblank] using hends)

theorem beforeBareValue_stop {stop : Char} {far : List Char} (hstop : ¬ IsPlain stop)
    (pending : List Char) : beforeBareValue pending (stop :: far) = stop :: far := by
  have hcloser : (opener? stop).isSome = false := by
    rw [← Bool.not_eq_true]
    exact fun h => hstop (isPlain_of_opener h)
  have hopening : isOpening stop = false := by
    rw [← Bool.not_eq_true]
    exact fun h => hstop (isPlain_of_isOpening h)
  have hmark : stop = '=' ∨ Text.isAsciiBlank stop = true ∨ isQuote stop = true := by
    by_contra hnot
    simp only [not_or, Bool.not_eq_true] at hnot
    exact hstop ⟨hnot.2.2, hnot.1, hnot.2.1⟩
  simp [beforeBareValue, hcloser, hopening, hmark]

theorem beforeBareValue_run {stop : Char} {far : List Char} (hcs : ∀ c ∈ cs, IsInner c)
    (hstop : ¬ IsPlain stop) (pending : List Char) :
    beforeBareValue pending (cs ++ stop :: far) = stop :: far := by
  induction cs generalizing pending with
  | nil => exact beforeBareValue_stop hstop pending
  | cons c cs ih =>
    obtain ⟨⟨⟨hquote, hequals, hblank⟩, hopening⟩, hcs⟩ := List.forall_mem_cons.1 hcs
    rw [List.cons_append]
    unfold beforeBareValue
    split
    · exact ih hcs _
    · simp [hopening, hequals, hblank, hquote, ih hcs]

/-- An attribute is read exactly if the run that its value would be ends at an equals sign behind a
name. -/
theorem RunEnds.isSome_beforeBareAttribute (h : RunEnds bare (c :: left)) (hc : IsPlain c) :
    (beforeBareAttribute (c :: left)).isSome = bare := by
  obtain ⟨run, stop, far, hleft, hrun, hstop, hbare⟩ := h
  cases run with
  | nil =>
    obtain ⟨rfl, -⟩ := List.cons.inj hleft
    exact absurd hc hstop
  | cons d run =>
    have hread : beforeBareValue [] (c :: left) = stop :: far := by
      rw [hleft, beforeBareValue_run hrun hstop]
    have hlength : (stop :: far).length ≠ (c :: left).length := by
      rw [hleft]
      simp only [List.length_append, List.length_cons]
      omega
    simp only [beforeBareAttribute, hread, if_neg hlength, hbare]

/-! ### The child operators of a chain -/

namespace Chain

/-- A character of a chain. -/
def IsChainChar (c : Char) : Prop := isNameChar c = true ∨ c = '.' ∨ c = '>'

theorem IsChainChar.isInner (h : IsChainChar c) : IsInner c := by
  rcases h with h | rfl | rfl
  · exact .of_isNameChar h
  · exact ⟨⟨rfl, by decide, rfl⟩, rfl⟩
  · exact ⟨⟨rfl, by decide, rfl⟩, rfl⟩

theorem isChainChar_of_mem (x : Chain) (h : c ∈ x.text) : IsChainChar c := by
  induction x with
  | name n => exact .inl (n.2.2 c h)
  | dot x n ih =>
    simp only [text, List.mem_append, List.mem_cons] at h
    obtain h | rfl | h := h
    · exact ih h
    · exact .inr (.inl rfl)
    · exact .inl (n.2.2 c h)
  | child x n ih =>
    simp only [text, List.mem_append, List.mem_cons] at h
    obtain h | rfl | h := h
    · exact ih h
    · exact .inr (.inr rfl)
    · exact .inl (n.2.2 c h)

/-- A chain ends with a name, behind a dot, a child operator or nothing. -/
theorem exists_text_eq (x : Chain) : ∃ (before : List Char) (n : TagName),
    x.text = before ++ n.1 ∧ ∀ c ∈ before.getLast?, c = '.' ∨ c = '>' := by
  cases x with
  | name n => exact ⟨[], n, rfl, by simp⟩
  | dot x n => exact ⟨x.text ++ ['.'], n, by simp [text], by simp⟩
  | child x n => exact ⟨x.text ++ ['>'], n, by simp [text], by simp⟩

end Chain

theorem HtmlTag.head?_reverse_text (t : HtmlTag) : t.text.reverse.head? = some '>' := by
  cases t with
  | closing name => simp [text]
  | opening name attributes blanks hblanks closesItself =>
    cases closesItself <;> simp [text, tagEnd]

theorem roundAfterName_joint (hc : c = '.' ∨ c = '>') : roundAfterName (c :: left) =
    if (beforeBareAttribute (c :: left)).isSome then .found else .lost := by
  rcases hc with rfl | rfl <;> rfl

/-- Behind a chain that stands behind a tag, a tag seems to end if the tag ends in a value without
quotation marks. -/
theorem opensTag_chain (t : HtmlTag) (x : Chain) :
    opensTag (x.text.reverse ++ t.text.reverse) = t.endsBare := by
  obtain ⟨before, n, hx, hbefore⟩ := x.exists_text_eq
  have hinner : ∀ c ∈ before.reverse, IsInner c := by
    intro c hc
    exact (x.isChainChar_of_mem (by rw [hx]; simp [List.mem_reverse.1 hc])).isInner
  -- left of the last name stands a dot, a child operator or the end of the tag
  obtain ⟨joint, far, hfar, hjoint⟩ : ∃ joint far,
      before.reverse ++ t.text.reverse = joint :: far ∧ (joint = '.' ∨ joint = '>') := by
    cases hreverse : before.reverse with
    | nil =>
      obtain ⟨far, hfar⟩ := List.head?_eq_some_iff.1 t.head?_reverse_text
      exact ⟨'>', far, hfar, .inr rfl⟩
    | cons c more =>
      exact ⟨c, more ++ t.text.reverse, rfl, hbefore c (by simp [← List.head?_reverse, hreverse])⟩
  have hplain : IsPlain joint ∧ isNameChar joint = false := by
    rcases hjoint with rfl | rfl <;> exact ⟨⟨rfl, by decide, rfl⟩, rfl⟩
  have hround : round (x.text.reverse ++ t.text.reverse) = roundAfterName (joint :: far) := by
    rw [hx, List.reverse_append, List.append_assoc, hfar]
    exact round_name n.2.reverse (by simp [hplain.2])
  have hsome : (beforeBareAttribute (joint :: far)).isSome = t.endsBare := by
    obtain hends | ⟨hbare, hequals⟩ := t.runEnds_or
    · have hrun := hends.append hinner
      rw [hfar] at hrun
      exact hrun.isSome_beforeBareAttribute hplain.1
    · rw [hbare]
      cases hread : beforeBareAttribute (joint :: far) with
      | none => rfl
      | some rest =>
        obtain ⟨value, name, -, -, htext, -⟩ := beforeBareAttribute_eq_some_iff.1 hread
        have hmem : '=' ∈ before.reverse ++ t.text.reverse := by
          rw [hfar, htext]
          simp
        rcases List.mem_append.1 hmem with hmem | hmem
        · exact absurd rfl (hinner '=' hmem).1.2.1
        · exact absurd (List.mem_reverse.1 hmem) hequals
  rw [roundAfterName_joint hjoint, hsome] at hround
  cases hbare : t.endsBare with
  | true => exact opensTag_of_found (by simpa [hbare] using hround)
  | false => exact opensTag_of_lost (by simpa [hbare] using hround)

/-- **A child operator of a chain behind a tag is taken for the end of a tag exactly if the tag ends
in a value without quotation marks.** -/
theorem endsTag_chain (t : HtmlTag) (x : Chain) :
    endsTag ('>' :: (x.text.reverse ++ t.text.reverse)) = t.endsBare := by
  have hhead : (x.text.reverse ++ t.text.reverse).head? ≠ some '/' := by
    obtain ⟨before, n, hx, -⟩ := x.exists_text_eq
    obtain ⟨front, c, hn, hc⟩ := exists_name_eq n
    rw [hx, hn, ← List.append_assoc, List.reverse_concat, List.cons_append, List.head?_cons]
    rintro ⟨⟩
    cases hc
  rw [endsTag_eq_opensTag, dropSlash_eq_self hhead, opensTag_chain]

/-! ### The chain that is found -/

/-- A character of a name or a dot. -/
def IsDotted (c : Char) : Prop := isNameChar c = true ∨ c = '.'

theorem takes_dotted (hcs : ∀ c ∈ cs, IsDotted c) : Takes .markup [] cs [] left := by
  refine takes_of_isAbbreviationChar fun c hc => ?_
  rcases hcs c hc with hname | rfl
  · simp only [isNameChar, Bool.or_eq_true, beq_iff_eq] at hname
    rcases hname with (rfl | rfl) | halphanum
    · decide
    · decide
    · refine ⟨by simp [isAbbreviationChar, halphanum], ?_⟩
      rintro rfl
      cases halphanum
  · decide

theorem IsDotted.of_mem_name {n : TagName} (h : c ∈ n.1.reverse) : IsDotted c :=
  .inl (n.2.2 c (List.mem_reverse.1 h))

/-- Behind a tag that does not end in a value without quotation marks, the walk takes the chain. -/
theorem takes_chain {t : HtmlTag} (ht : t.endsBare = false) (x : Chain) :
    Takes .markup [] x.text.reverse [] t.text.reverse := by
  induction x with
  | name n => exact takes_dotted fun c => IsDotted.of_mem_name
  | dot x n ih =>
    have hname : ∀ c ∈ n.1.reverse ++ ['.'], IsDotted c :=
      List.forall_mem_append.2 ⟨fun c => IsDotted.of_mem_name, by simp [IsDotted]⟩
    have htakes := Takes.trans (takes_dotted hname) ih
    simpa [Chain.text] using htakes
  | child x n ih =>
    have hgt : Takes .markup [] ['>'] [] (x.text.reverse ++ t.text.reverse) :=
      .single (step_of_isAbbreviationChar List.not_mem_nil List.not_mem_nil rfl
        ((endsTag_chain t x).trans ht))
    have hname : Takes .markup [] n.1.reverse [] (['>'] ++ (x.text.reverse ++ t.text.reverse)) :=
      takes_dotted fun c => IsDotted.of_mem_name
    have htakes := (hname.trans hgt).trans ih
    simpa [Chain.text] using htakes

theorem Chain.isDotted_of_mem_last (x : Chain) (h : c ∈ x.last.text) : IsDotted c := by
  induction x with
  | name n => exact .inl (n.2.2 c h)
  | dot x n ih =>
    simp only [last, text, List.mem_append, List.mem_cons] at h
    obtain h | rfl | h := h
    · exact ih h
    · exact .inr rfl
    · exact .inl (n.2.2 c h)
  | child x n _ => exact .inl (n.2.2 c h)

/-- Behind a tag that ends in a value without quotation marks, the walk ends at the last child
operator, or at the tag if there is none. -/
theorem endsTag_front {t : HtmlTag} (ht : t.endsBare = true) (x : Chain) :
    endsTag (t.text ++ x.front).reverse = true := by
  induction x with
  | name n => simpa [Chain.front] using endsTag_text t []
  | dot x n ih => exact ih
  | child x n _ =>
    have hchain := (endsTag_chain t x).trans ht
    simpa [Chain.front] using hchain

theorem Chain.front_eq_nil_iff (x : Chain) : x.front = [] ↔ '>' ∉ x.text := by
  have hname : ∀ n : TagName, '>' ∉ n.1 := by
    intro n hmem
    exact absurd (n.2.2 '>' hmem) (by decide)
  induction x with
  | name n => simp [front, text, hname]
  | dot x n ih => simp [front, text, hname, ih]
  | child x n _ => simp [front, text]

/-- A chain begins with a name. -/
theorem Chain.exists_text_eq_cons (x : Chain) :
    ∃ c more, x.text = c :: more ∧ isNameChar c = true := by
  induction x with
  | name n =>
    obtain ⟨name, hne, hname⟩ := n
    obtain ⟨c, more, rfl⟩ := List.exists_cons_of_ne_nil hne
    exact ⟨c, more, rfl, hname c List.mem_cons_self⟩
  | dot x n ih =>
    obtain ⟨c, more, hx, hc⟩ := ih
    exact ⟨c, more ++ '.' :: n.1, by rw [text, hx, List.cons_append], hc⟩
  | child x n ih =>
    obtain ⟨c, more, hx, hc⟩ := ih
    exact ⟨c, more ++ '>' :: n.1, by rw [text, hx, List.cons_append], hc⟩

/-- What a scan finds, if the walk takes a chain and ends in front of it. -/
theorem find?_of_takes_chain {front : List Char} {x : Chain}
    (htakes : Takes .markup [] x.text.reverse [] front.reverse)
    (hfront : endsTag front.reverse = true) (lookAhead : Bool) :
    find? (String.ofList (front ++ x.text)) (Text.bytes (front ++ x.text)) ⟨.markup, lookAhead⟩ =
      some ⟨String.ofList x.text, Text.bytes front⟩ := by
  obtain ⟨c, more, hx, hc⟩ := x.exists_text_eq_cons
  refine find?_of_takes htakes hfront (by simp [hx]) ?_ lookAhead
  rw [hx]
  rintro d hd
  obtain rfl := Option.some.inj hd
  by_contra hjoining
  simp only [isJoining, Bool.not_eq_false, Bool.or_eq_true, beq_iff_eq] at hjoining
  rcases hjoining with ((rfl | rfl) | rfl) | rfl <;> exact absurd hc (by decide)

/-- **Behind a tag at the start of a line, a chain is found whole unless the tag ends in a value
without quotation marks and the chain has a child operator.** In that case only the part behind the
last child operator is found. -/
theorem find?_chain (t : HtmlTag) (x : Chain) (lookAhead : Bool) :
    find? (String.ofList (t.text ++ x.text)) (Text.bytes (t.text ++ x.text)) ⟨.markup, lookAhead⟩ =
      (if t.endsBare then
        some ⟨String.ofList x.last.text, Text.bytes (t.text ++ x.front)⟩
      else some ⟨String.ofList x.text, Text.bytes t.text⟩) ∧
    (find? (String.ofList (t.text ++ x.text)) (Text.bytes (t.text ++ x.text))
        ⟨.markup, lookAhead⟩ = some ⟨String.ofList x.text, Text.bytes t.text⟩ ↔
      ¬ (t.endsBare = true ∧ '>' ∈ x.text)) := by
  cases hbare : t.endsBare with
  | false =>
    have htag : endsTag t.text.reverse = true := by simpa using endsTag_text t []
    have hfind := find?_of_takes_chain (takes_chain hbare x) htag lookAhead
    exact ⟨by simpa using hfind, iff_of_true hfind (by simp)⟩
  | true =>
    have hlast : Takes .markup [] x.last.text.reverse [] (t.text ++ x.front).reverse :=
      takes_dotted fun c hc => x.isDotted_of_mem_last (List.mem_reverse.1 hc)
    have hfind := find?_of_takes_chain hlast (endsTag_front hbare x) lookAhead
    rw [List.append_assoc, x.front_append_last] at hfind
    refine ⟨by simpa using hfind, ?_⟩
    rw [hfind]
    -- the part that is found is the chain just if nothing stands in front of it
    have hwhole : x.last.text = x.text ↔ x.front = [] := by
      rw [← x.front_append_last]
      exact List.self_eq_append_left
    constructor
    · intro hsame hgt
      have htext : x.last.text = x.text := by
        simpa using congrArg (Option.map (·.abbreviation.toList)) hsame
      exact x.front_eq_nil_iff.1 (hwhole.1 htext) hgt.2
    · intro hnot
      have hfront : x.front = [] := x.front_eq_nil_iff.2 fun hgt => hnot ⟨rfl, hgt⟩
      rw [hwhole.2 hfront, hfront, List.append_nil]

/-- A tag with a value without quotation marks at its end. -/
def bareLink : HtmlTag :=
  .opening (nameOf "a" (by decide))
    [(oneBlank, .bare (nameOf "b" (by decide)) (nameOf "c" (by decide)))] []
    (List.forall_mem_nil _) false

/-- A list with an item. -/
def listChain : Chain := .child (.name (nameOf "ul" (by decide))) (nameOf "li" (by decide))

/-- Of the list in `<a b=c>ul>li` only the item is found. -/
theorem find?_bareLink_listChain :
    let line := bareLink.text ++ listChain.text
    line = "<a b=c>ul>li".toList ∧ bareLink.text.length = 7 ∧ listChain.text = "ul>li".toList ∧
      find? (String.ofList line) (Text.bytes line) ⟨.markup, true⟩ = some ⟨"li", 10⟩ ∧
      find? (String.ofList line) (Text.bytes line) ⟨.markup, true⟩ ≠
        some ⟨String.ofList listChain.text, Text.bytes bareLink.text⟩ := by
  decide +kernel

end Emmet.Abbreviation
