import Emmet.Proofs.Abbreviation.Nesting
import Mathlib.Data.List.Induction

/-!
# Behind a tag

Text is typed behind tags, and the scan to the left must not take their characters. `HtmlTag` is the
grammar of tags: closing tags, and opening tags with attributes in all forms in any number. The
detection reads a tag from its `>` to its `<` and is not led astray by what stands in the quotation
marks of a value, nor by what stands left of the tag.

* `opensTag_attribute` : the detection passes over one attribute;
* `endsTag_text` : so it gets through to the `<` of every tag;
* `find?_after_tag` : an abbreviation behind a tag is found, and ends at the tag.
-/

namespace Emmet.Abbreviation

/-! ### The grammar of tags -/

/-- A name of a tag or an attribute, or a value that needs no quotation marks. -/
abbrev TagName := {name : List Char // IsName name}

/-- The blanks in front of an attribute, at least one. -/
abbrev Gap := {gap : List Char // gap ≠ [] ∧ ∀ c ∈ gap, Text.isAsciiBlank c = true}

/-- A name, by a check of its characters. -/
def nameOf (name : String) (h : name.toList ≠ [] ∧ name.toList.all isNameChar = true) : TagName :=
  ⟨name.toList, h.1, List.all_eq_true.1 h.2⟩

/-- Blanks, by a check of their characters. -/
def gapOf (gap : String) (h : gap.toList ≠ [] ∧ gap.toList.all Text.isAsciiBlank = true) : Gap :=
  ⟨gap.toList, h.1, List.all_eq_true.1 h.2⟩

/-- An attribute in one of its forms. -/
inductive HtmlAttribute where
  /-- A name alone. -/
  | flag (name : TagName)
  /-- A value without quotation marks. -/
  | bare (name value : TagName)
  /-- A value between two quotation marks of a kind, any text without this mark. -/
  | quoted (name : TagName) (quote : Char) (value : List Char)
      (hquote : isQuote quote = true) (hvalue : quote ∉ value)

/-- A tag. -/
inductive HtmlTag where
  | closing (name : TagName)
  /-- The blanks stand behind the attributes; a tag that closes itself has a slash at its end. -/
  | opening (name : TagName) (attributes : List (Gap × HtmlAttribute)) (blanks : List Char)
      (hblanks : ∀ c ∈ blanks, Text.isAsciiBlank c = true) (closesItself : Bool)

/-- An attribute as it is written. -/
def HtmlAttribute.text : HtmlAttribute → List Char
  | flag name => name.1
  | bare name value => name.1 ++ '=' :: value.1
  | quoted name quote value _ _ => name.1 ++ '=' :: quote :: (value ++ [quote])

/-- Attributes as they are written, each behind its blanks. -/
def attributesText (attributes : List (Gap × HtmlAttribute)) : List Char :=
  attributes.flatMap fun a => a.1.1 ++ a.2.text

/-- The end of a tag. -/
def tagEnd (closesItself : Bool) : List Char := if closesItself then ['/', '>'] else ['>']

/-- A tag as it is written. -/
def HtmlTag.text : HtmlTag → List Char
  | closing name => '<' :: '/' :: (name.1 ++ ['>'])
  | opening name attributes blanks _ closesItself =>
    '<' :: (name.1 ++ attributesText attributes ++ blanks ++ tagEnd closesItself)

/-! ### Reading an attribute -/

variable {left rest name value blanks : List Char} {b c quote : Char}

theorem IsName.reverse (h : IsName name) : IsName name.reverse :=
  ⟨by simpa using h.1, fun c hc => h.2 c (List.mem_reverse.1 hc)⟩

theorem not_isNameChar_of_isAsciiBlank (h : Text.isAsciiBlank b = true) : isNameChar b = false := by
  by_contra hname
  rw [not_isAsciiBlank_of_isNameChar (by simpa using hname)] at h
  cases h

theorem isQuote_cases (h : isQuote quote = true) : quote = '"' ∨ quote = '\'' := by
  simpa [isQuote] using h

/-- A text in quotation marks is read up to the mark that opens it, unless a backslash stands before
that one. -/
theorem beforeQuoteOpening_value (hvalue : quote ∉ value) (hrest : rest.head? ≠ some '\\') :
    beforeQuoteOpening quote (value ++ quote :: rest) = some rest := by
  induction value with
  | nil => rw [List.nil_append, beforeQuoteOpening, if_pos ⟨rfl, hrest⟩]
  | cons c value ih =>
    obtain ⟨hc, hvalue⟩ := List.ne_and_not_mem_of_not_mem_cons hvalue
    rw [List.cons_append, beforeQuoteOpening, if_neg fun h => hc h.1.symm, ih hvalue]

theorem beforeQuotedAttribute_value (hquote : isQuote quote = true) (hvalue : quote ∉ value)
    (hname : IsName name) (hrest : ∀ c ∈ rest.head?, isNameChar c = false) :
    beforeQuotedAttribute (quote :: (value ++ quote :: '=' :: (name ++ rest))) = some rest := by
  have hquoted : beforeQuoted (quote :: (value ++ quote :: '=' :: (name ++ rest))) =
      some ('=' :: (name ++ rest)) := by
    rw [beforeQuoted, if_pos hquote]
    exact beforeQuoteOpening_value hvalue (by simp)
  rw [beforeQuotedAttribute, hquoted]
  exact beforeName_eq_some_iff.2 ⟨name, hname, rfl, hrest⟩

theorem opensTag_congr (h : round left = round rest) : opensTag left = opensTag rest := by
  cases hround : round rest with
  | found => rw [opensTag_of_found (h.trans hround), opensTag_of_found hround]
  | lost => rw [opensTag_of_lost (h.trans hround), opensTag_of_lost hround]
  | more far => rw [opensTag_of_more (h.trans hround), opensTag_of_more hround]

/-- Blanks are passed over. -/
theorem opensTag_blanks (hblanks : ∀ c ∈ blanks, Text.isAsciiBlank c = true) (left : List Char) :
    opensTag (blanks ++ left) = opensTag left := by
  refine opensTag_congr ?_
  rw [round, List.dropWhile_append_of_pos hblanks, ← round]

theorem roundAfterName_blank (hb : Text.isAsciiBlank b = true) :
    roundAfterName (b :: left) = .more left := by
  have hslash : b ≠ '/' := by rintro rfl; cases hb
  have hlt : b ≠ '<' := by rintro rfl; cases hb
  simp [roundAfterName, hslash, hlt, hb]

theorem roundAfterName_equals (hname : IsName name)
    (hrest : ∀ c ∈ rest.head?, isNameChar c = false) :
    roundAfterName ('=' :: (name ++ rest)) = .more rest := by
  have hread : beforeName (name ++ rest) = some rest :=
    beforeName_eq_some_iff.2 ⟨name, hname, rfl, hrest⟩
  simp [roundAfterName, hread, show Text.isAsciiBlank '=' = false from rfl]

theorem round_quoted (hquote : isQuote quote = true) (hvalue : quote ∉ value)
    (hname : IsName name) (hrest : ∀ c ∈ rest.head?, isNameChar c = false) :
    round (quote :: (value ++ quote :: '=' :: (name ++ rest))) = .more rest := by
  have hmark : Text.isAsciiBlank quote = false ∧ isNameChar quote = false := by
    obtain rfl | rfl := isQuote_cases hquote <;> decide
  rw [round, List.dropWhile_cons_of_neg (by simp [hmark.1])]
  simp [beforeName, hmark.2, beforeAttribute,
    beforeQuotedAttribute_value hquote hvalue hname hrest]

/-- The detection passes over an attribute and the blank in front of it. -/
theorem opensTag_attribute (x : HtmlAttribute) (hb : Text.isAsciiBlank b = true)
    (left : List Char) : opensTag (x.text.reverse ++ b :: left) = opensTag left := by
  have hhead : ∀ c ∈ (b :: left).head?, isNameChar c = false := by
    rintro c hc
    obtain rfl := Option.some.inj hc
    exact not_isNameChar_of_isAsciiBlank hb
  have hblank : opensTag ([b] ++ left) = opensTag left :=
    opensTag_blanks (by simpa using hb) left
  rw [List.singleton_append] at hblank
  cases x with
  | flag name =>
    exact opensTag_of_more ((round_name name.2.reverse hhead).trans (roundAfterName_blank hb))
  | bare name value =>
    have hread := roundAfterName_equals name.2.reverse hhead
    have hround : round (value.1.reverse ++ '=' :: (name.1.reverse ++ b :: left)) =
        roundAfterName ('=' :: (name.1.reverse ++ b :: left)) :=
      round_name value.2.reverse (by simp [isNameChar])
    have htext : (HtmlAttribute.bare name value).text.reverse ++ b :: left =
        value.1.reverse ++ '=' :: (name.1.reverse ++ b :: left) := by
      simp [HtmlAttribute.text]
    rw [htext, opensTag_of_more (hround.trans hread), hblank]
  | quoted name quote value hquote hvalue =>
    have hround : round (quote :: (value.reverse ++ quote :: '=' :: (name.1.reverse ++
        b :: left))) = .more (b :: left) :=
      round_quoted hquote (by simpa using hvalue) name.2.reverse hhead
    have htext : (HtmlAttribute.quoted name quote value hquote hvalue).text.reverse ++ b :: left =
        quote :: (value.reverse ++ quote :: '=' :: (name.1.reverse ++ b :: left)) := by
      simp [HtmlAttribute.text]
    rw [htext, opensTag_of_more hround, hblank]

/-! ### Reading a tag -/

theorem attributesText_concat (attributes : List (Gap × HtmlAttribute)) (gap : Gap)
    (x : HtmlAttribute) :
    attributesText (attributes ++ [(gap, x)]) = attributesText attributes ++ (gap.1 ++ x.text) := by
  simp [attributesText]

/-- The last attribute of a tag, and the blanks in front of it, as the detection meets them. -/
theorem exists_reverse_attributesText (name : TagName) (attributes : List (Gap × HtmlAttribute))
    (gap : Gap) (x : HtmlAttribute) (left : List Char) :
    ∃ b more, Text.isAsciiBlank b = true ∧ (∀ c ∈ more, Text.isAsciiBlank c = true) ∧
      (name.1 ++ attributesText (attributes ++ [(gap, x)])).reverse ++ left = x.text.reverse ++
        b :: (more ++ ((name.1 ++ attributesText attributes).reverse ++ left)) := by
  obtain ⟨gap, hne, hgap⟩ := gap
  obtain ⟨b, more, hreverse⟩ := List.exists_cons_of_ne_nil (List.reverse_ne_nil_iff.2 hne)
  have hblanks : ∀ c ∈ b :: more, Text.isAsciiBlank c = true := by
    rw [← hreverse]
    exact fun c hc => hgap c (List.mem_reverse.1 hc)
  obtain ⟨hb, hmore⟩ := List.forall_mem_cons.1 hblanks
  refine ⟨b, more, hb, hmore, ?_⟩
  rw [attributesText_concat, ← List.append_assoc, ← List.append_assoc, List.reverse_append,
    List.reverse_append, hreverse]
  simp

/-- From behind its last attribute, the `<` of a tag is found. -/
theorem opensTag_attributesText (name : TagName) (attributes : List (Gap × HtmlAttribute))
    (left : List Char) :
    opensTag ((name.1 ++ attributesText attributes).reverse ++ '<' :: left) = true := by
  -- the detection meets the last attribute first
  induction attributes using List.reverseRecOn with
  | nil =>
    have hround : round (name.1.reverse ++ '<' :: left) = roundAfterName ('<' :: left) :=
      round_name name.2.reverse (by simp [isNameChar])
    have hname : (name.1 ++ attributesText []).reverse ++ '<' :: left =
        name.1.reverse ++ '<' :: left := by simp [attributesText]
    rw [hname]
    exact opensTag_of_found (hround.trans (by simp [roundAfterName]))
  | append_singleton attributes a ih =>
    obtain ⟨b, more, hb, hmore, htext⟩ :=
      exists_reverse_attributesText name attributes a.1 a.2 ('<' :: left)
    rw [htext, opensTag_attribute a.2 hb, opensTag_blanks hmore, ih]

theorem exists_name_eq (name : TagName) :
    ∃ front c, name.1 = front ++ [c] ∧ isNameChar c = true := by
  obtain ⟨name, hne, hname⟩ := name
  obtain ⟨front, c, rfl⟩ := (List.eq_nil_or_concat' name).resolve_left hne
  exact ⟨front, c, rfl, hname c (by simp)⟩

theorem HtmlAttribute.exists_text_eq (x : HtmlAttribute) :
    ∃ front c, x.text = front ++ [c] ∧ (isNameChar c = true ∨ isQuote c = true) := by
  cases x with
  | flag name =>
    obtain ⟨front, c, hfront, hc⟩ := exists_name_eq name
    exact ⟨front, c, hfront, .inl hc⟩
  | bare name value =>
    obtain ⟨front, c, hfront, hc⟩ := exists_name_eq value
    exact ⟨name.1 ++ '=' :: front, c, by simp [text, hfront], .inl hc⟩
  | quoted name quote value hquote _ =>
    exact ⟨name.1 ++ '=' :: quote :: value, quote, by simp [text], .inr hquote⟩

/-- The slash of a tag that closes itself is the only one at the end of an opening tag. -/
theorem getLast?_ne_slash (name : TagName) (attributes : List (Gap × HtmlAttribute))
    (hblanks : ∀ c ∈ blanks, Text.isAsciiBlank c = true) :
    (name.1 ++ attributesText attributes ++ blanks).getLast? ≠ some '/' := by
  obtain rfl | ⟨front, b, rfl⟩ := List.eq_nil_or_concat' blanks
  · rw [List.append_nil]
    obtain rfl | ⟨attributes, ⟨gap, x⟩, rfl⟩ := List.eq_nil_or_concat' attributes
    · obtain ⟨front, c, hname, hc⟩ := exists_name_eq name
      rw [attributesText, List.flatMap_nil, List.append_nil, hname, List.getLast?_concat]
      rintro ⟨⟩
      cases hc
    · obtain ⟨front, c, htext, hc⟩ := x.exists_text_eq
      rw [attributesText_concat, htext, ← List.append_assoc, ← List.append_assoc,
        ← List.append_assoc, List.getLast?_concat]
      rintro ⟨⟩
      rcases hc with hc | hc <;> cases hc
  · rw [← List.append_assoc, List.getLast?_concat]
    rintro ⟨⟩
    exact absurd (hblanks '/' (by simp)) (by decide)

theorem dropSlash_eq_self (h : left.head? ≠ some '/') : dropSlash left = left := by
  unfold dropSlash
  split
  · exact absurd rfl h
  · rfl

/-- The text left of the end of a tag, which the detection goes through. -/
theorem endsTag_tagEnd {inner : List Char} (hne : inner ≠ []) (hlast : inner.getLast? ≠ some '/')
    (closesItself : Bool) (left : List Char) :
    endsTag ((inner ++ tagEnd closesItself).reverse ++ left) =
      opensTag (inner.reverse ++ left) := by
  have hhead : (inner.reverse ++ left).head? ≠ some '/' := by
    rwa [List.head?_append_of_ne_nil _ (by simpa using hne), List.head?_reverse]
  cases closesItself with
  | true => simp [tagEnd, endsTag]
  | false =>
    have htext : (inner ++ tagEnd false).reverse ++ left = '>' :: (inner.reverse ++ left) := by
      simp [tagEnd]
    rw [htext, endsTag_eq_opensTag, dropSlash_eq_self hhead]

/-- **The end of every tag is recognised**, whatever stands left of the tag. -/
theorem endsTag_text (t : HtmlTag) (left : List Char) :
    endsTag (t.text.reverse ++ left) = true := by
  cases t with
  | closing name =>
    have hround : round (name.1.reverse ++ '/' :: '<' :: left) =
        roundAfterName ('/' :: '<' :: left) := round_name name.2.reverse (by simp [isNameChar])
    have hhead : (name.1.reverse ++ '/' :: '<' :: left).head? ≠ some '/' := by
      obtain ⟨front, c, hname, hc⟩ := exists_name_eq name
      rw [hname, List.reverse_concat, List.cons_append, List.head?_cons]
      rintro ⟨⟩
      cases hc
    have htext : (HtmlTag.closing name).text.reverse ++ left =
        '>' :: (name.1.reverse ++ '/' :: '<' :: left) := by
      simp [HtmlTag.text]
    rw [htext, endsTag_eq_opensTag, dropSlash_eq_self hhead]
    exact opensTag_of_found (hround.trans (by simp [roundAfterName]))
  | opening name attributes blanks hblanks closesItself =>
    have htext :
        (HtmlTag.opening name attributes blanks hblanks closesItself).text.reverse ++ left =
        (name.1 ++ attributesText attributes ++ blanks ++ tagEnd closesItself).reverse ++
          '<' :: left := by
      simp [HtmlTag.text]
    rw [htext, endsTag_tagEnd (by simp [name.2.1]) (getLast?_ne_slash name attributes hblanks),
      List.reverse_append, List.append_assoc,
      opensTag_blanks fun c hc => hblanks c (List.mem_reverse.1 hc), opensTag_attributesText]

/-! ### The abbreviation behind a tag -/

/-- Outside of brackets the walk ends at a tag. -/
theorem walk_of_endsTag {f : Family} (h : endsTag left = true) : walk f [] left = ⟨[], []⟩ := by
  cases left with
  | nil => rfl
  | cons c left =>
    have hc : c = '>' := by
      by_contra hc
      rw [endsTag_eq_false hc] at h
      cases h
    subst hc
    have hgroup : closesGroup f '>' = false ∧ opensGroup f '>' = false := by cases f <;> decide
    exact walk_cons_stop (by simp [step, hgroup, h])

/-- What a scan from the end of a text finds, if the walk takes the abbreviation at its end. -/
theorem find?_of_takes {front w : List Char} {f : Family}
    (htakes : Takes f [] w.reverse [] front.reverse) (hfront : endsTag front.reverse = true)
    (hne : w ≠ []) (hhead : ∀ c ∈ w.head?, isJoining c = false) (lookAhead : Bool) :
    find? (String.ofList (front ++ w)) (Text.bytes (front ++ w)) ⟨f, lookAhead⟩ =
      some ⟨String.ofList w, Text.bytes front⟩ := by
  have hwalk : walk f [] (front ++ w).reverse = ⟨w.reverse, []⟩ := by
    rw [List.reverse_append, htakes, walk_of_endsTag hfront, Walk.after, List.append_nil]
  have hdrop : w.dropWhile isJoining = w :=
    dropWhile_append_of_head (List.forall_mem_nil _) hhead
  rw [find?, String.toList_ofList, scan_end (o := ⟨f, lookAhead⟩) hwalk (by simpa using hne),
    List.reverse_reverse, hdrop, Option.map_some, Text.bytes, Text.size_append, Nat.add_sub_cancel]

/-- **An abbreviation behind a tag is found.** It is a run of characters of abbreviations without
`>`, behind a tag in any form; what stands in front of the tag makes no difference. -/
theorem find?_after_tag (p : List Char) (t : HtmlTag) {w : List Char} (hne : w ≠ [])
    (hw : ∀ c ∈ w, isAbbreviationChar c = true ∧ c ≠ '>')
    (hhead : ∀ c ∈ w.head?, c ≠ '*' ∧ c ≠ '+' ∧ c ≠ '^') (lookAhead : Bool) :
    find? (String.ofList (p ++ t.text ++ w)) (Text.bytes (p ++ t.text ++ w)) ⟨.markup, lookAhead⟩ =
      some ⟨String.ofList w, Text.bytes (p ++ t.text)⟩ := by
  have hfront : endsTag (p ++ t.text).reverse = true := by
    rw [List.reverse_append, endsTag_text]
  have hjoining : ∀ c ∈ w.head?, isJoining c = false := by
    intro c hc
    obtain ⟨hstar, hplus, hcaret⟩ := hhead c hc
    simp [isJoining, hstar, hplus, hcaret, (hw c (List.mem_of_mem_head? hc)).2]
  have htakes : Takes .markup [] w.reverse [] (p ++ t.text).reverse :=
    takes_of_isAbbreviationChar fun c hc => hw c (List.mem_reverse.1 hc)
  exact find?_of_takes htakes hfront hne hjoining lookAhead

/-- A single blank. -/
def oneBlank : Gap := gapOf " " (by decide)

/-- A tag that closes itself, with attributes in all forms. -/
def checkedInput : HtmlTag :=
  .opening (nameOf "input" (by decide))
    [(oneBlank, .flag (nameOf "checked" (by decide))),
      (gapOf "\n " (by decide), .bare (nameOf "type" (by decide)) (nameOf "text" (by decide))),
      (gapOf "\t" (by decide),
        .quoted (nameOf "on:x" (by decide)) '\'' "<a b=\">\\".toList rfl (by decide))]
    [' '] (by simp [Text.isAsciiBlank]) true

/-- Behind a tag with a whole tag and an unmatched quotation mark in a value, and behind text that
ends like the value of an attribute. -/
theorem find?_after_tag_checkedInput :
    let p := "é=\"x".toList
    let w := "/p#a.b*2".toList
    checkedInput.text = "<input checked\n type=text\ton:x='<a b=\">\\' />".toList ∧ w ≠ [] ∧
      (∀ c ∈ w, isAbbreviationChar c = true ∧ c ≠ '>') ∧
      (∀ c ∈ w.head?, c ≠ '*' ∧ c ≠ '+' ∧ c ≠ '^') ∧
      find? (String.ofList (p ++ checkedInput.text ++ w)) 57 ⟨.markup, true⟩ =
        some ⟨"/p#a.b*2", 49⟩ := by
  have hw : ∀ c ∈ "/p#a.b*2".toList, isAbbreviationChar c = true ∧ c ≠ '>' := by
    simp [isAbbreviationChar, operators]
  have hhead : ∀ c ∈ "/p#a.b*2".toList.head?, c ≠ '*' ∧ c ≠ '+' ∧ c ≠ '^' := by
    intro c hc
    obtain rfl : '/' = c := Option.some.inj hc
    decide
  refine ⟨by decide, by decide, hw, hhead, ?_⟩
  exact find?_after_tag "é=\"x".toList checkedInput (by decide) hw hhead true

end Emmet.Abbreviation
