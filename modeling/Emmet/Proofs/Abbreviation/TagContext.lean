import Emmet.Proofs.Abbreviation.TagEnd

/-!
# Tags with more text left of them

The detection of a tag reads to the left. What it reads before it comes to the left end of the text
does not depend on the text further left, so a tag that is found in a text is found with more text
left of it. The other way round this is false: a name at the left end may go on, and a `<` may stand
there.

* `round_append` : more text changes nothing in a round that does not read all of the text;
* `opensTag_append`, `endsTag_append` : a tag that is found is found with more text.
-/

namespace Emmet.Abbreviation

variable {left rest : List Char}

/-! ### Names and attributes -/

theorem beforeName_append (h : beforeName left = some rest) (hne : rest ≠ []) (more : List Char) :
    beforeName (left ++ more) = some (rest ++ more) := by
  obtain ⟨name, hname, rfl, hstop⟩ := beforeName_eq_some_iff.1 h
  refine beforeName_eq_some_iff.2 ⟨name, hname, List.append_assoc .., ?_⟩
  rwa [List.head?_append_of_ne_nil _ hne]

theorem beforeName_append_of_none (h : beforeName left = none) (hne : left ≠ [])
    (more : List Char) : beforeName (left ++ more) = none := by
  obtain ⟨c, left, rfl⟩ := List.exists_cons_of_ne_nil hne
  have hc : isNameChar c = false := by simpa [beforeName] using h
  simp [beforeName, hc]

theorem isSome_beforeName_append (h : (beforeName left).isSome = true) (more : List Char) :
    (beforeName (left ++ more)).isSome = true := by
  obtain ⟨c, rest, rfl, hc⟩ := beforeName_isSome_iff.1 h
  exact beforeName_isSome_iff.2 ⟨c, rest ++ more, rfl, hc⟩

theorem beforeQuoteOpening_append {quote : Char} (h : beforeQuoteOpening quote left = some rest)
    (hne : rest ≠ []) (more : List Char) :
    beforeQuoteOpening quote (left ++ more) = some (rest ++ more) := by
  induction left with
  | nil => cases h
  | cons c left ih =>
    simp only [beforeQuoteOpening] at h
    rw [List.cons_append, beforeQuoteOpening]
    split at h
    · next hquote =>
      obtain rfl := Option.some.inj h
      rw [List.head?_append_of_ne_nil _ hne, if_pos hquote]
    · next hquote =>
      have hleft : left ≠ [] := by
        rintro rfl
        cases h
      rw [List.head?_append_of_ne_nil _ hleft, if_neg hquote]
      exact ih h

theorem beforeQuoted_append (h : beforeQuoted left = some rest) (hne : rest ≠ [])
    (more : List Char) : beforeQuoted (left ++ more) = some (rest ++ more) := by
  cases left with
  | nil => cases h
  | cons c left =>
    simp only [beforeQuoted] at h
    split at h
    · next hc =>
      rw [List.cons_append, beforeQuoted, if_pos hc]
      exact beforeQuoteOpening_append h hne more
    · cases h

theorem beforeQuotedAttribute_append (h : beforeQuotedAttribute left = some rest) (hne : rest ≠ [])
    (more : List Char) : beforeQuotedAttribute (left ++ more) = some (rest ++ more) := by
  obtain ⟨name, hname, hrest⟩ := Option.bind_eq_some_iff.1 h
  obtain ⟨sign, hsign, hname⟩ := Option.bind_eq_some_iff.1 hname
  obtain rfl := beforeChar_eq_some_iff.1 hname
  have hsign' := beforeQuoted_append hsign (List.cons_ne_nil '=' name) more
  rw [beforeQuotedAttribute, hsign', Option.bind_some, List.cons_append, beforeChar, if_pos rfl,
    Option.bind_some]
  exact beforeName_append hrest hne more

theorem beforeBareAttribute_append (h : beforeBareAttribute left = some rest) (hne : rest ≠ [])
    (more : List Char) : beforeBareAttribute (left ++ more) = some (rest ++ more) := by
  obtain ⟨value, name, hvalue, hbare, rfl, hname⟩ := beforeBareAttribute_eq_some_iff.1 h
  exact beforeBareAttribute_eq_some_iff.2 ⟨value, name ++ more, hvalue, hbare,
    List.append_assoc .., beforeName_append hname hne more⟩

theorem isSome_beforeBareAttribute_append (h : (beforeBareAttribute left).isSome = true)
    (more : List Char) : (beforeBareAttribute (left ++ more)).isSome = true := by
  obtain ⟨rest, hrest⟩ := Option.isSome_iff_exists.1 h
  obtain ⟨value, name, hvalue, hbare, rfl, hname⟩ := beforeBareAttribute_eq_some_iff.1 hrest
  obtain ⟨rest', hname'⟩ := Option.isSome_iff_exists.1
    (isSome_beforeName_append (Option.isSome_of_eq_some hname) more)
  exact Option.isSome_of_eq_some (beforeBareAttribute_eq_some_iff.2
    ⟨value, name ++ more, hvalue, hbare, List.append_assoc .., hname'⟩)

/-- A value without quotation marks has none at its end, so no more text makes it a quoted one. -/
theorem beforeQuotedAttribute_append_of_bare (h : beforeBareAttribute left = some rest)
    (more : List Char) : beforeQuotedAttribute (left ++ more) = none := by
  obtain ⟨value, name, hne, hbare, rfl, -⟩ := beforeBareAttribute_eq_some_iff.1 h
  obtain ⟨c, value, rfl⟩ := List.exists_cons_of_ne_nil hne
  simp [beforeQuotedAttribute, beforeQuoted, (hbare.isPlain c List.mem_cons_self).1]

theorem beforeAttribute_append (h : beforeAttribute left = some rest) (hne : rest ≠ [])
    (more : List Char) : beforeAttribute (left ++ more) = some (rest ++ more) := by
  unfold beforeAttribute at h
  split at h
  · next hquoted =>
    obtain rfl := Option.some.inj h
    rw [beforeAttribute, beforeQuotedAttribute_append hquoted hne more]
  · rw [beforeAttribute, beforeQuotedAttribute_append_of_bare h more]
    exact beforeBareAttribute_append h hne more

/-! ### Rounds -/

/-- The outcome of a round with more text left of what it reads. -/
def Round.append (more : List Char) : Round → Round
  | .more left => .more (left ++ more)
  | r => r

/-- More text changes nothing in a round after a name that does not read all of the text. -/
theorem roundAfterName_append {r : Round} (h : roundAfterName left = r) (hlost : r ≠ .lost)
    (hend : r ≠ .more []) (more : List Char) : roundAfterName (left ++ more) = r.append more := by
  cases left with
  | nil => exact absurd h.symm hlost
  | cons c left =>
    rw [roundAfterName] at h
    rw [List.cons_append, roundAfterName]
    split at h
    · next hslash =>
      rw [if_pos hslash]
      split at h
      · next hlt =>
        obtain rfl := h
        rw [List.head?_append, hlt]
        rfl
      · exact absurd h.symm hlost
    next hslash =>
    rw [if_neg hslash]
    split at h
    · next hlt =>
      obtain rfl := h
      rw [if_pos hlt]
      rfl
    next hlt =>
    rw [if_neg hlt]
    split at h
    · next hblank =>
      obtain rfl := h
      rw [if_pos hblank]
      rfl
    next hblank =>
    rw [if_neg hblank]
    split at h
    · next hsign =>
      rw [if_pos hsign]
      split at h
      · next rest hname =>
        obtain rfl := h
        rw [beforeName_append hname (fun hnil => hend (congrArg Round.more hnil)) more]
        rfl
      · exact absurd h.symm hlost
    next hsign =>
    rw [if_neg hsign]
    split at h
    · next hvalue =>
      obtain rfl := h
      exact if_pos (isSome_beforeBareAttribute_append hvalue more)
    · exact absurd h.symm hlost

/-- More text changes nothing in a round that does not read all of the text. -/
theorem round_append {r : Round} (h : round left = r) (hlost : r ≠ .lost) (hend : r ≠ .more [])
    (more : List Char) : round (left ++ more) = r.append more := by
  have hne : left.dropWhile Text.isAsciiBlank ≠ [] := by
    intro hnil
    rw [round, hnil] at h
    exact hlost h.symm
  have hdrop : (left ++ more).dropWhile Text.isAsciiBlank =
      left.dropWhile Text.isAsciiBlank ++ more := by
    rw [List.dropWhile_append, if_neg (by simpa using hne)]
  rw [round] at h
  rw [round, hdrop]
  split at h
  · next tail hname =>
    have htail : tail ≠ [] := by
      rintro rfl
      exact hlost h.symm
    rw [beforeName_append hname htail more]
    exact roundAfterName_append h hlost hend more
  · next hname =>
    rw [beforeName_append_of_none hname hne more]
    split at h
    · next rest hattribute =>
      obtain rfl := h
      rw [beforeAttribute_append hattribute (fun hnil => hend (congrArg Round.more hnil)) more]
      rfl
    · exact absurd h.symm hlost

/-! ### Tags -/

theorem opensTag_append (h : opensTag left = true) (more : List Char) :
    opensTag (left ++ more) = true := by
  induction left using opensTag.induct with
  | case1 left hround => exact opensTag_of_found (round_append hround (by simp) (by simp) more)
  | case2 left hround =>
    rw [opensTag_of_lost hround] at h
    cases h
  | case3 left rest hround ih =>
    rw [opensTag_of_more hround] at h
    have hne : rest ≠ [] := by
      rintro rfl
      rw [opensTag_of_lost rfl] at h
      cases h
    rw [opensTag_of_more (round_append hround (by simp) (by simpa using hne) more)]
    exact ih h

theorem dropSlash_append (hne : left ≠ []) (more : List Char) :
    dropSlash (left ++ more) = dropSlash left ++ more := by
  obtain ⟨c, left, rfl⟩ := List.exists_cons_of_ne_nil hne
  by_cases hc : c = '/'
  · rw [hc]
    rfl
  · simp [dropSlash, hc]

theorem endsTag_append (h : endsTag left = true) (more : List Char) :
    endsTag (left ++ more) = true := by
  cases left with
  | nil => cases h
  | cons c left =>
    by_cases hc : c = '>'
    · subst hc
      rw [endsTag_eq_opensTag] at h
      have hne : left ≠ [] := by
        rintro rfl
        rw [show dropSlash [] = [] from rfl, opensTag_of_lost rfl] at h
        cases h
      rw [List.cons_append, endsTag_eq_opensTag, dropSlash_append hne]
      exact opensTag_append h more
    · rw [endsTag_eq_false hc] at h
      cases h

end Emmet.Abbreviation
