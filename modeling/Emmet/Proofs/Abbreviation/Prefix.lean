import Emmet.Abbreviation.Validity
import Emmet.Vendor
import Mathlib.Data.List.Basic
import Mathlib.Data.List.TakeWhile

/-!
# Plausible abbreviations behind a vendor prefix

The rules of style sheets read a text with or without a color at its end. This file puts them into
one equation for each of the two, and compares an abbreviation with what is left of it without its
vendor prefix: the rules know one hyphen at the front, but no prefix.

* `isSheetValid_of_not_mem`, `isSheetValid_append_hash` : what the rules decide;
* `Vendor.split_cases` : what a prefix looks like;
* `WronglyAccepted` : the prefix makes a text plausible that is not plausible without it;
* `WronglyRejected` : the prefix hides a plausible text;
* `judged_split` : these are all cases in which the prefix makes a difference.
-/

namespace Emmet

namespace Vendor

/-- What a prefix looks like. A lone hyphen is not followed by another one with something behind it
in the same line, for that would be a prefix without letters. -/
theorem split_cases (cs : List Char) : split cs = ([], cs) ∨
    (∃ rest, cs = '-' :: rest ∧ split cs = (['-'], rest) ∧
      ∀ c tail, rest = '-' :: c :: tail → c = '\n') ∨
    ∃ letters rest, cs = '-' :: (letters ++ '-' :: rest) ∧
      split cs = ('-' :: (letters ++ ['-']), rest) ∧ (∀ c ∈ letters, isLetter c = true) ∧
      rest ≠ [] := by
  unfold split
  split
  · next rest =>
    refine .inr ?_
    split
    · next c tail hdrop =>
      split
      · next hc =>
        refine .inl ⟨rest, rfl, rfl, fun d more hrest => ?_⟩
        -- a hyphen is no letter, so the letters are none
        rw [hrest, List.dropWhile_cons_of_neg (by decide)] at hdrop
        obtain ⟨rfl, -⟩ := List.cons.inj (List.cons.inj hdrop).2
        exact hc
      · refine .inr ⟨rest.takeWhile isLetter, c :: tail, ?_, rfl, fun d hd => ?_,
          List.cons_ne_nil c tail⟩
        · rw [← hdrop, List.takeWhile_append_dropWhile]
        · exact List.mem_takeWhile_imp hd
    · next hdrop =>
      refine .inl ⟨rest, rfl, rfl, fun c tail hrest => ?_⟩
      refine absurd ?_ (hdrop c tail)
      rw [hrest, List.dropWhile_cons_of_neg (by decide)]
  · exact .inl rfl

end Vendor

namespace Abbreviation

variable {cs before digits : List Char}

/-! ### Decisions -/

theorem firstDecision_pass {r : Rule} (h : r.check cs = .pass) (rs : List Rule) :
    firstDecision cs (r :: rs) = firstDecision cs rs := by
  rw [firstDecision, h]

theorem firstDecision_refuseIf {r : Rule} {b : Bool} (h : r.check cs = refuseIf b)
    (rs : List Rule) :
    (firstDecision cs (r :: rs)).valid = (!b && (firstDecision cs rs).valid) := by
  rw [firstDecision, h]
  cases b <;> rfl

theorem firstDecision_acceptIff {r : Rule} {b : Bool} (h : r.check cs = acceptIff b)
    (rs : List Rule) : (firstDecision cs (r :: rs)).valid = b := by
  rw [firstDecision, h]
  cases b <;> rfl

/-! ### What the rules of style sheets decide -/

/-- Whether a text is a plausible abbreviation of a style sheet. -/
def isSheetValid (cs : List Char) : Bool := (decideBy .stylesheet cs).valid

/-- A tag of more than one letter; with `#` behind it, it is a selector. -/
def isSelector (tag : List Char) : Bool :=
  1 < Text.bytes tag && Tag.isCommon (String.ofList tag)

/-- What properties start with: a letter, `!` or `@`, and maybe a hyphen before it. -/
def startsProperty (cs : List Char) : Bool :=
  match dropHyphen cs with
  | c :: _ => c.isAlpha || c == '!' || c == '@'
  | [] => false

theorem mem_of_mem_dropHyphen {c : Char} (h : c ∈ dropHyphen cs) : c ∈ cs := by
  unfold dropHyphen at h
  split at h
  · exact List.mem_cons_of_mem _ h
  · exact h

theorem hexColor_pass (h : cs.head? ≠ some '#') : hexColor.check cs = .pass := by
  unfold hexColor
  simp only
  split
  · exact absurd rfl h
  · rfl

theorem stylesheetStart_check (h : '#' ∉ cs) :
    stylesheetStart.check cs = acceptIff (startsProperty cs) := by
  simp only [stylesheetStart, startsProperty]
  cases hdrop : dropHyphen cs with
  | nil => rfl
  | cons c rest =>
    have hc : (c == '#') = false := by
      refine beq_false_of_ne ?_
      rintro rfl
      exact h (mem_of_mem_dropHyphen (hdrop ▸ List.mem_cons_self))
    simp only [List.contains_cons, List.contains_nil, hc, Bool.or_false, Bool.or_assoc]

/-- Without a color only the two ends of the text matter. -/
theorem isSheetValid_of_not_mem (h : '#' ∉ cs) :
    isSheetValid cs = (cs.getLast? != some ':' && startsProperty cs) := by
  cases hcs : cs with
  | nil => rfl
  | cons c rest =>
    have hhex : hexColor.check (c :: rest) = .pass := by
      refine hexColor_pass ?_
      rintro ⟨⟩
      exact h (hcs ▸ List.mem_cons_self)
    have hsplit : Text.splitOnce '#' (c :: rest) = none :=
      Text.splitOnce_eq_none_iff.2 (hcs ▸ h)
    have htag : tagWithHash.check (c :: rest) = .pass := by
      simp only [tagWithHash, hsplit]
    have hcolor : propertyHexValue.check (c :: rest) = .pass := by
      simp only [propertyHexValue, hsplit]
    have hstart := stylesheetStart_check (hcs ▸ h)
    rw [isSheetValid, decideBy, if_neg (List.cons_ne_nil c rest), rules,
      firstDecision_refuseIf rfl, firstDecision_pass hhex, firstDecision_pass htag,
      firstDecision_pass hcolor, firstDecision_acceptIff hstart]
    rfl

/-- A color does not end with a colon. -/
theorem getLast?_ne_colon (h : isColor digits = true) :
    (before ++ '#' :: digits).getLast? ≠ some ':' := by
  simp only [isColor, Bool.and_eq_true, decide_eq_true_eq] at h
  obtain ⟨⟨hlength, -⟩, hdigits⟩ := h
  obtain rfl | ⟨front, d, rfl⟩ := List.eq_nil_or_concat digits
  · cases hlength
  rw [List.concat_eq_append] at hdigits ⊢
  rw [← List.cons_append, ← List.append_assoc, List.getLast?_concat]
  rintro ⟨⟩
  have hcolon := List.all_eq_true.1 hdigits ':' (List.mem_append_right _ List.mem_cons_self)
  exact absurd hcolon (by decide)

/-- A color stands alone or behind a property that is no selector. -/
theorem isSheetValid_append_hash (h : '#' ∉ before) :
    isSheetValid (before ++ '#' :: digits) =
      (isColor digits && (before.isEmpty || isProperty before && !isSelector before)) := by
  have hsplit := Text.splitOnce_append h digits
  have hcolon : isColor digits = true →
      (before ++ '#' :: digits).getLast? ≠ some ':' := getLast?_ne_colon
  rw [isSheetValid, decideBy, if_neg (by simp), rules, firstDecision_refuseIf rfl]
  cases hbefore : before with
  | nil =>
    rw [hbefore] at hcolon
    have hhex : hexColor.check ('#' :: digits) = acceptIff (isColor digits) := rfl
    rw [List.nil_append, firstDecision_acceptIff hhex]
    cases hdigits : isColor digits with
    | false => simp
    | true => simpa using hcolon hdigits
  | cons c rest =>
    rw [hbefore] at hsplit hcolon h
    have hhex : hexColor.check (c :: rest ++ '#' :: digits) = .pass := by
      refine hexColor_pass ?_
      rintro ⟨⟩
      exact h List.mem_cons_self
    have htag : tagWithHash.check (c :: rest ++ '#' :: digits) =
        refuseIf (isSelector (c :: rest)) := by
      simp only [tagWithHash, hsplit, isSelector]
    have hcolor : propertyHexValue.check (c :: rest ++ '#' :: digits) =
        acceptIff (isProperty (c :: rest) && isColor digits) := by
      simp only [propertyHexValue, hsplit]
    rw [firstDecision_pass hhex, firstDecision_refuseIf htag, firstDecision_acceptIff hcolor]
    cases hdigits : isColor digits with
    | false => simp
    | true =>
      rw [beq_eq_false_iff_ne.2 (hcolon hdigits)]
      simp [Bool.and_comm]

/-! ### Behind a hyphen -/

/-- A second hyphen is as bad as a line break: only the first character behind one hyphen counts. -/
theorem dropHyphen_hyphen (read : List Char → Bool) (hnil : read [] = false)
    (hhyphen : ∀ tail, read ('-' :: tail) = false) (hbreak : ∀ tail, read ('\n' :: tail) = false)
    (h : ∀ c tail, cs = '-' :: c :: tail → c = '\n') :
    read (dropHyphen ('-' :: cs)) = read (dropHyphen cs) := by
  rw [show dropHyphen ('-' :: cs) = cs from rfl]
  cases hcs : cs with
  | nil => rfl
  | cons c rest =>
    by_cases hc : c = '-'
    · rw [hc, hhyphen, show dropHyphen ('-' :: rest) = rest from rfl]
      cases hrest : rest with
      | nil => exact hnil.symm
      | cons d tail =>
        rw [h d tail (by rw [hcs, hc, hrest]), hbreak]
    · have hdrop : dropHyphen (c :: rest) = c :: rest := by
        unfold dropHyphen
        split
        · next heq => exact absurd (List.cons.inj heq).1 hc
        · rfl
      rw [hdrop]

theorem startsProperty_hyphen (h : ∀ c tail, cs = '-' :: c :: tail → c = '\n') :
    startsProperty ('-' :: cs) = startsProperty cs :=
  dropHyphen_hyphen (fun cs => match cs with
    | c :: _ => c.isAlpha || c == '!' || c == '@'
    | [] => false) rfl (fun _ => rfl) (fun _ => rfl) h

theorem isProperty_hyphen (h : ∀ c tail, cs = '-' :: c :: tail → c = '\n') :
    isProperty ('-' :: cs) = isProperty cs :=
  dropHyphen_hyphen (fun cs => match cs with
    | c :: cs => c.isAlpha && cs.all isPropertyChar
    | [] => false) rfl (fun _ => rfl) (fun _ => rfl) h

/-- Selectors are properties by their characters, and none starts with a hyphen. -/
theorem of_isSelector (h : isSelector before = true) :
    isProperty before = true ∧ before.head? ≠ some '-' := by
  have hall : ∀ tag ∈ Tag.common, isProperty tag.toList = true ∧ tag.toList.head? ≠ some '-' := by
    decide +kernel
  simp only [isSelector, Bool.and_eq_true, Tag.isCommon, List.contains_iff_mem] at h
  have hbefore := hall _ h.2
  rwa [String.toList_ofList] at hbefore

theorem isSelector_hyphen : isSelector ('-' :: cs) = false := by
  by_contra h
  rw [Bool.not_eq_false] at h
  exact (of_isSelector h).2 rfl

/-! ### Behind letters of vendors -/

theorem of_isLetter {c : Char} (h : Vendor.isLetter c = true) :
    c.isAlpha = true ∧ isPropertyChar c = true ∧ c ≠ '#' := by
  obtain ⟨v, hv⟩ := Option.isSome_iff_exists.1 h
  have hletter := List.find?_some hv
  obtain rfl := eq_of_beq hletter
  cases v <;> decide

section Letters

variable {letters : List Char} (hletters : ∀ c ∈ letters, Vendor.isLetter c = true)
  (hne : letters ≠ [])
include hletters hne

theorem startsProperty_letters (rest : List Char) :
    startsProperty ('-' :: (letters ++ '-' :: rest)) = true := by
  obtain ⟨c, letters, rfl⟩ := List.exists_cons_of_ne_nil hne
  have hc := (of_isLetter (hletters c List.mem_cons_self)).1
  change (c.isAlpha || c == '!' || c == '@') = true
  rw [hc, Bool.true_or, Bool.true_or]

/-- The letters are read as the start of a property, whose characters go on behind them. -/
theorem isProperty_letters (before : List Char) :
    isProperty ('-' :: (letters ++ '-' :: before)) = before.all isPropertyChar := by
  obtain ⟨c, letters, rfl⟩ := List.exists_cons_of_ne_nil hne
  have hc := (of_isLetter (hletters c List.mem_cons_self)).1
  have hall : letters.all isPropertyChar = true := List.all_eq_true.2 fun d hd =>
    (of_isLetter (hletters d (List.mem_cons_of_mem c hd))).2.1
  change (c.isAlpha && (letters ++ '-' :: before).all isPropertyChar) = _
  rw [hc, Bool.true_and, List.all_append, hall, Bool.true_and, List.all_cons]
  rfl

omit hne in
theorem hash_not_mem_letters {before : List Char} (h : '#' ∉ before) :
    '#' ∉ '-' :: (letters ++ '-' :: before) := by
  have hhash : '#' ∉ letters := fun hmem => (of_isLetter (hletters _ hmem)).2.2 rfl
  simp [hhash, h]

end Letters

/-! ### What a prefix changes -/

/-- With its prefix a text is plausible, but it is not without it: a selector is none behind the
prefix, and letters of vendors pass for the start of a property. -/
def WronglyAccepted (lead rest : List Char) : Prop :=
  match Text.splitOnce '#' rest with
  | none => 2 < lead.length ∧ rest.getLast? ≠ some ':' ∧ startsProperty rest = false
  | some (before, digits) => isColor digits = true ∧
      (isSelector before = true ∧ lead ≠ [] ∧ lead ≠ ['-', '-'] ∨
        2 < lead.length ∧ before ≠ [] ∧ before.all isPropertyChar = true ∧
          isProperty before = false)

/-- Without its prefix a text is plausible, but it is not with it: a color behind a hyphen, and
anything behind a prefix without letters. -/
def WronglyRejected (lead rest : List Char) : Prop :=
  isSheetValid rest = true ∧ (lead = ['-', '-'] ∨ lead = ['-'] ∧ rest.head? = some '#')

/-- Of a text and the rest of it without its prefix, both or none is plausible, apart from what is
wrongly accepted or rejected. -/
structure Judged (lead cs rest : List Char) : Prop where
  accepted : isSheetValid cs = true ∧ isSheetValid rest = false ↔ WronglyAccepted lead rest
  rejected : isSheetValid cs = false ∧ isSheetValid rest = true ↔ WronglyRejected lead rest

/-- Characters of a property may stand behind those that it starts with. -/
theorem all_isPropertyChar (h : isProperty before = true) : before.all isPropertyChar = true := by
  unfold isProperty at h
  split at h
  · next c cs hdrop =>
    obtain ⟨hc, hcs⟩ := Bool.and_eq_true_iff.1 h
    have hword : isPropertyChar c = true := by
      have halphanum : c.isAlphanum = true := by rw [Char.isAlphanum, hc, Bool.true_or]
      rw [isPropertyChar, Text.isWord_of_isAlphanum halphanum, Bool.true_or]
    unfold dropHyphen at hdrop
    split at hdrop
    · rw [hdrop, List.all_cons, List.all_cons, hword, hcs]
      rfl
    · rw [hdrop, List.all_cons, hword, hcs]
      rfl
  · cases h

theorem judged_hyphen {rest : List Char} (h : ∀ c tail, rest = '-' :: c :: tail → c = '\n') :
    Judged ['-'] ('-' :: rest) rest := by
  by_cases hhash : '#' ∈ rest
  · obtain ⟨before, digits, rfl, hbefore⟩ := List.eq_append_cons_of_mem hhash
    have hwhole : isSheetValid ('-' :: (before ++ '#' :: digits)) =
        (isColor digits && isProperty ('-' :: before)) := by
      have hmem : '#' ∉ '-' :: before := by simp [hbefore]
      rw [← List.cons_append, isSheetValid_append_hash hmem, isSelector_hyphen]
      simp
    have hsplit := Text.splitOnce_append hbefore digits
    cases before with
    | nil =>
      -- the color is plausible alone, and not behind the hyphen
      have hfalse : isSheetValid ('-' :: '#' :: digits) = false :=
        hwhole.trans (Bool.and_false _)
      refine ⟨?_, ?_⟩
      · rw [WronglyAccepted, hsplit]
        simp [hfalse, isSelector]
      · simp [hfalse, WronglyRejected]
    | cons c tail =>
      have hproperty : isProperty ('-' :: c :: tail) = isProperty (c :: tail) :=
        isProperty_hyphen fun d more hd => h d (more ++ '#' :: digits) (by rw [hd]; rfl)
      have hc : c ≠ '#' := fun hc => hbefore (hc ▸ List.mem_cons_self)
      rw [hproperty] at hwhole
      have hrest := @isSheetValid_append_hash (c :: tail) digits hbefore
      refine ⟨?_, ?_⟩
      · rw [hwhole, hrest, WronglyAccepted, hsplit]
        have hselector := @of_isSelector (c :: tail)
        simp only [List.length_cons, List.length_nil, List.isEmpty_cons]
        grind
      · rw [hwhole, hrest, WronglyRejected]
        simp only [List.head?_cons, List.cons_append, List.isEmpty_cons]
        grind
  · have hwhole : isSheetValid ('-' :: rest) = isSheetValid rest := by
      have hmem : '#' ∉ '-' :: rest := by simp [hhash]
      rw [isSheetValid_of_not_mem hmem, isSheetValid_of_not_mem hhash, startsProperty_hyphen h]
      cases rest with
      | nil => rfl
      | cons c tail => rw [List.getLast?_cons_cons]
    refine ⟨?_, ?_⟩
    · rw [hwhole, WronglyAccepted, Text.splitOnce_eq_none_iff.2 hhash]
      simp
    · have hhead : rest.head? ≠ some '#' := fun hhead => hhash (List.mem_of_mem_head? hhead)
      simp [hwhole, WronglyRejected, hhead]

/-- Nothing is plausible behind two hyphens. -/
theorem judged_hyphens {rest : List Char} : Judged ['-', '-'] ('-' :: '-' :: rest) rest := by
  have hwhole : isSheetValid ('-' :: '-' :: rest) = false := by
    by_cases hhash : '#' ∈ rest
    · obtain ⟨before, digits, rfl, hbefore⟩ := List.eq_append_cons_of_mem hhash
      have hmem : '#' ∉ '-' :: '-' :: before := by simp [hbefore]
      rw [← List.cons_append, ← List.cons_append, isSheetValid_append_hash hmem]
      exact Bool.and_false _
    · have hmem : '#' ∉ '-' :: '-' :: rest := by simp [hhash]
      rw [isSheetValid_of_not_mem hmem]
      exact Bool.and_false _
  refine ⟨?_, ?_⟩
  · rw [hwhole, WronglyAccepted]
    split
    · simp
    · simp
  · simp [hwhole, WronglyRejected]

theorem judged_letters {letters rest : List Char}
    (hletters : ∀ c ∈ letters, Vendor.isLetter c = true) (hne : letters ≠ []) (hrest : rest ≠ []) :
    Judged ('-' :: (letters ++ ['-'])) ('-' :: (letters ++ '-' :: rest)) rest := by
  have hlength : 2 < ('-' :: (letters ++ ['-'])).length := by
    obtain ⟨c, letters, rfl⟩ := List.exists_cons_of_ne_nil hne
    simp
  generalize hlead : '-' :: (letters ++ ['-']) = lead at hlength
  have hnone : lead ≠ [] := by
    rintro rfl
    cases hlength
  have hhyphens : lead ≠ ['-', '-'] := by
    rintro rfl
    exact Nat.lt_irrefl 2 hlength
  have hhyphen : lead ≠ ['-'] := by
    rintro rfl
    exact absurd hlength (by decide)
  by_cases hhash : '#' ∈ rest
  · obtain ⟨before, digits, rfl, hbefore⟩ := List.eq_append_cons_of_mem hhash
    have hwhole : isSheetValid ('-' :: (letters ++ '-' :: (before ++ '#' :: digits))) =
        (isColor digits && before.all isPropertyChar) := by
      have hsame : '-' :: (letters ++ '-' :: (before ++ '#' :: digits)) =
          '-' :: (letters ++ '-' :: before) ++ '#' :: digits := by simp
      rw [hsame, isSheetValid_append_hash (hash_not_mem_letters hletters hbefore),
        isProperty_letters hletters hne, isSelector_hyphen]
      simp
    have hsplit := Text.splitOnce_append hbefore digits
    have hselector := @of_isSelector before
    have hall := @all_isPropertyChar before
    refine ⟨?_, ?_⟩
    · rw [hwhole, isSheetValid_append_hash hbefore, WronglyAccepted, hsplit]
      have hnil : isProperty [] = false := rfl
      grind
    · rw [hwhole, isSheetValid_append_hash hbefore, WronglyRejected]
      grind
  · have hwhole : isSheetValid ('-' :: (letters ++ '-' :: rest)) =
        (rest.getLast? != some ':') := by
      have hmem := hash_not_mem_letters hletters hhash
      rw [isSheetValid_of_not_mem hmem, startsProperty_letters hletters hne, Bool.and_true,
        List.append_cons, ← List.cons_append, List.getLast?_append_of_ne_nil _ hrest]
    refine ⟨?_, ?_⟩
    · rw [hwhole, isSheetValid_of_not_mem hhash, WronglyAccepted,
        Text.splitOnce_eq_none_iff.2 hhash]
      grind
    · rw [hwhole, isSheetValid_of_not_mem hhash, WronglyRejected]
      grind

/-- The rules come to the same decision with and without the prefix, apart from the texts that are
wrongly accepted or rejected. -/
theorem judged_split (cs : List Char) : Judged (Vendor.split cs).1 cs (Vendor.split cs).2 := by
  obtain hsplit | ⟨rest, rfl, hsplit, h⟩ | ⟨letters, rest, rfl, hsplit, hletters, hrest⟩ :=
    Vendor.split_cases cs
  · rw [hsplit]
    refine ⟨?_, ?_⟩
    · rw [WronglyAccepted]
      split
      · simp
      · simp
    · simp [WronglyRejected]
  · rw [hsplit]
    exact judged_hyphen h
  · rw [hsplit]
    by_cases hne : letters = []
    · rw [hne]
      exact judged_hyphens
    · exact judged_letters hletters hne hrest

end Abbreviation

end Emmet
