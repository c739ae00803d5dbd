import Emmet.Completion.Assembly
import Mathlib.Data.List.NodupEquivFin

/-!
# Characters that come up in order

A candidate is plausible if the typed characters come up in its label in their order, whatever their
letter case. One pass through the label finds out: every typed character is looked for behind the
place where the one before it was found, and what was passed is not looked at again. All characters
are read one by one in lower case, so of a character that has several in lower case only the first
ones may have been read.

* `HasPlaces` : places in the label for all typed characters, from left to right;
* `Letters` : the characters in lower case that are still to be read;
* `Letters.comeUpIn_iff` : the pass finds places if there are any;
* `matchesInOrder_iff_hasPlaces` : so it matches just if there are, and matching is a preorder.
-/

namespace Emmet.Completion

open Text

/-- Characters have places among letters, each one right of the place of the one before. -/
def HasPlaces (wanted letters : List Char) : Prop :=
  ∃ place : Fin wanted.length → Fin letters.length,
    StrictMono place ∧ ∀ i, letters[place i] = wanted[i]

/-- Characters in lower case that are still to be read: those left of the character that is being
read, and those of the text behind it. -/
structure Letters where
  front : List Char
  rest : List Char

namespace Letters

/-- The letters of a text. -/
def ofText (text : String) : Letters := ⟨[], text.toList⟩

/-- All letters that are still to be read. -/
def toList (l : Letters) : List Char := l.front ++ lowerEach l.rest

/-- The first of some letters, those of a text behind them included, and what is left then. -/
def firstOf : List Char → List Char → Option (Char × Letters)
  | c :: front, rest => some (c, ⟨front, rest⟩)
  | [], [] => none
  | [], c :: rest => firstOf (lowerChar c) rest

/-- Reads a letter. -/
def next? (l : Letters) : Option (Char × Letters) := firstOf l.front l.rest

theorem firstOf_cases (front rest : List Char) :
    (firstOf front rest = none ∧ front ++ lowerEach rest = []) ∨
      ∃ c left, firstOf front rest = some (c, left) ∧
        front ++ lowerEach rest = c :: left.toList := by
  induction rest generalizing front with
  | nil =>
    cases front with
    | nil => exact .inl ⟨rfl, rfl⟩
    | cons c front => exact .inr ⟨c, ⟨front, []⟩, rfl, rfl⟩
  | cons d rest ih =>
    cases front with
    | nil => exact ih (lowerChar d)
    | cons c front => exact .inr ⟨c, ⟨front, d :: rest⟩, rfl, rfl⟩

variable {l label wanted left : Letters} {c : Char}

theorem toList_of_next?_eq_none (h : l.next? = none) : l.toList = [] := by
  obtain ⟨-, hnil⟩ | ⟨c, left, hsome, -⟩ := firstOf_cases l.front l.rest
  · exact hnil
  · cases h.symm.trans hsome

theorem toList_of_next?_eq_some (h : l.next? = some (c, left)) : l.toList = c :: left.toList := by
  obtain ⟨hnone, -⟩ | ⟨d, left', hsome, hcons⟩ := firstOf_cases l.front l.rest
  · cases h.symm.trans hnone
  · obtain ⟨rfl, rfl⟩ := Prod.mk.inj (Option.some.inj (h.symm.trans hsome))
    exact hcons

/-- Reads letters up to the first one that is wanted. -/
def skipPast (wanted : Char) (l : Letters) : Option Letters :=
  match _h : l.next? with
  | none => none
  | some (c, left) => if c = wanted then some left else skipPast wanted left
  termination_by l.toList.length
  decreasing_by simp [toList_of_next?_eq_some _h]

/-- Reads the letters of a label until every wanted one is found behind the one before it. -/
def comeUpIn (wanted label : Letters) : Bool :=
  match _h : wanted.next? with
  | none => true
  | some (c, left) =>
    match label.skipPast c with
    | none => false
    | some label => left.comeUpIn label
  termination_by wanted.toList.length
  decreasing_by simp [toList_of_next?_eq_some _h]

theorem not_mem_of_skipPast (h : l.skipPast c = none) : c ∉ l.toList := by
  fun_induction skipPast c l with
  | case1 l hnext => simp [toList_of_next?_eq_none hnext]
  | case2 l left hnext => cases h
  | case3 l d left hnext hne ih =>
    rw [toList_of_next?_eq_some hnext, List.mem_cons, not_or]
    exact ⟨Ne.symm hne, ih h⟩

/-- What was passed has no wanted letter but the last one. -/
theorem exists_skipped (h : l.skipPast c = some left) :
    ∃ skipped, l.toList = skipped ++ c :: left.toList ∧ c ∉ skipped := by
  fun_induction skipPast c l with
  | case1 l hnext => cases h
  | case2 l rest hnext =>
    obtain rfl := Option.some.inj h
    exact ⟨[], toList_of_next?_eq_some hnext, List.not_mem_nil⟩
  | case3 l d rest hnext hne ih =>
    obtain ⟨skipped, hrest, hmem⟩ := ih h
    refine ⟨d :: skipped, ?_, ?_⟩
    · rw [toList_of_next?_eq_some hnext, hrest, List.cons_append]
    · rw [List.mem_cons, not_or]
      exact ⟨Ne.symm hne, hmem⟩

end Letters

/-- It is never wrong to take the first place that there is. -/
theorem cons_sublist_append_cons_iff {c : Char} {skipped ws ls : List Char} (h : c ∉ skipped) :
    (c :: ws).Sublist (skipped ++ c :: ls) ↔ ws.Sublist ls := by
  induction skipped with
  | nil => exact List.cons_sublist_cons
  | cons d skipped ih =>
    rw [List.mem_cons, not_or] at h
    rw [List.cons_append, List.cons_sublist_cons', or_iff_left fun heq => h.1 heq.1, ih h.2]

namespace Letters

/-- One pass finds all wanted letters if they come up in order at all. -/
theorem comeUpIn_iff (wanted label : Letters) :
    wanted.comeUpIn label = true ↔ wanted.toList.Sublist label.toList := by
  fun_induction comeUpIn wanted label with
  | case1 label wanted hnext =>
    rw [toList_of_next?_eq_none hnext]
    exact iff_of_true rfl (List.nil_sublist _)
  | case2 label wanted c left hnext hskip =>
    rw [toList_of_next?_eq_some hnext]
    refine iff_of_false Bool.false_ne_true fun hsub => ?_
    exact not_mem_of_skipPast hskip (hsub.subset List.mem_cons_self)
  | case3 label wanted c left hnext label' hskip ih =>
    obtain ⟨skipped, hlabel, hmem⟩ := exists_skipped hskip
    rw [toList_of_next?_eq_some hnext, hlabel, cons_sublist_append_cons_iff hmem]
    exact ih

end Letters

theorem hasPlaces_iff_sublist {wanted letters : List Char} :
    HasPlaces wanted letters ↔ wanted.Sublist letters := by
  rw [List.sublist_iff_exists_fin_orderEmbedding_get_eq]
  constructor
  · rintro ⟨place, hmono, hplace⟩
    exact ⟨.ofStrictMono place hmono, fun i => (hplace i).symm⟩
  · rintro ⟨place, hplace⟩
    exact ⟨place, place.strictMono, fun i => (hplace i).symm⟩

theorem matchesInOrder_iff_sublist {label abbreviation : String} :
    matchesInOrder label abbreviation = true ↔
      (lowerEach abbreviation.toList).Sublist (lowerEach label.toList) := by
  rw [matchesInOrder, List.isSublist_iff_sublist]

/-- **A label matches if the typed characters have places in it,** in lower case and in their order,
and one pass through the label finds that out. So a text matches itself, every label matches the
empty text, and what matches a match matches. -/
theorem matchesInOrder_iff_hasPlaces :
    (∀ label abbreviation,
      matchesInOrder label abbreviation = (Letters.ofText abbreviation).comeUpIn (.ofText label) ∧
      (matchesInOrder label abbreviation = true ↔
        HasPlaces (lowerEach abbreviation.toList) (lowerEach label.toList))) ∧
    (∀ text, matchesInOrder text text = true) ∧ (∀ label, matchesInOrder label "" = true) ∧
    ∀ label middle abbreviation, matchesInOrder label middle = true →
      matchesInOrder middle abbreviation = true → matchesInOrder label abbreviation = true := by
  refine ⟨fun label abbreviation => ⟨?_, ?_⟩, fun text => ?_, fun label => ?_,
    fun label middle abbreviation hmiddle hlast => ?_⟩
  · rw [Bool.eq_iff_iff, matchesInOrder_iff_sublist, Letters.comeUpIn_iff]
    rfl
  · rw [matchesInOrder_iff_sublist, hasPlaces_iff_sublist]
  · exact matchesInOrder_iff_sublist.2 (List.Sublist.refl _)
  · exact matchesInOrder_iff_sublist.2 (List.nil_sublist _)
  · rw [matchesInOrder_iff_sublist] at hmiddle hlast ⊢
    exact hlast.trans hmiddle

/-- The dotted capital I is two letters in lower case, and only the first of them is typed: the
match of the whole label with the text between is one with the typed text, too. -/
theorem matchesInOrder_dottedCapital :
    matchesInOrder "xİSt" "İs" = true ∧ matchesInOrder "İs" "IS" = true ∧
      matchesInOrder "xİSt" "IS" = true := by
  have hmiddle : matchesInOrder "xİSt" "İs" = true := by decide +kernel
  have hlast : matchesInOrder "İs" "IS" = true := by decide +kernel
  obtain ⟨-, -, -, htrans⟩ := matchesInOrder_iff_hasPlaces
  exact ⟨hmiddle, hlast, htrans _ _ _ hmiddle hlast⟩

end Emmet.Completion
