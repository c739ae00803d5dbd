import Emmet.Abbreviation.Filter
import Mathlib.Data.List.Basic

/-!
# Which filters are typed

Filters are peeled off a line one by one, written as a comma list, and read again from that list.
This file says which filters come out at the end.

* `peel_append` : nothing is lost in peeling;
* `mem_peel_iff` : just those behind which nothing but filters is typed, within the limit;
* `ofCodes_joined?` : writing filters as a comma list and reading it gives them back;
* `mem_ofCodes_iff` : the filters of any comma list are those whose code is one of its fields.
-/

namespace Emmet.Filter

/-! ### Peeled filters -/

theorem last?_eq_some {text body : List Char} {f : Filter} (h : last? text = some (f, body)) :
    text = body ++ f.suffix := by
  obtain ⟨g, -, hg⟩ := List.exists_of_findSome?_eq_some h
  obtain ⟨rest, hrest, heq⟩ := Option.map_eq_some_iff.1 hg
  obtain ⟨rfl, rfl⟩ := Prod.mk.inj heq
  exact (List.append_eq_of_isSuffixOf?_eq_some hrest).symm

theorem isAlphanum_of_mem_code {f : Filter} {c : Char} (h : c ∈ f.code.toList) :
    c.isAlphanum = true := by
  revert c
  rw [← List.all_eq_true]
  cases f <;> rfl

theorem last?_eq_none {text : List Char} (h : ∀ f : Filter, ¬ f.suffix <:+ text) :
    last? text = none := by
  refine Option.eq_none_iff_forall_ne_some.2 fun p hlast => ?_
  exact h p.1 ⟨p.2, (last?_eq_some hlast).symm⟩

theorem peel_of_not_isSuffix {limit : Nat} {text : List Char}
    (h : ∀ f : Filter, ¬ f.suffix <:+ text) : peel limit text = (text, []) := by
  cases limit with
  | zero => rfl
  | succ limit => rw [peel, last?_eq_none h]

/-- A text does not end with a filter if the bar would have to stand in the word at its end, or
before it, where a character stands that is neither a bar nor part of a code. -/
theorem not_isSuffix_append {front word : List Char} (hword : '|' ∉ word)
    (hfront : ∀ c ∈ front.getLast?, c ≠ '|' ∧ c.isAlphanum = false) (f : Filter) :
    ¬ f.suffix <:+ front ++ word := by
  rintro ⟨body, h⟩
  rcases List.append_eq_append_iff.1 h.symm with ⟨back, -, rfl⟩ | ⟨back, rfl, hback⟩
  · simp [suffix] at hword
  -- the bar and a part of the code stand in front of the word
  · rcases List.eq_nil_or_concat back with rfl | ⟨codeFront, d, rfl⟩
    · rw [List.nil_append] at hback
      exact absurd (hback ▸ List.mem_cons_self) hword
    · rw [List.concat_eq_append, ← List.append_assoc] at hfront
      obtain ⟨hbar, hnot⟩ := hfront d List.getLast?_concat
      have hd : d ∈ f.suffix := by simp [hback]
      rw [isAlphanum_of_mem_code ((List.mem_cons.1 hd).resolve_left hbar)] at hnot
      cases hnot

/-- Nothing is lost in peeling. -/
theorem peel_append (limit : Nat) (text : List Char) :
    (peel limit text).1 ++ suffixes (peel limit text).2 = text := by
  induction limit generalizing text with
  | zero => simp [peel, suffixes]
  | succ limit ih =>
    rw [peel]
    split
    · next f body hl =>
      have := ih body
      simp only [suffixes] at this
      simp only [suffixes, List.flatMap_append, List.flatMap_cons, List.flatMap_nil,
        List.append_nil, ← List.append_assoc, this]
      exact (last?_eq_some hl).symm
    · simp [suffixes]

/-! ### Typed filters -/

/-- A filter is typed at the end of a text if nothing but filters stands behind it. Of all of them
only the last ones count, as many as the limit says. -/
def IsTyped (limit : Nat) (text : List Char) (f : Filter) : Prop :=
  ∃ body fs, text = body ++ suffixes (f :: fs) ∧ fs.length < limit

theorem suffixes_append (fs gs : List Filter) : suffixes (fs ++ gs) = suffixes fs ++ suffixes gs :=
  List.flatMap_append

theorem suffixes_singleton (f : Filter) : suffixes [f] = f.suffix := List.append_nil _

/-- No suffix of a filter is an end of another one. -/
theorem last?_append_suffix (body : List Char) (f : Filter) :
    last? (body ++ f.suffix) = some (f, body) := by
  cases f <;> simp [last?, all, suffix, code, List.isSuffixOf?, List.isPrefixOf?]

/-- Behind a filter that is typed last there is no other one, else the last of them is known. -/
theorem isTyped_append_suffix_iff {limit : Nat} {body : List Char} {f g : Filter} :
    IsTyped (limit + 1) (body ++ g.suffix) f ↔ IsTyped limit body f ∨ f = g := by
  constructor
  · rintro ⟨front, fs, htext, hlimit⟩
    obtain rfl | ⟨fs, h, rfl⟩ := List.eq_nil_or_concat fs
    · rw [suffixes_singleton] at htext
      have hlast := last?_append_suffix body g
      rw [htext, last?_append_suffix] at hlast
      exact .inr (congrArg Prod.fst (Option.some.inj hlast))
    · rw [List.concat_eq_append, ← List.cons_append, suffixes_append, suffixes_singleton,
        ← List.append_assoc] at htext
      have hlast := last?_append_suffix body g
      rw [htext, last?_append_suffix] at hlast
      have hbody := congrArg Prod.snd (Option.some.inj hlast)
      rw [List.concat_eq_append, List.length_append] at hlimit
      exact .inl ⟨front, fs, hbody.symm, Nat.lt_of_succ_lt_succ hlimit⟩
  · rintro (⟨front, fs, rfl, hlimit⟩ | rfl)
    · refine ⟨front, fs ++ [g], ?_, ?_⟩
      · rw [← List.cons_append, suffixes_append, suffixes_singleton, List.append_assoc]
      · rw [List.length_append]
        exact Nat.succ_lt_succ hlimit
    · refine ⟨body, [], ?_, Nat.succ_pos limit⟩
      rw [suffixes_singleton]

/-- The filters that are peeled off a text are those typed at its end. -/
theorem mem_peel_iff {limit : Nat} {text : List Char} {f : Filter} :
    f ∈ (peel limit text).2 ↔ IsTyped limit text f := by
  induction limit generalizing text with
  | zero =>
    refine iff_of_false List.not_mem_nil ?_
    rintro ⟨-, fs, -, hlimit⟩
    exact Nat.not_lt_zero _ hlimit
  | succ limit ih =>
    rw [peel]
    split
    · next g body hlast =>
      rw [last?_eq_some hlast, List.mem_append, ih, List.mem_singleton, isTyped_append_suffix_iff]
    · next hlast =>
      refine iff_of_false List.not_mem_nil ?_
      rintro ⟨front, fs, rfl, -⟩
      -- a typed filter would be found: the last one of those that are typed
      obtain ⟨gs, g, hgs⟩ := List.eq_nil_or_concat (f :: fs) |>.resolve_left (List.cons_ne_nil _ _)
      rw [hgs, List.concat_eq_append, suffixes_append, suffixes_singleton, ← List.append_assoc,
        last?_append_suffix] at hlast
      cases hlast

/-! ### Comma lists of codes -/

theorem ofCode?_eq_some_iff {code : List Char} {f : Filter} :
    ofCode? code = some f ↔ Text.trim code = f.code.toList := by
  constructor
  · intro h
    have hfound := List.find?_some h
    exact (eq_of_beq hfound).symm
  · intro h
    unfold ofCode?
    rw [h]
    cases f <;> decide

/-- The filters of a comma list are those whose code is one of its fields, blanks around a field not
counted. -/
theorem mem_ofCodes_iff {codes : String} {f : Filter} :
    f ∈ ofCodes codes ↔
      ∃ field ∈ codes.toList.splitOn ',', Text.trim field = f.code.toList := by
  unfold ofCodes Text.commaFields
  rw [List.filterMap_map, List.mem_filterMap]
  simp only [Function.comp_apply, ofCode?_eq_some_iff, Text.trim_trim]

/-- Filters that are written as a comma list are read as they were. -/
theorem ofCodes_joined? (fs : List Filter) : ((joined? fs).map ofCodes).getD [] = fs := by
  unfold joined?
  cases fs with
  | nil => rfl
  | cons f fs =>
    have hcomma : ∀ cs ∈ ((f :: fs).map code).map String.toList, ',' ∉ cs := by
      intro cs hcs
      obtain ⟨s, hs, rfl⟩ := List.mem_map.1 hcs
      obtain ⟨g, -, rfl⟩ := List.mem_map.1 hs
      cases g <;> decide
    have hfields := List.splitOn_intercalate ',' hcomma (List.cons_ne_nil _ _)
    have hread : ∀ g : Filter, ofCode? (Text.trim g.code.toList) = some g := fun g => by
      cases g <;> decide
    rw [List.isEmpty_cons, if_neg Bool.false_ne_true, Option.map_some, Option.getD_some, ofCodes,
      Text.commaFields, String.toList_intercalate, show (",": String).toList = [','] from rfl,
      hfields, List.map_map, List.map_map, List.filterMap_map]
    simp only [Function.comp_def, hread, List.filterMap_some]

end Emmet.Filter
