import Emmet.Proofs.Template.Marker

/-!
# Finished templates stay as they are

A template is finished by renumbering its last tab stops and protecting its dollar signs. Neither
step makes or breaks a marker for the other: protecting puts backslashes only before dollar signs
that open nothing, and renumbering touches only digits inside openers.

* `stopsAfter_escapeDollars` : protecting keeps all tab stops;
* `stopsAfter_renumber` : renumbering gives the tab stops with one number the number zero;
* `promote_escapeDollars` : the two steps commute;
* `promote_promote`, `escapeDollars_escapeDollars` : each of them is done once and for all.
-/

namespace Emmet.Template

/-! ### Protecting dollar signs -/

theorem keepsDollars_escapeDollars : KeepsDollars escapeDollarsAfter where
  nil _ := rfl
  cons escaped c cs hc := by
    rw [escapeDollarsAfter, if_neg fun h => hc h.1]
  dollar escaped cs := by
    rw [escapeDollarsAfter]
    split
    · exact ⟨_, _, rfl, fun h => h.2 rfl⟩
    · exact ⟨_, _, rfl, fun h => h.1 rfl⟩

/-- A dollar sign with a brace behind it is no variable. -/
theorem escapeDollarsAfter_brace (escaped : Bool) {cs : List Char} (h : cs.head? = some '\x7b') :
    escapeDollarsAfter escaped ('$' :: cs) = '$' :: escapeDollarsAfter false cs := by
  rw [escapeDollarsAfter, if_neg fun hc => hc.2.2 h, beq_dollar]

/-- Protecting the dollar signs keeps all tab stops. -/
theorem stopsAfter_escapeDollars (escaped : Bool) (cs : List Char) :
    stopsAfter escaped (escapeDollarsAfter escaped cs) = stopsAfter escaped cs := by
  fun_induction escapeDollarsAfter escaped cs with
  | case1 => rfl
  | case2 escaped c cs hc ih =>
    -- a backslash hides this dollar sign now, but it opened no tab stop before
    obtain ⟨rfl, rfl, hbrace⟩ := hc
    have hnone := stop?_eq_none (opener?_eq_none_of_head hbrace)
    simp [stopsAfter, ih, hnone]
  | case3 escaped c cs hc ih =>
    rw [stopsAfter, stopsAfter]
    by_cases hdollar : c = '$' ∧ escaped = false
    · obtain ⟨rfl, rfl⟩ := hdollar
      rw [beq_dollar] at ih ⊢
      rw [if_pos ⟨rfl, rfl⟩, if_pos ⟨rfl, rfl⟩, keepsDollars_escapeDollars.stop?_eq, ih]
    · rw [if_neg hdollar, if_neg hdollar, ih]

theorem escapeDollarsAfter_idem (escaped : Bool) (cs : List Char) :
    escapeDollarsAfter escaped (escapeDollarsAfter escaped cs) = escapeDollarsAfter escaped cs := by
  fun_induction escapeDollarsAfter escaped cs with
  | case1 => rfl
  | case2 escaped c cs hc ih =>
    rw [keepsDollars_escapeDollars.cons escaped '\\' _ (by decide), escapeDollarsAfter,
      if_neg (by simp), hc.1, beq_dollar, ih]
  | case3 escaped c cs hc ih =>
    have hhead := keepsDollars_escapeDollars.head?_eq_some_iff (c := '\x7b') ⟨by decide, by decide⟩
    rw [escapeDollarsAfter, if_neg, ih]
    rintro ⟨rfl, rfl, hbrace⟩
    rw [beq_dollar, ne_eq, hhead] at hbrace
    exact hc ⟨rfl, rfl, hbrace⟩

/-- Protected dollar signs are not protected again. -/
theorem escapeDollars_escapeDollars (text : String) :
    escapeDollars (escapeDollars text) = escapeDollars text := by
  rw [escapeDollars, escapeDollars, String.toList_ofList, escapeDollarsAfter_idem]

/-! ### Renumbering -/

/-- The opener of the final tab stop. -/
def Opener.final (o : Opener) : Opener := { o with digits := ['0'] }

theorem Opener.isNumbered_final (o : Opener) : o.final.IsNumbered where
  ne_nil := List.cons_ne_nil '0' []
  isDigit d hd := by
    obtain rfl := List.mem_singleton.1 hd
    decide

theorem number?_zero : number? ['0'] = some 0 := by decide

/-- The tab stop with the number zero if it has a given number. -/
def Stop.renumber (number : Nat) (s : Stop) : Stop :=
  if s.number = number then { s with number := 0 } else s

theorem number_stop? (cs : List Char) :
    (stop? cs).map Stop.number = (opener? cs).bind fun o => number? o.digits := by
  rw [stop?_eq_bind, Option.map_bind]
  congr 1
  funext o
  rw [Function.comp_apply, Option.map_map]
  exact Option.map_id'

variable {n : Nat}

/-- Renumbering goes on behind a new opener. -/
theorem renumberAfter_head {o : Opener} (h : o.IsNumbered) (hn : number? o.digits = some n)
    (cs : List Char) : renumberAfter n false ('$' :: (o.head ++ cs)) =
      '$' :: (o.final.head ++ renumberAfter n false cs) := by
  have hnumber : (stop? (o.head ++ cs)).map Stop.number = some n := by
    rw [number_stop?, opener?_head_append h, Option.bind_some]
    exact hn
  have hrest : ((o.head ++ cs).drop 1).dropWhile Text.isDigit = o.sign :: cs := by
    rw [Opener.head, List.cons_append, List.drop_one, List.tail_cons, List.append_assoc]
    exact dropWhile_digits h.isDigit o.isDigit_sign cs
  rw [renumberAfter, if_pos ⟨rfl, rfl, hnumber⟩, hrest, renumberAfter,
    if_neg fun hc => o.isPlain_sign.1 hc.1, beq_false_of_ne o.isPlain_sign.2]
  rfl

theorem renumberAfter_cons {escaped : Bool} {c : Char} {cs : List Char}
    (h : ¬(c = '$' ∧ escaped = false ∧ (stop? cs).map Stop.number = some n)) :
    renumberAfter n escaped (c :: cs) = c :: renumberAfter n (c == '\\') cs := by
  rw [renumberAfter, if_neg h]

theorem keepsDollars_renumber (n : Nat) : KeepsDollars (renumberAfter n) where
  nil _ := by rw [renumberAfter]
  cons escaped c cs hc := renumberAfter_cons fun h => hc h.1
  dollar escaped cs := by
    rw [renumberAfter]
    split
    · exact ⟨_, _, rfl, fun h => h.1 rfl⟩
    · exact ⟨_, _, rfl, fun h => h.1 rfl⟩

/-- Along a text that is renumbered one goes from opener to opener, or by single characters. -/
@[elab_as_elim]
theorem renumber_induction {motive : Bool → List Char → Prop} (nil : ∀ escaped, motive escaped [])
    (head : ∀ o : Opener, o.IsNumbered → number? o.digits = some n → motive false o.rest →
      motive false ('$' :: (o.head ++ o.rest)))
    (cons : ∀ escaped c cs, ¬(c = '$' ∧ escaped = false ∧
      (stop? cs).map Stop.number = some n) → motive (c == '\\') cs → motive escaped (c :: cs))
    (escaped : Bool) (cs : List Char) : motive escaped cs := by
  -- on the length, since an opener is passed in one step
  induction hlength : cs.length using Nat.strong_induction_on generalizing escaped cs with
  | _ k ih =>
    cases cs with
    | nil => exact nil escaped
    | cons c cs =>
      rw [List.length_cons] at hlength
      by_cases hc : c = '$' ∧ escaped = false ∧ (stop? cs).map Stop.number = some n
      · obtain ⟨rfl, rfl, hnumber⟩ := hc
        rw [number_stop?] at hnumber
        obtain ⟨o, ho, hn⟩ := Option.bind_eq_some_iff.1 hnumber
        have hrest := length_opener ho
        obtain ⟨h, rfl⟩ := opener?_eq_some_iff.1 ho
        exact head o h hn (ih _ (by omega) false o.rest rfl)
      · exact cons escaped c cs hc (ih _ (by omega) _ cs rfl)

/-- Renumbering gives the tab stops with one number the number zero. -/
theorem stopsAfter_renumber (n : Nat) (escaped : Bool) (cs : List Char) :
    stopsAfter escaped (renumberAfter n escaped cs) =
      (stopsAfter escaped cs).map (Stop.renumber n) := by
  induction escaped, cs using renumber_induction (n := n) with
  | nil escaped =>
    rw [(keepsDollars_renumber n).nil]
    rfl
  | head o h hn ih =>
    have htext := (keepsDollars_renumber n).hasText_mapRest o
    have hstop : (stop? (o.final.head ++ renumberAfter n false o.rest)).toList =
        (stop? (o.head ++ o.rest)).toList.map (Stop.renumber n) := by
      rw [stop?_head_append o.isNumbered_final, stop?_head_append h, hn]
      simp only [Opener.final, number?_zero, Option.map_some, Option.toList_some, List.map_cons,
        List.map_nil, Stop.renumber, if_true]
      exact congrArg (fun b => [Stop.mk 0 b]) htext
    rw [renumberAfter_head h hn, stopsAfter_head o.isNumbered_final, stopsAfter_head h, ih, hstop,
      List.map_append]
  | cons escaped c cs hc ih =>
    rw [renumberAfter_cons hc, stopsAfter, stopsAfter]
    by_cases hdollar : c = '$' ∧ escaped = false
    · obtain ⟨rfl, rfl⟩ := hdollar
      have hstop : (stop? cs).toList.map (Stop.renumber n) = (stop? cs).toList := by
        cases hs : stop? cs with
        | none => rfl
        | some s =>
          have hne : s.number ≠ n := fun h => hc ⟨rfl, rfl, by rw [hs, Option.map_some, h]⟩
          simp [Stop.renumber, hne]
      rw [beq_dollar] at ih ⊢
      rw [if_pos ⟨rfl, rfl⟩, if_pos ⟨rfl, rfl⟩, (keepsDollars_renumber n).stop?_eq, ih,
        List.map_append, hstop]
    · rw [if_neg hdollar, if_neg hdollar, ih]

/-! ### The highest tab stops -/

/-- The number of the tab stops that become the final one, if any do. -/
def finalNumber? (stops : List Stop) : Option Nat :=
  match (stops.map Stop.number).max? with
  | none => none
  | some top =>
    if stops.any (fun s => s.number == 0) || stops.any (fun s => s.number == top && s.hasText)
    then none
    else some top

theorem promoteChars_eq_elim (cs : List Char) : promoteChars cs =
    (finalNumber? (stopsAfter false cs)).elim cs fun n => renumberAfter n false cs := by
  unfold promoteChars finalNumber?
  simp only
  cases ((stopsAfter false cs).map Stop.number).max? with
  | none => rfl
  | some top =>
    simp only
    split <;> rfl

/-- How often a tab stop comes up does not matter for which become the final one. -/
theorem finalNumber?_congr {ss ts : List Stop} (h : ∀ s, s ∈ ss ↔ s ∈ ts) :
    finalNumber? ss = finalNumber? ts := by
  have hany : ∀ p : Stop → Bool, ss.any p = ts.any p := by
    intro p
    rw [Bool.eq_iff_iff, List.any_eq_true, List.any_eq_true]
    simp only [h]
  have hmax : (ss.map Stop.number).max? = (ts.map Stop.number).max? := by
    ext n
    simp only [List.max?_eq_some_iff, List.mem_map, h]
  unfold finalNumber?
  simp only [hany, hmax]

/-- The highest number is given up for the final one if it is not that number itself and none of its
tab stops has a text. -/
theorem finalNumber?_eq_some_iff {stops : List Stop} {n : Nat} :
    finalNumber? stops = some n ↔ (∃ s ∈ stops, s.number = n) ∧
      ∀ s ∈ stops, s.number ≤ n ∧ s.number ≠ 0 ∧ (s.number = n → s.hasText = false) := by
  unfold finalNumber?
  constructor
  · intro h
    split at h
    · cases h
    · next top hmax =>
      split at h
      · cases h
      · next hkept =>
        obtain rfl := Option.some.inj h
        obtain ⟨hmem, hle⟩ := List.max?_eq_some_iff.1 hmax
        refine ⟨List.mem_map.1 hmem, fun s hs => ⟨hle _ (List.mem_map_of_mem hs), ?_, ?_⟩⟩
        · intro hzero
          exact hkept (Bool.or_eq_true_iff.2 (.inl (List.any_eq_true.2 ⟨s, hs, by simp [hzero]⟩)))
        · intro htop
          by_contra htext
          exact hkept (Bool.or_eq_true_iff.2 (.inr (List.any_eq_true.2 ⟨s, hs, by simp_all⟩)))
  · rintro ⟨⟨s, hs, rfl⟩, hall⟩
    have hmax : (stops.map Stop.number).max? = some s.number := by
      refine List.max?_eq_some_iff.2 ⟨List.mem_map_of_mem hs, ?_⟩
      intro m hm
      obtain ⟨t, ht, rfl⟩ := List.mem_map.1 hm
      exact (hall t ht).1
    have hzero : stops.any (fun t => t.number == 0) = false :=
      List.any_eq_false.2 fun t ht => by simpa using (hall t ht).2.1
    have htext : stops.any (fun t => t.number == s.number && t.hasText) = false :=
      List.any_eq_false.2 fun t ht => by simpa using (hall t ht).2.2
    rw [hmax]
    simp only [hzero, htext, Bool.or_self, Bool.false_eq_true, if_false]

/-! ### Both steps -/

/-- Renumbering and protecting dollar signs commute. -/
theorem renumber_escapeDollars (n : Nat) (escaped : Bool) (cs : List Char) :
    renumberAfter n escaped (escapeDollarsAfter escaped cs) =
      escapeDollarsAfter escaped (renumberAfter n escaped cs) := by
  have hescape := keepsDollars_escapeDollars
  have hrenumber := keepsDollars_renumber n
  induction escaped, cs using renumber_induction (n := n) with
  | nil escaped => rw [hescape.nil, hrenumber.nil, hescape.nil]
  | head o h hn ih =>
    rw [escapeDollarsAfter_brace _ rfl, hescape.head_append h, renumberAfter_head h hn,
      renumberAfter_head h hn, ih, escapeDollarsAfter_brace _ rfl,
      hescape.head_append o.isNumbered_final]
  | cons escaped c cs hc ih =>
    rw [renumberAfter_cons hc]
    by_cases hbare : c = '$' ∧ escaped = false ∧ cs.head? ≠ some '\x7b'
    · -- the backslash is put before a dollar sign that opens nothing
      obtain ⟨rfl, rfl, hbrace⟩ := hbare
      have hhead : (renumberAfter n false cs).head? ≠ some '\x7b' := by
        rwa [ne_eq, hrenumber.head?_eq_some_iff ⟨by decide, by decide⟩]
      rw [beq_dollar] at ih ⊢
      rw [escapeDollarsAfter, if_pos ⟨rfl, rfl, hbrace⟩, escapeDollarsAfter,
        if_pos ⟨rfl, rfl, hhead⟩, hrenumber.cons _ _ _ (by decide), renumberAfter_cons (by simp),
        beq_dollar, ih]
    · have hhead : ¬(c = '$' ∧ escaped = false ∧
          (renumberAfter n (c == '\\') cs).head? ≠ some '\x7b') := by
        rintro ⟨rfl, rfl, hbrace⟩
        rw [beq_dollar, ne_eq, hrenumber.head?_eq_some_iff ⟨by decide, by decide⟩] at hbrace
        exact hbare ⟨rfl, rfl, hbrace⟩
      have hstop : ¬(c = '$' ∧ escaped = false ∧
          (stop? (escapeDollarsAfter (c == '\\') cs)).map Stop.number = some n) := by
        rintro ⟨rfl, rfl, hnumber⟩
        rw [beq_dollar, hescape.stop?_eq] at hnumber
        exact hc ⟨rfl, rfl, hnumber⟩
      rw [escapeDollarsAfter, if_neg hbare, escapeDollarsAfter, if_neg hhead,
        renumberAfter_cons hstop, ih]

theorem promoteChars_escapeDollars (cs : List Char) :
    promoteChars (escapeDollarsAfter false cs) = escapeDollarsAfter false (promoteChars cs) := by
  unfold promoteChars
  rw [stopsAfter_escapeDollars]
  simp only
  split
  · rfl
  · split
    · rfl
    · exact renumber_escapeDollars _ false cs

/-- The last tab stops can be renumbered before or after the dollar signs are protected. -/
theorem promote_escapeDollars (text : String) :
    promote (escapeDollars text) = escapeDollars (promote text) := by
  simp only [promote, escapeDollars, String.toList_ofList, promoteChars_escapeDollars]

/-- With a final tab stop nothing is renumbered. -/
theorem promoteChars_of_final {cs : List Char} (h : ∃ s ∈ stopsAfter false cs, s.number = 0) :
    promoteChars cs = cs := by
  have hany : (stopsAfter false cs).any (fun s => s.number == 0) = true := by
    simpa using h
  unfold promoteChars
  simp only [hany, Bool.true_or, if_true]
  split <;> rfl

theorem promoteChars_eq_or (cs : List Char) : promoteChars cs = cs ∨
    ∃ s ∈ stopsAfter false cs, promoteChars cs = renumberAfter s.number false cs := by
  unfold promoteChars
  simp only
  split
  · exact .inl rfl
  · next top htop =>
    split
    · exact .inl rfl
    · obtain ⟨s, hs, rfl⟩ := List.mem_map.1 (List.max?_mem htop)
      exact .inr ⟨s, hs, rfl⟩

theorem promoteChars_idem (cs : List Char) : promoteChars (promoteChars cs) = promoteChars cs := by
  obtain h | ⟨s, hs, h⟩ := promoteChars_eq_or cs
  · rw [h, h]
  · rw [h]
    refine promoteChars_of_final ⟨s.renumber s.number, ?_, by simp [Stop.renumber]⟩
    rw [stopsAfter_renumber]
    exact List.mem_map_of_mem hs

/-- The last tab stops are renumbered once. -/
theorem promote_promote (text : String) : promote (promote text) = promote text := by
  simp only [promote, String.toList_ofList, promoteChars_idem]

/-- A finished template has its dollar signs protected. -/
theorem escapeDollars_finish (expansion : String) :
    escapeDollars (finish expansion) = finish expansion :=
  escapeDollars_escapeDollars (promote expansion)

/-- A finished template has its final tab stop, as far as it can have one. -/
theorem promote_finish (expansion : String) : promote (finish expansion) = finish expansion := by
  rw [finish, promote_escapeDollars, promote_promote]

end Emmet.Template
