import Emmet.Proofs.Template.Openers

/-!
# Protected dollar signs

In a template a dollar sign alone starts a variable, so a backslash is put before it. This file says
before which dollar signs, and what this changes.

* `StartsVariable` : a dollar sign that is neither protected nor followed by a brace;
* `escapeDollarsAfter_eq_flatten` : a backslash is put before just these, and nothing else changes;
* `escapeDollarsAfter_eq_append` : none of them is left;
* `openersAfter_escapeDollars` : the openers of markers stay, with the text behind them protected;
* `escapeDollars_exact` : all of this for a whole text.
-/

namespace Emmet.Template

variable {escaped : Bool} {c : Char} {cs before after : List Char}

/-! ### Where backslashes are put -/

/-- A dollar sign between two texts starts a variable: no backslash stands before it and no brace
behind it. -/
def StartsVariable (before after : List Char) : Prop :=
  before.getLast? ≠ some '\\' ∧ after.head? ≠ some '\x7b'

instance (before after : List Char) : Decidable (StartsVariable before after) :=
  inferInstanceAs (Decidable (_ ∧ _))

/-- The character at a place of a text, with a backslash before it if it is a dollar sign that
starts a variable. -/
def protectAt (text : List Char) (i : Nat) (c : Char) : List Char :=
  if c = '$' ∧ StartsVariable (text.take i) (text.drop (i + 1)) then ['\\', c] else [c]

theorem protectAt_length (front : List Char) (c : Char) (cs : List Char) :
    protectAt (front ++ c :: cs) front.length c =
      if c = '$' ∧ StartsVariable front cs then ['\\', c] else [c] := by
  rw [protectAt, List.take_left, List.drop_append, List.drop_of_length_le (Nat.le_succ _),
    Nat.add_sub_cancel_left]
  rfl

theorem escapeDollarsAfter_cons (front : List Char) (c : Char) (cs : List Char) :
    escapeDollarsAfter (endsEscaped false front) (c :: cs) =
      protectAt (front ++ c :: cs) front.length c ++
        escapeDollarsAfter (endsEscaped false (front ++ [c])) cs := by
  have hends : endsEscaped false (front ++ [c]) = (c == '\\') := by
    rw [endsEscaped, List.getLast?_concat]
    rfl
  have hiff : (c = '$' ∧ endsEscaped false front = false ∧ cs.head? ≠ some '\x7b') ↔
      c = '$' ∧ StartsVariable front cs :=
    and_congr_right fun _ => and_congr_left fun _ => endsEscaped_eq_false_iff
  rw [escapeDollarsAfter, protectAt_length, hends]
  by_cases h : c = '$' ∧ StartsVariable front cs
  · rw [if_pos (hiff.2 h), if_pos h, h.1]
    rfl
  · rw [if_neg (mt hiff.1 h), if_neg h]
    rfl

/-- Every character is written as it is, with a backslash before the dollar signs that start a
variable. -/
theorem escapeDollarsAfter_eq_flatten (front cs : List Char) :
    escapeDollarsAfter (endsEscaped false front) cs =
      (cs.mapIdx fun i c => protectAt (front ++ cs) (front.length + i) c).flatten := by
  -- the text that is gone through already is the front of the whole text
  induction cs generalizing front with
  | nil => rfl
  | cons c cs ih =>
    have hwhole : front ++ [c] ++ cs = front ++ c :: cs := (List.append_cons front c cs).symm
    have hplace (i : Nat) : (front ++ [c]).length + i = front.length + (i + 1) := by
      rw [List.length_append, List.length_singleton, Nat.add_assoc, Nat.add_comm 1]
    rw [escapeDollarsAfter_cons, ih, List.mapIdx_cons, List.flatten_cons, hwhole]
    simp only [hplace, Nat.add_zero]

/-! ### What is left -/

/-- Behind a dollar sign that is left, or before it, stands what keeps it from starting a
variable. -/
theorem escapeDollarsAfter_eq_append (h : escapeDollarsAfter escaped cs = before ++ '$' :: after) :
    endsEscaped escaped before = true ∨ after.head? = some '\x7b' := by
  fun_induction escapeDollarsAfter escaped cs generalizing before with
  | case1 => simp at h
  | case2 escaped c cs hc ih =>
    -- the backslash that is put here, the dollar sign, or one further right
    cases before with
    | nil => cases h
    | cons b before =>
      obtain ⟨rfl, htail⟩ := List.cons.inj h
      cases before with
      | nil => exact .inl rfl
      | cons d before =>
        obtain ⟨rfl, hrest⟩ := List.cons.inj htail
        rw [endsEscaped_cons, endsEscaped_cons, hc.1, beq_dollar]
        exact ih hrest
  | case3 escaped c cs hc ih =>
    cases before with
    | nil =>
      obtain ⟨rfl, rfl⟩ := List.cons.inj h
      rw [beq_dollar, keepsDollars_escapeDollars.head?_eq_some_iff ⟨by decide, by decide⟩]
      cases escaped with
      | true => exact .inl rfl
      | false => exact .inr (by simpa using hc)
    | cons b before =>
      obtain ⟨rfl, htail⟩ := List.cons.inj h
      rw [endsEscaped_cons]
      exact ih htail

/-! ### Markers -/

/-- The openers of markers stay. -/
theorem openersAfter_escapeDollars (escaped : Bool) (cs : List Char) :
    openersAfter escaped (escapeDollarsAfter escaped cs) =
      (openersAfter escaped cs).map (Opener.mapRest (escapeDollarsAfter false)) := by
  fun_induction escapeDollarsAfter escaped cs with
  | case1 => rfl
  | case2 escaped c cs hc ih =>
    -- a backslash hides this dollar sign now, but it opened nothing before
    obtain ⟨rfl, rfl, hbrace⟩ := hc
    rw [openersAfter_cons (by simp), openersAfter_cons (by simp), beq_dollar, ih,
      openersAfter_dollar, opener?_eq_none_of_head hbrace]
    rfl
  | case3 escaped c cs hc ih =>
    by_cases hdollar : c = '$' ∧ escaped = false
    · obtain ⟨rfl, rfl⟩ := hdollar
      rw [beq_dollar] at ih ⊢
      rw [openersAfter_dollar, openersAfter_dollar, keepsDollars_escapeDollars.opener?_eq_map, ih,
        List.map_append]
      cases opener? cs <;> rfl
    · rw [openersAfter_cons hdollar, openersAfter_cons hdollar, ih]

/-- What an opener is: its digits, the sign behind them, and whether it has a text that is written
over. -/
def Opener.shape (o : Opener) : List Char × Bool × Bool := (o.digits, o.colon, o.hasText)

/-- **Dollar signs are protected exactly.** A backslash is put before each dollar sign that starts a
variable, and nothing else changes. So none is left that starts a variable, and the markers of the
text are the markers it had, in order, with their numbers and with or without a text. -/
theorem escapeDollars_exact (text : String) :
    (escapeDollars text).toList = (text.toList.mapIdx (protectAt text.toList)).flatten ∧
    (∀ before after, (escapeDollars text).toList = before ++ '$' :: after →
      before.getLast? = some '\\' ∨ after.head? = some '\x7b') ∧
    (openers (escapeDollars text).toList).map Opener.shape =
      (openers text.toList).map Opener.shape ∧
    stopsAfter false (escapeDollars text).toList = stopsAfter false text.toList := by
  rw [escapeDollars, String.toList_ofList]
  refine ⟨?_, fun before after h => ?_, ?_, stopsAfter_escapeDollars false _⟩
  · have hwhole := escapeDollarsAfter_eq_flatten [] text.toList
    simp only [List.nil_append, List.length_nil, Nat.zero_add] at hwhole
    exact hwhole
  · refine (escapeDollarsAfter_eq_append h).imp_left fun hends => ?_
    by_contra hlast
    rw [endsEscaped_eq_false_iff.2 hlast] at hends
    cases hends
  · rw [openers, openersAfter_escapeDollars, List.map_map]
    refine List.map_congr_left fun o _ => ?_
    rw [Function.comp_apply, Opener.shape, keepsDollars_escapeDollars.hasText_mapRest]
    rfl

end Emmet.Template
