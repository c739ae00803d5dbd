import Emmet.Proofs.Template.Residue
import Mathlib.Data.List.Infix
import Mathlib.Logic.Function.Iterate

/-!
# Unwrapping comes to an end

Markers with a text are unwrapped in passes until a pass changes nothing. A pass joins what stands
around the markers it takes away, so there may be new ones behind it, and nothing is said about how
many there are. What counts is the length: a pass that changes the text takes a dollar sign, two
braces, a digit and a colon away.

* `HasPlaceholder` : a marker with a text stands in a text, and no other marker opens in its text;
* `placeholder?_eq_some_iff` : what the passes read as such a marker;
* `unwrapOnce_eq_self_iff` : a pass changes a text just if there is one;
* `exists_passes` : the passes of a text up to the last one;
* `unwrap_passes` : what is left has no such marker, and unwrapping it again changes nothing.
-/

namespace Emmet.Template

/-- No brace closes in the text of a marker, and no other marker opens in it. -/
structure IsInnermost (body : List Char) : Prop where
  closing : '\x7d' ∉ body
  opening : ¬ ['$', '\x7b'] <:+: body

/-- A marker with a text stands in a text, and no backslash before it. No other marker opens in its
text. -/
def HasPlaceholder (cs : List Char) : Prop :=
  ∃ before digits body after,
    cs = before ++ '$' :: '\x7b' :: (digits ++ ':' :: (body ++ '\x7d' :: after)) ∧
    before.getLast? ≠ some '\\' ∧ digits ≠ [] ∧ (∀ d ∈ digits, Text.isDigit d = true) ∧
    IsInnermost body

variable {escaped : Bool} {c : Char} {cs body rest after : List Char}

/-! ### What is read as a marker -/

theorem isInnermost_nil : IsInnermost [] where
  closing := List.not_mem_nil
  opening h := by simpa using h.length_le

/-- The first characters decide whether a brace closes or a marker opens at the front. -/
theorem isInnermost_cons_iff : IsInnermost (c :: body) ↔
    c ≠ '\x7d' ∧ ¬ (c = '$' ∧ body.head? = some '\x7b') ∧ IsInnermost body := by
  have hprefix : ['$', '\x7b'] <+: c :: body ↔ c = '$' ∧ body.head? = some '\x7b' := by
    rw [List.cons_prefix_cons, eq_comm, List.head?_eq_some_iff]
    constructor
    · rintro ⟨hc, rest, rfl⟩
      exact ⟨hc, rest, rfl⟩
    · rintro ⟨hc, rest, rfl⟩
      exact ⟨hc, rest, rfl⟩
  constructor
  · rintro ⟨hclosing, hopening⟩
    rw [List.mem_cons, not_or] at hclosing
    rw [List.infix_cons_iff, hprefix, not_or] at hopening
    exact ⟨Ne.symm hclosing.1, hopening.1, hclosing.2, hopening.2⟩
  · rintro ⟨hc, hopen, hclosing, hopening⟩
    constructor
    · rw [List.mem_cons, not_or]
      exact ⟨Ne.symm hc, hclosing⟩
    · rw [List.infix_cons_iff, hprefix, not_or]
      exact ⟨hopen, hopening⟩

/-- The brace behind a text opens no marker with it. -/
theorem head?_append_closing (body rest : List Char) :
    (body ++ '\x7d' :: rest).head? = some '\x7b' ↔ body.head? = some '\x7b' := by
  cases body with
  | nil => exact iff_of_false (by simp) (by simp)
  | cons c body => rfl

theorem body?_eq_some_iff :
    body? cs = some (body, rest) ↔ cs = body ++ '\x7d' :: rest ∧ IsInnermost body := by
  constructor
  · intro h
    refine ⟨body?_eq_some h, ?_⟩
    induction cs generalizing body with
    | nil => cases h
    | cons c cs ih =>
      rw [body?] at h
      split at h
      · obtain ⟨rfl, -⟩ := Prod.mk.inj (Option.some.inj h)
        exact isInnermost_nil
      · next hc =>
        split at h
        · cases h
        · next hopen =>
          obtain ⟨⟨body, rest⟩, hbody, heq⟩ := Option.map_eq_some_iff.1 h
          obtain ⟨rfl, rfl⟩ := Prod.mk.inj heq
          rw [body?_eq_some hbody, head?_append_closing] at hopen
          exact isInnermost_cons_iff.2 ⟨hc, hopen, ih hbody⟩
  · rintro ⟨rfl, h⟩
    induction body with
    | nil => rw [List.nil_append, body?, if_pos rfl]
    | cons c body ih =>
      obtain ⟨hc, hopen, hbody⟩ := isInnermost_cons_iff.1 h
      rw [← head?_append_closing body rest] at hopen
      rw [List.cons_append, body?, if_neg hc, if_neg hopen, ih hbody, Option.map_some]

/-- What is read behind a dollar sign as a marker with a text. -/
theorem placeholder?_eq_some_iff : placeholder? cs = some (body, rest) ↔
    ∃ digits, cs = '\x7b' :: (digits ++ ':' :: (body ++ '\x7d' :: rest)) ∧ digits ≠ [] ∧
      (∀ d ∈ digits, Text.isDigit d = true) ∧ IsInnermost body := by
  constructor
  · intro h
    obtain ⟨o, ho, hcolon, rfl⟩ := exists_opener_of_placeholder h
    rw [placeholder?_head_append ho, if_pos hcolon] at h
    refine ⟨o.digits, ?_, ho.ne_nil, ho.isDigit, (body?_eq_some_iff.1 h).2⟩
    simp [Opener.head, Opener.sign, hcolon]
  · rintro ⟨digits, rfl, hne, hdigits, hbody⟩
    have ho : (⟨digits, true, []⟩ : Opener).IsNumbered := ⟨hne, hdigits⟩
    have hread := placeholder?_head_append ho (body ++ '\x7d' :: rest)
    rw [if_pos rfl, body?_eq_some_iff.2 ⟨rfl, hbody⟩] at hread
    simpa [Opener.head, Opener.sign] using hread

theorem hasPlaceholder_iff : HasPlaceholder cs ↔
    ∃ after, FreeDollar false cs after ∧ placeholder? after ≠ none := by
  constructor
  · rintro ⟨before, digits, body, after, rfl, hlast, hmarker⟩
    refine ⟨_, .of_before hlast, ?_⟩
    rw [placeholder?_eq_some_iff.2 ⟨digits, rfl, hmarker⟩]
    exact Option.some_ne_none _
  · rintro ⟨after, hfree, hread⟩
    obtain ⟨⟨body, rest⟩, hread⟩ := Option.ne_none_iff_exists'.1 hread
    obtain ⟨digits, rfl, hmarker⟩ := placeholder?_eq_some_iff.1 hread
    obtain ⟨before, rfl, -, hlast⟩ := hfree.exists_before
    exact ⟨before, digits, body, rest, rfl, hlast, hmarker⟩

/-! ### One pass -/

/-- A pass changes nothing just if no marker can be read behind a free dollar sign. -/
theorem unwrapOnceAfter_eq_self_iff : unwrapOnceAfter escaped cs = cs ↔
    ∀ after, FreeDollar escaped cs after → placeholder? after = none := by
  fun_induction unwrapOnceAfter escaped cs with
  | case1 =>
    refine iff_of_true rfl fun after hfree => ?_
    cases hfree
  | case2 escaped c cs hc body rest hread ih =>
    obtain ⟨rfl, rfl⟩ := hc
    refine iff_of_false (fun heq => ?_) fun hall => ?_
    · have hlength := congrArg List.length heq
      have hmarker := length_placeholder hread
      have hrest := unwrapOnce_eq_or_add_le false rest
      rw [List.length_append, List.length_cons] at hlength
      rcases hrest with hrest | hrest
      · rw [hrest] at hlength
        omega
      · omega
    · cases (hall cs .here).symm.trans hread
  | case3 escaped c cs hc hread ih =>
    obtain ⟨rfl, rfl⟩ := hc
    rw [List.cons.injEq, and_iff_right rfl, ih]
    constructor
    · intro hall after hfree
      cases hfree with
      | here => exact hread
      | there hfree => exact hall after hfree
    · exact fun hall after hfree => hall after (.there hfree)
  | case4 escaped c cs hc ih =>
    rw [List.cons.injEq, and_iff_right rfl, ih]
    constructor
    · intro hall after hfree
      cases hfree with
      | here => exact absurd ⟨rfl, rfl⟩ hc
      | there hfree => exact hall after hfree
    · exact fun hall after hfree => hall after (.there hfree)

theorem unwrapOnce_eq_self_iff : unwrapOnceAfter false cs = cs ↔ ¬ HasPlaceholder cs := by
  rw [unwrapOnceAfter_eq_self_iff, hasPlaceholder_iff]
  simp only [not_exists, not_and, not_not]

theorem HasPlaceholder.length_unwrapOnce (h : HasPlaceholder cs) :
    (unwrapOnceAfter false cs).length + 5 ≤ cs.length := by
  rcases unwrapOnce_eq_or_add_le false cs with hsame | hless
  · exact absurd h (unwrapOnce_eq_self_iff.1 hsame)
  · exact hless

/-! ### All passes -/

/-- The passes up to the last one: each of them finds a marker and makes the text shorter. -/
theorem exists_passes (cs : List Char) : ∃ n, (unwrapOnceAfter false)^[n] cs = unwrap cs ∧
    ∀ k < n, HasPlaceholder ((unwrapOnceAfter false)^[k] cs) ∧
      ((unwrapOnceAfter false)^[k + 1] cs).length + 5 ≤
        ((unwrapOnceAfter false)^[k] cs).length := by
  fun_induction unwrap cs with
  | case1 cs next hnext => exact ⟨0, rfl, fun k hk => absurd hk (Nat.not_lt_zero k)⟩
  | case2 cs next hnext ih =>
    have hmarker : HasPlaceholder cs := by
      by_contra hnone
      exact hnext (unwrapOnce_eq_self_iff.2 hnone)
    obtain ⟨n, hend, hpasses⟩ := ih
    refine ⟨n + 1, hend, fun k hk => ?_⟩
    cases k with
    | zero => exact ⟨hmarker, hmarker.length_unwrapOnce⟩
    | succ k => exact hpasses k (Nat.lt_of_succ_lt_succ hk)

theorem unwrapOnce_unwrap (cs : List Char) : unwrapOnceAfter false (unwrap cs) = unwrap cs := by
  fun_induction unwrap cs with
  | case1 cs next hnext => exact hnext
  | case2 cs next hnext ih => exact ih

/-- **Unwrapping comes to an end.** After some passes, each of which finds a marker and makes the
text shorter, the next pass changes nothing and the text is the result. No marker with a text is
left in it in whose text no other marker opens, and unwrapping it again changes nothing. -/
theorem unwrap_passes (cs : List Char) :
    (∃ n, (unwrapOnceAfter false)^[n] cs = unwrap cs ∧
      (unwrapOnceAfter false)^[n + 1] cs = (unwrapOnceAfter false)^[n] cs ∧
      ∀ k < n, HasPlaceholder ((unwrapOnceAfter false)^[k] cs) ∧
        ((unwrapOnceAfter false)^[k + 1] cs).length + 5 ≤
          ((unwrapOnceAfter false)^[k] cs).length) ∧
      ¬ HasPlaceholder (unwrap cs) ∧ unwrap (unwrap cs) = unwrap cs := by
  have hfixed := unwrapOnce_unwrap cs
  obtain ⟨n, hend, hpasses⟩ := exists_passes cs
  refine ⟨⟨n, hend, ?_, hpasses⟩, unwrapOnce_eq_self_iff.1 hfixed, ?_⟩
  · rw [Function.iterate_succ_apply', hend, hfixed]
  · rw [unwrap]
    exact if_pos hfixed

/-- Only the second pass brings the first dollar sign and the brace of the last marker together. -/
example : unwrap "$$\x7b1:$\x7b2:\x7d\x7d\x7b3:a\x7d".toList = ['a'] := by decide +kernel

end Emmet.Template
