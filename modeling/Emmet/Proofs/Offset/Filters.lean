import Emmet.Proofs.Abbreviation.Filters
import Emmet.Proofs.Offset.Extraction
import Mathlib.Data.List.Induction

/-!
# Peeling filters and writing them

Filters are peeled off a text from the right and written behind it from the left. One is the inverse
of the other, for every limit.

* `IsPeeled` : as many filters are taken off as the limit and the text allow;
* `isPeeled_peel`, `peel_append_suffixes` : peeling leaves such a text, and just this one;
* `peelAt?_suffixes` : before an offset of a text the filters are peeled off that were written there.
-/

namespace Emmet.Filter

open Text

/-- Peeling ends with a body and some filters: there are no more of them than the limit allows, and
if there are less, then no filter is left at the end of the body. -/
def IsPeeled (limit : Nat) (body : List Char) (fs : List Filter) : Prop :=
  fs.length ≤ limit ∧ (fs.length = limit ∨ ∀ f : Filter, ¬ f.suffix <:+ body)

variable {limit : Nat} {body : List Char} {f : Filter} {fs : List Filter}

theorem isPeeled_append_singleton :
    IsPeeled (limit + 1) body (fs ++ [f]) ↔ IsPeeled limit body fs := by
  rw [IsPeeled, IsPeeled, List.length_append, List.length_singleton, Nat.add_le_add_iff_right,
    Nat.add_right_cancel_iff]

theorem append_suffixes_append_singleton (body : List Char) (fs : List Filter) (f : Filter) :
    body ++ suffixes (fs ++ [f]) = body ++ suffixes fs ++ f.suffix := by
  rw [suffixes_append, suffixes_singleton, List.append_assoc]

/-! ### The last filter -/

theorem last?_eq_none_iff {text : List Char} :
    last? text = none ↔ ∀ f : Filter, ¬ f.suffix <:+ text := by
  constructor
  · rintro hlast f ⟨body, rfl⟩
    rw [last?_append_suffix] at hlast
    cases hlast
  · exact last?_eq_none

theorem peel_append_suffix (limit : Nat) (body : List Char) (f : Filter) :
    peel (limit + 1) (body ++ f.suffix) =
      ((peel limit body).1, (peel limit body).2 ++ [f]) := by
  rw [peel, last?_append_suffix]

/-! ### Both directions -/

theorem isPeeled_peel (limit : Nat) (text : List Char) :
    IsPeeled limit (peel limit text).1 (peel limit text).2 := by
  induction limit generalizing text with
  | zero => exact ⟨Nat.le_refl _, .inl rfl⟩
  | succ limit ih =>
    cases hlast : last? text with
    | none =>
      have hnone := last?_eq_none_iff.1 hlast
      rw [peel_of_not_isSuffix hnone]
      exact ⟨Nat.zero_le _, .inr hnone⟩
    | some p =>
      obtain ⟨f, body⟩ := p
      rw [last?_eq_some hlast, peel_append_suffix]
      exact isPeeled_append_singleton.2 (ih body)

/-- What is written is peeled off again, in the order in which it was written. -/
theorem peel_append_suffixes (h : IsPeeled limit body fs) :
    peel limit (body ++ suffixes fs) = (body, fs) := by
  -- the last filter that is written is the first that is peeled off
  induction fs using List.reverseRecOn generalizing limit with
  | nil =>
    rw [suffixes, List.flatMap_nil, List.append_nil]
    obtain rfl | hnone := h.2
    · rfl
    · exact peel_of_not_isSuffix hnone
  | append_singleton fs f ih =>
    cases limit with
    | zero =>
      have hlength := h.1
      rw [List.length_append, List.length_singleton] at hlength
      omega
    | succ limit =>
      rw [append_suffixes_append_singleton, peel_append_suffix,
        ih (isPeeled_append_singleton.1 h)]

/-! ### Offsets -/

/-- Before an offset at which a front part ends, the filters of that part are peeled off. -/
theorem peelAt?_eq {text front back : List Char} {stop : Nat} (limit : Nat)
    (h : text = front ++ back) (hstop : min stop (bytes text) = bytes front) :
    peelAt? text stop limit = some (bytes (peel limit front).1, (peel limit front).2) := by
  have hcut : (cut utf8 text (bytes front)).1 = front := by rw [cut_bytes h]
  simp only [peelAt?, hstop, hcut, if_true]
  split
  · next hlimit => rw [hlimit, peel]
  · rfl

/-- **Peeling and writing filters are inverse to each other.** Before every offset that ends a
front part, or lies behind the text, that part is a body with the filters behind it, as many as the
limit allows or all of them. And the filters that are written behind a body are peeled off from the
end of the text, if they fill the limit or if the body ends with no further one. -/
theorem peelAt?_suffixes (limit : Nat) :
    (∀ (text front back : List Char) (stop : Nat), text = front ++ back →
      min stop (bytes text) = bytes front → ∃ (body : List Char) (fs : List Filter),
        peelAt? text stop limit = some (bytes body, fs) ∧
        Checked.peel text limit (min stop (bytes text)) [] = .ok (bytes body, fs) ∧
        front = body ++ suffixes fs ∧ IsPeeled limit body fs) ∧
    ∀ (body : List Char) (fs : List Filter), IsPeeled limit body fs →
      peelAt? (body ++ suffixes fs) (bytes (body ++ suffixes fs)) limit = some (bytes body, fs) ∧
      Checked.peel (body ++ suffixes fs) limit (bytes (body ++ suffixes fs)) [] =
        .ok (bytes body, fs) := by
  constructor
  · intro text front back stop htext hstop
    refine ⟨(peel limit front).1, (peel limit front).2, peelAt?_eq limit htext hstop, ?_,
      (peel_append limit front).symm, isPeeled_peel limit front⟩
    rw [hstop, Checked.peel_eq htext, List.append_nil]
  · intro body fs h
    have htext := (List.append_nil (body ++ suffixes fs)).symm
    have hpeel := peel_append_suffixes h
    constructor
    · rw [peelAt?_eq limit htext (Nat.min_self _), hpeel]
    · rw [Checked.peel_eq htext, hpeel, List.append_nil]

/-- The limit of two leaves a filter at the end of the body. -/
theorem peelAt?_suffixes_limit :
    let front := "é|t|c|bem".toList
    let text := front ++ "</p>".toList
    let body := "é|t".toList
    min 10 (bytes text) = bytes front ∧ IsPeeled 2 body [comment, bem] ∧
      (∃ (body : List Char) (fs : List Filter), peelAt? text 10 2 = some (bytes body, fs) ∧
        Checked.peel text 2 (min 10 (bytes text)) [] = .ok (bytes body, fs) ∧
        front = body ++ suffixes fs ∧ IsPeeled 2 body fs) ∧
      peelAt? (body ++ suffixes [comment, bem]) (bytes (body ++ suffixes [comment, bem])) 2 =
        some (bytes body, [comment, bem]) ∧
      peelAt? text 10 2 = some (4, [comment, bem]) := by
  intro front text body
  have hstop : min 10 (bytes text) = bytes front := by decide
  have hpeeled : IsPeeled 2 body [comment, bem] := ⟨Nat.le_refl _, .inl rfl⟩
  exact ⟨hstop, hpeeled, (peelAt?_suffixes 2).1 text front _ 10 rfl hstop,
    ((peelAt?_suffixes 2).2 body _ hpeeled).1, by decide⟩

end Emmet.Filter
