/-!
# Tables of closed intervals

Classes of characters are kept as ascending lists of closed intervals of code points. `covers`
looks a code point up; `covers_iff` says that on an ascending table this is plain membership.
-/

namespace Emmet.Text

/-- Whether `n` lies in one of the closed intervals of an ascending table. -/
def covers : List (Nat × Nat) → Nat → Bool
  | [], _ => false
  | (lo, hi) :: rest, n => if n < lo then false else decide (n ≤ hi) || covers rest n

/-- The intervals of a table ascend and do not touch each other out of order. -/
def Ascending (table : List (Nat × Nat)) : Prop :=
  table.Pairwise fun a b => a.1 ≤ b.1

theorem covers_iff {table : List (Nat × Nat)} (h : Ascending table) (n : Nat) :
    covers table n = true ↔ ∃ p ∈ table, p.1 ≤ n ∧ n ≤ p.2 := by
  induction table with
  | nil => simp [covers]
  | cons p rest ih =>
    obtain ⟨lo, hi⟩ := p
    have h' := List.pairwise_cons.1 h
    rw [covers]
    split
    · next hlt =>
      simp only [Bool.false_eq_true, List.mem_cons, false_iff, not_exists, not_and]
      rintro q (rfl | hq) hle
      · exact absurd hle (by simpa using hlt)
      · exact absurd (Nat.le_trans (h'.1 q hq) hle) (by simpa using hlt)
    · next hge =>
      simp only [Bool.or_eq_true, decide_eq_true_eq, List.mem_cons, exists_eq_or_imp, ih h'.2]
      constructor
      · rintro (h | h)
        · exact .inl ⟨by omega, h⟩
        · exact .inr h
      · rintro (h | h)
        · exact .inl h.2
        · exact .inr h

end Emmet.Text
