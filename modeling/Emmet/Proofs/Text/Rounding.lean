import Emmet.Text.Measure
import Mathlib.Order.Bounds.Basic
import Mathlib.Order.Monotone.Basic

/-!
# Columns and offsets are inverse up to rounding

An offset inside a character belongs to no column. The column that it is turned into is the one
behind that character, so turning it back rounds up.

* `EndsAt` : the offsets between two characters of a text and at its ends;
* `columnAt_offsetOf` : a column comes back, and one past the end comes back as the end;
* `isLeast_offsetOf_columnAt` : an offset comes back rounded up;
* `offsetOf_mono`, `columnAt_mono` : neither way changes the order.
-/

namespace Emmet.Text

/-- A front part of a text takes so many units. -/
def EndsAt (w : Width) (cs : List Char) (n : Nat) : Prop :=
  ∃ front back, cs = front ++ back ∧ size w front = n

variable {w : Width} {cs : List Char}

theorem endsAt_cons_iff {c : Char} {n : Nat} :
    EndsAt w (c :: cs) n ↔ n = 0 ∨ ∃ m, EndsAt w cs m ∧ n = w c + m := by
  constructor
  · rintro ⟨front, back, hcs, rfl⟩
    cases front with
    | nil => exact .inl rfl
    | cons d front =>
      obtain ⟨rfl, rfl⟩ := List.cons.inj hcs
      exact .inr ⟨_, ⟨front, back, rfl, rfl⟩, rfl⟩
  · rintro (rfl | ⟨_, ⟨front, back, rfl, rfl⟩, rfl⟩)
    · exact ⟨[], c :: cs, rfl, rfl⟩
    · exact ⟨c :: front, back, rfl, rfl⟩

theorem endsAt_offsetOf (w : Width) (cs : List Char) (column : Nat) :
    EndsAt w cs (offsetOf w cs column) :=
  ⟨_, _, (List.take_append_drop column cs).symm, rfl⟩

theorem offsetOf_cons_succ (c : Char) (cs : List Char) (column : Nat) :
    offsetOf w (c :: cs) (column + 1) = w c + offsetOf w cs column := rfl

theorem offsetOf_of_length_le {column : Nat} (h : cs.length ≤ column) :
    offsetOf w cs column = size w cs := by
  rw [offsetOf, List.take_of_length_le h]

theorem offsetOf_le_size (w : Width) (cs : List Char) (column : Nat) :
    offsetOf w cs column ≤ size w cs := by
  have hsize := size_append w (cs.take column) (cs.drop column)
  rw [List.take_append_drop] at hsize
  exact hsize ▸ Nat.le_add_right _ _

theorem offsetOf_mono (w : Width) (cs : List Char) : Monotone (offsetOf w cs) := by
  intro c d hcd
  have htake : (cs.take d).take c = cs.take c := by rw [List.take_take, Nat.min_eq_left hcd]
  calc offsetOf w cs c = offsetOf w (cs.take d) c := congrArg (size w) htake.symm
    _ ≤ size w (cs.take d) := offsetOf_le_size w _ c

theorem columnAt_le_length (w : Width) (cs : List Char) (n : Nat) :
    columnAt w cs n ≤ cs.length := by
  induction cs generalizing n with
  | nil => exact Nat.le_refl _
  | cons c cs ih =>
    rw [columnAt]
    split
    · exact Nat.zero_le _
    · exact Nat.succ_le_succ (ih _)

theorem columnAt_mono (w : Width) (cs : List Char) : Monotone (columnAt w cs) := by
  induction cs with
  | nil => exact fun _ _ _ => Nat.le_refl _
  | cons c cs ih =>
    intro m n hmn
    rw [columnAt, columnAt]
    split
    · exact Nat.zero_le _
    · rw [if_neg (by omega)]
      exact Nat.succ_le_succ (ih (by omega))

/-- A column comes back; one past the end comes back as the end. -/
theorem columnAt_offsetOf (hw : ∀ c, 0 < w c) (cs : List Char) (column : Nat) :
    columnAt w cs (offsetOf w cs column) = min column cs.length := by
  have hfront := columnAt_size hw (cs.take column) (cs.drop column)
  rwa [List.take_append_drop, List.length_take] at hfront

theorem columnAt_of_size_le (hw : ∀ c, 0 < w c) {n : Nat} (h : size w cs ≤ n) :
    columnAt w cs n = cs.length := by
  induction cs generalizing n with
  | nil => rfl
  | cons c cs ih =>
    have hc := hw c
    rw [size_cons] at h
    rw [columnAt, if_neg (by omega), ih (by omega), List.length_cons]

/-- An offset comes back rounded up to the next place between two characters. -/
theorem isLeast_offsetOf_columnAt (hw : ∀ c, 0 < w c) (cs : List Char) (n : Nat) :
    IsLeast {m | EndsAt w cs m ∧ min n (size w cs) ≤ m} (offsetOf w cs (columnAt w cs n)) := by
  refine ⟨⟨endsAt_offsetOf w cs _, ?_⟩, ?_⟩
  · induction cs generalizing n with
    | nil => exact Nat.min_le_right _ _
    | cons c cs ih =>
      have hrest := ih (n - w c)
      rw [columnAt]
      split
      · next hn =>
        rw [hn, Nat.zero_min]
        exact Nat.zero_le _
      · rw [offsetOf_cons_succ, size_cons]
        omega
  · induction cs generalizing n with
    | nil => exact fun m _ => Nat.zero_le m
    | cons c cs ih =>
      rintro m ⟨hends, hle⟩
      have hc := hw c
      rw [size_cons] at hle
      rw [columnAt]
      split
      · exact Nat.zero_le m
      · -- no place before the first character is far enough
        obtain rfl | ⟨rest, hrest, rfl⟩ := endsAt_cons_iff.1 hends
        · omega
        · have hleast := ih (n - w c) ⟨hrest, by omega⟩
          rw [offsetOf_cons_succ]
          exact Nat.add_le_add_left hleast _

end Emmet.Text
