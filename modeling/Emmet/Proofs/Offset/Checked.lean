import Emmet.Proofs.Fallible
import Emmet.Text.Measure
import Emmet.Text.Split

/-!
# Checked offsets

An offset counts bytes of UTF-8. A text can be cut at an offset only where a character starts or the
text ends, the difference of two offsets is one only if it is not below zero, and columns have 32
bits. In a `Checked` computation each of these is checked where it is relied on, and what does not
hold is a `Fault`.

* `slice`, `sub`, `add32` : the checked operations;
* `slice_append` : a part of a text is cut out at the sizes of what stands before and behind it;
* `align_eq` : going to the left byte by byte ends where the character starts.
-/

namespace Emmet

/-- What goes wrong with an offset. -/
inductive Checked.Fault where
  /-- A text is cut inside a character, behind its end, or in the wrong order. -/
  | cut
  /-- A difference is below zero. -/
  | underflow
  /-- A sum has more than 32 bits. -/
  | overflow
  /-- There is no byte at an offset. -/
  | index
  deriving DecidableEq, Repr

/-- A computation that ends with a fault as soon as something is wrong with an offset. -/
abbrev Checked := Except Checked.Fault

namespace Checked

open Text

/-! ### Sums and differences -/

/-- The difference of two offsets. -/
def sub (a b : Nat) : Checked Nat := if b ≤ a then .ok (a - b) else .error .underflow

/-- The sum of two numbers of 32 bits. -/
def add32 (a b : Nat) : Checked Nat := if a + b < UInt32.size then .ok (a + b) else .error .overflow

theorem sub_of_le {a b : Nat} (h : b ≤ a) : sub a b = .ok (a - b) := if_pos h

@[simp] theorem sub_add_right (a b : Nat) : sub (a + b) b = .ok a := by
  rw [sub_of_le (Nat.le_add_left b a), Nat.add_sub_cancel]

theorem add32_of_lt {a b : Nat} (h : a + b < UInt32.size) : add32 a b = .ok (a + b) := if_pos h

/-- One byte to the left. -/
def retreat (pos : Nat) : Checked {left : Nat // left < pos} :=
  if h : 0 < pos then .ok ⟨pos - 1, Nat.sub_one_lt_of_lt h⟩ else .error .underflow

@[simp] theorem retreat_succ (pos : Nat) :
    retreat (pos + 1) = .ok ⟨pos, Nat.lt_succ_self pos⟩ := rfl

/-! ### Parts of a text -/

/-- A character starts at an offset, or the text ends there. -/
def IsBoundary (cs : List Char) (n : Nat) : Prop := bytes (cut utf8 cs n).1 = n

instance (cs : List Char) (n : Nat) : Decidable (IsBoundary cs n) :=
  inferInstanceAs (Decidable (_ = _))

/-- The part of a text between two offsets. -/
def slice (cs : List Char) (start stop : Nat) : Checked (List Char) :=
  if start ≤ stop ∧ IsBoundary cs start ∧ IsBoundary cs stop then
    .ok (cut utf8 (cut utf8 cs stop).1 start).2
  else .error .cut

/-- The offset of the first place of a character. -/
def indexOf? (c : Char) (cs : List Char) : Option Nat := (splitOnce c cs).map fun p => bytes p.1

variable {cs as ms bs : List Char}

theorem bytes_append (as bs : List Char) : bytes (as ++ bs) = bytes as + bytes bs :=
  size_append ..

theorem bytes_eq_zero_iff : bytes cs = 0 ↔ cs = [] := by
  cases cs with
  | nil => exact iff_of_true rfl rfl
  | cons c cs =>
    have := utf8_pos c
    exact iff_of_false (by simp only [bytes, size_cons]; omega) (List.cons_ne_nil c cs)

theorem bytes_le_of_isSuffix (h : as <:+ bs) : bytes as ≤ bytes bs := by
  obtain ⟨front, rfl⟩ := h
  rw [bytes_append]
  exact Nat.le_add_left ..

theorem bytes_le_of_isPrefix (h : as <+: bs) : bytes as ≤ bytes bs := by
  obtain ⟨back, rfl⟩ := h
  rw [bytes_append]
  exact Nat.le_add_right ..

theorem isBoundary_of_eq (h : cs = as ++ bs) : IsBoundary cs (bytes as) := by
  rw [IsBoundary, cut_bytes h]

theorem slice_append (h : cs = as ++ (ms ++ bs)) :
    slice cs (bytes as) (bytes (as ++ ms)) = .ok ms := by
  have hstop : cs = (as ++ ms) ++ bs := by rw [h, List.append_assoc]
  have hle : bytes as ≤ bytes (as ++ ms) := bytes_le_of_isPrefix (List.prefix_append as ms)
  rw [slice, if_pos ⟨hle, isBoundary_of_eq h, isBoundary_of_eq hstop⟩, cut_bytes hstop,
    cut_bytes rfl]

/-- The last character has two bytes, so the text is not cut between them. -/
example : slice ['a', 'é'] 0 3 = .ok ['a', 'é'] ∧ slice ['a', 'é'] 0 2 = .error .cut :=
  ⟨rfl, rfl⟩

/-- A front part is cut off at its size. -/
theorem slice_front (h : cs = as ++ bs) : slice cs 0 (bytes as) = .ok as := by
  have hslice : slice cs (bytes []) (bytes ([] ++ as)) = .ok as := slice_append h
  rwa [List.nil_append] at hslice

/-- What stands behind a front part is cut off at the size of the front part. -/
theorem slice_back (h : cs = as ++ bs) : slice cs (bytes as) (bytes cs) = .ok bs := by
  have hslice : slice cs (bytes as) (bytes (as ++ bs)) = .ok bs :=
    slice_append (show cs = as ++ (bs ++ []) by rw [List.append_nil, h])
  rwa [← h] at hslice

theorem indexOf?_eq_some {c : Char} {i : Nat} (h : indexOf? c cs = some i) :
    ∃ before after, splitOnce c cs = some (before, after) ∧ cs = before ++ c :: after ∧
      bytes before = i := by
  obtain ⟨⟨before, after⟩, hsplit, hi⟩ := Option.map_eq_some_iff.1 h
  exact ⟨before, after, hsplit, (splitOnce_eq_some hsplit).1, hi⟩

theorem indexOf?_eq_none_iff {c : Char} : indexOf? c cs = none ↔ splitOnce c cs = none :=
  Option.map_eq_none_iff

/-! ### The start of a character -/

/-- Goes to the left until a character starts. -/
def align (cs : List Char) (pos : Nat) : Checked Nat :=
  if IsBoundary cs pos then .ok pos
  else do
    let ⟨left, _⟩ ← retreat pos
    align cs left
  termination_by pos

theorem isBoundary_zero (cs : List Char) : IsBoundary cs 0 :=
  Nat.le_zero.1 (size_cut_le utf8 cs 0)

/-- Inside a character the text is cut where it is cut one byte before. -/
theorem cut_succ_of_not_isBoundary {n : Nat} (h : ¬ IsBoundary cs (n + 1)) :
    cut utf8 cs (n + 1) = cut utf8 cs n := by
  induction cs generalizing n with
  | nil => rfl
  | cons c cs ih =>
    have hpos := utf8_pos c
    unfold cut
    by_cases hc : utf8 c ≤ n
    · have hrest : ¬ IsBoundary cs (n - utf8 c + 1) := by
        intro hrest
        refine h ?_
        rw [IsBoundary, cut, if_pos (by omega), show n + 1 - utf8 c = n - utf8 c + 1 by omega]
        rw [IsBoundary] at hrest
        simp only [size_cons, hrest]
        omega
      rw [if_pos (by omega), if_pos hc, show n + 1 - utf8 c = n - utf8 c + 1 by omega, ih hrest]
    · by_cases hfits : utf8 c ≤ n + 1
      · -- the character ends at `n + 1`, so that would be a boundary
        refine absurd ?_ h
        rw [IsBoundary, cut, if_pos hfits, show n + 1 - utf8 c = 0 by omega]
        have hzero : bytes (cut utf8 cs 0).1 = 0 := isBoundary_zero cs
        simp only [size_cons, hzero]
        omega
      · rw [if_neg hfits, if_neg hc]

theorem align_eq (cs : List Char) (pos : Nat) :
    align cs pos = .ok (bytes (cut utf8 cs pos).1) := by
  induction pos with
  | zero =>
    have hzero := isBoundary_zero cs
    rw [align, if_pos hzero, show bytes (cut utf8 cs 0).1 = 0 from hzero]
  | succ pos ih =>
    rw [align]
    split
    · next h => rw [show bytes (cut utf8 cs (pos + 1)).1 = pos + 1 from h]
    · next h =>
      rw [retreat_succ, ok_bind, cut_succ_of_not_isBoundary h]
      exact ih

theorem cut_of_bytes_le {n : Nat} (h : bytes cs ≤ n) : cut utf8 cs n = (cs, []) := by
  induction cs generalizing n with
  | nil => rfl
  | cons c cs ih =>
    have hsum : utf8 c + bytes cs ≤ n := h
    rw [cut, if_pos (by omega), ih (by omega)]

theorem cut_min_bytes (cs : List Char) (n : Nat) :
    cut utf8 cs (min n (bytes cs)) = cut utf8 cs n := by
  by_cases h : n ≤ bytes cs
  · rw [Nat.min_eq_left h]
  · rw [Nat.min_eq_right (by omega), cut_of_bytes_le (Nat.le_refl _), cut_of_bytes_le (by omega)]

end Checked

end Emmet
