import Emmet.Proofs.Offset.Located
import Emmet.Proofs.Text.Rounding

/-!
# Columns of a line and offsets of its bytes

A column and an offset of a line say the same place in two ways, one by counting the characters
left of it and one by their bytes. Both ways can be read off the offsets at which the characters
start: the offset of a column is the start with that number, and the column of an offset is the
number of starts before it. Each way has its own rule for places behind the end.

* `starts` : the offsets at which the characters of a text start;
* `startAt_eq`, `startsBefore_eq` : what is read off them is the offset and the column;
* `offsets_roundUp` : the two ways are inverse up to rounding.
-/

namespace Emmet.Text

/-- The offsets at which the characters of a text start, if the text starts at an offset. -/
def startsFrom (offset : Nat) : List Char → List Nat
  | [] => []
  | c :: cs => offset :: startsFrom (offset + utf8 c) cs

/-- The offsets at which the characters of a text start. -/
def starts (cs : List Char) : List Nat := startsFrom 0 cs

/-- The start of the character in a column, and the end of the text for a column without one. -/
def startAt (cs : List Char) (column : Nat) : Nat := (starts cs)[column]?.getD (bytes cs)

/-- The number of starts that come before an offset. An offset behind the end is not looked for. -/
def startsBefore (cs : List Char) (offset : Nat) : Nat :=
  if bytes cs ≤ offset then cs.length else ((starts cs).takeWhile (· < offset)).length

/-- The character of two bytes moves all later starts. -/
example : starts "æb>c".toList = [0, 2, 3, 4] := by decide

theorem getElem?_startsFrom (offset : Nat) (cs : List Char) (column : Nat) :
    (startsFrom offset cs)[column]?.getD (offset + bytes cs) =
      offset + offsetOf utf8 cs column := by
  induction cs generalizing offset column with
  | nil => rw [offsetOf, List.take_nil]; rfl
  | cons c cs ih =>
    cases column with
    | zero => rfl
    | succ column =>
      have hsize : bytes (c :: cs) = utf8 c + bytes cs := rfl
      rw [offsetOf_cons_succ, hsize, ← Nat.add_assoc, ← Nat.add_assoc, ← ih]
      rfl

theorem startAt_eq (cs : List Char) (column : Nat) :
    startAt cs column = offsetOf utf8 cs column := by
  have hstart := getElem?_startsFrom 0 cs column
  rwa [Nat.zero_add, Nat.zero_add] at hstart

/-- The starts ascend, so those before a limit stand in front. -/
theorem length_takeWhile_startsFrom (offset limit : Nat) (cs : List Char) :
    ((startsFrom offset cs).takeWhile (· < limit)).length = columnAt utf8 cs (limit - offset) := by
  induction cs generalizing offset with
  | nil => rfl
  | cons c cs ih =>
    rw [startsFrom, columnAt, List.takeWhile_cons]
    by_cases hlimit : offset < limit
    · rw [if_pos (decide_eq_true hlimit), if_neg (by omega), List.length_cons, ih, Nat.sub_add_eq]
    · rw [if_neg (by simpa using hlimit), if_pos (by omega)]
      rfl

theorem startsBefore_eq (cs : List Char) (offset : Nat) :
    startsBefore cs offset = columnAt utf8 cs offset := by
  rw [startsBefore]
  split
  · next hbehind => rw [columnAt_of_size_le utf8_pos hbehind]
  · rw [starts, length_takeWhile_startsFrom, Nat.sub_zero]

/-- The offsets that are valid in a line are those between two characters and at its ends. -/
theorem isValid_iff_endsAt (line : String) (n : Nat) :
    String.Pos.Raw.IsValid line ⟨n⟩ ↔ EndsAt utf8 line.toList n := Abbreviation.isValid_iff

/-- **Columns and offsets of a line are inverse up to rounding.** A column comes back as it was, and
one behind the end as the end. An offset comes back as the first valid one from there on; it was
inside a character or behind the end if that is another one. Neither way changes the order, and both
can be read off the starts of the characters. -/
theorem offsets_roundUp (line : String) :
    (∀ column, columnAt utf8 line.toList (offsetOf utf8 line.toList column) =
      min column line.length) ∧
    (∀ offset, IsLeast
      {n | String.Pos.Raw.IsValid line ⟨n⟩ ∧ min offset line.utf8ByteSize ≤ n}
      (offsetOf utf8 line.toList (columnAt utf8 line.toList offset))) ∧
    Monotone (offsetOf utf8 line.toList) ∧ Monotone (columnAt utf8 line.toList) ∧
    (∀ column, offsetOf utf8 line.toList column = startAt line.toList column) ∧
    ∀ offset, columnAt utf8 line.toList offset = startsBefore line.toList offset := by
  refine ⟨fun column => ?_, fun offset => ?_, offsetOf_mono utf8 line.toList,
    columnAt_mono utf8 line.toList, fun column => (startAt_eq _ column).symm,
    fun offset => (startsBefore_eq _ offset).symm⟩
  · rw [columnAt_offsetOf utf8_pos, String.length_toList]
  · simp only [isValid_iff_endsAt, Abbreviation.utf8ByteSize_eq]
    exact isLeast_offsetOf_columnAt utf8_pos line.toList offset

end Emmet.Text
