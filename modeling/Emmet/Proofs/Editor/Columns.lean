import Emmet.Editor.Item
import Emmet.Proofs.Offset.Checked
import Emmet.Proofs.Text.Rounding

/-!
# Columns that editors count in code units

An editor that counts code units of UTF-16 gives a character outside the first plane two columns.
Every column of characters comes back from such an editor as it was; a column between the two units
of a character comes back as the one behind it.

* `encode` : a text as code units;
* `take_drop_encode` : what stands between the units of two columns;
* `Checked.fromUnits`, `Checked.toUnits` : both ways as counting with numbers of 32 bits, in which
  every sum and difference is checked;
* `Checked.fromUnits_eq`, `Checked.toUnits_eq` : no check fails, and the result is the same;
* `RoundTrip`, `roundTrip_of_size_lt` : how the two ways fit together on a line.
-/

namespace Emmet

namespace Editor

open Text

variable {line : List Char}

/-! ### Code units -/

/-- The code units of a character; one outside the first plane is a pair of surrogates. -/
def codeUnits (c : Char) : List UInt16 :=
  if c.toNat < 0x10000 then [.ofNat c.toNat]
  else [.ofNat (0xD800 + (c.toNat - 0x10000) / 0x400),
    .ofNat (0xDC00 + (c.toNat - 0x10000) % 0x400)]

/-- A text as code units. -/
def encode (cs : List Char) : List UInt16 := cs.flatMap codeUnits

example : encode ['😀', 'u'] = [0xD83D, 0xDE00, 0x75] := by decide

theorem encode_append (as bs : List Char) : encode (as ++ bs) = encode as ++ encode bs :=
  List.flatMap_append

theorem length_encode (cs : List Char) : (encode cs).length = size utf16 cs := by
  induction cs with
  | nil => rfl
  | cons c cs ih =>
    have hc : (codeUnits c).length = utf16 c := by
      unfold codeUnits utf16
      split
      · rfl
      · rfl
    have hcons : encode (c :: cs) = codeUnits c ++ encode cs := List.flatMap_cons
    rw [hcons, List.length_append, hc, ih, size_cons]

theorem take_encode (line : List Char) (column : Nat) :
    (encode line).take (offsetOf utf16 line column) = encode (line.take column) := by
  have hline : encode line = encode (line.take column) ++ encode (line.drop column) := by
    rw [← encode_append, List.take_append_drop]
  rw [offsetOf, ← length_encode, hline, List.take_left]

/-- Between the units of two columns stands what is between the columns. -/
theorem take_drop_encode {start stop : Nat} (h : start ≤ stop) :
    ((encode line).take (offsetOf utf16 line stop)).drop (offsetOf utf16 line start) =
      encode ((line.take stop).drop start) := by
  have hstart : (line.take stop).take start = line.take start := by
    rw [List.take_take, Nat.min_eq_left h]
  have hparts := encode_append ((line.take stop).take start) ((line.take stop).drop start)
  rw [List.take_append_drop, hstart] at hparts
  rw [take_encode, hparts, offsetOf, ← length_encode, List.drop_left]

/-! ### There and back -/

theorem toEditor_units (h : size utf16 line < UInt32.size) (p : Position) :
    toEditor .units line p = ⟨p.line, offsetOf utf16 line p.column⟩ := by
  have hle := offsetOf_le_size utf16 line p.column
  rw [toEditor, Nat.min_eq_left (by unfold maxNumber; omega)]

theorem fromUnits_toEditor (h : size utf16 line < UInt32.size) {p : Position}
    (hp : p.column ≤ line.length) : fromUnits line (toEditor .units line p) = p := by
  have hle := offsetOf_le_size utf16 line p.column
  have hcolumn := columnAt_offsetOf utf16_pos line p.column
  rw [toEditor_units h, fromUnits]
  simp only
  rw [hcolumn, Nat.min_eq_left hp, Nat.sub_eq_zero_of_le hle, Nat.add_zero]

/-- Columns of units behind the end of the line go on one by one. -/
theorem column_fromUnits_of_size_le {p : Position} (h : size utf16 line ≤ p.column) :
    (fromUnits line p).column = line.length + (p.column - size utf16 line) := by
  rw [fromUnits, columnAt_of_size_le utf16_pos h]

theorem column_fromUnits_of_le_size {p : Position} (h : p.column ≤ size utf16 line) :
    (fromUnits line p).column = columnAt utf16 line p.column := by
  rw [fromUnits, Nat.sub_eq_zero_of_le h, Nat.add_zero]

theorem offsetOf_fromUnits (line : List Char) (p : Position) :
    offsetOf utf16 line (fromUnits line p).column =
      offsetOf utf16 line (columnAt utf16 line p.column) := by
  by_cases h : p.column ≤ size utf16 line
  · rw [column_fromUnits_of_le_size h]
  · have hbehind : size utf16 line ≤ p.column := by omega
    rw [column_fromUnits_of_size_le hbehind, columnAt_of_size_le utf16_pos hbehind,
      offsetOf_of_length_le (Nat.le_add_right _ _), offsetOf_of_length_le (Nat.le_refl _)]

theorem column_fromUnits_mono {p q : Position} (h : p.column ≤ q.column) :
    (fromUnits line p).column ≤ (fromUnits line q).column :=
  Nat.add_le_add (columnAt_mono utf16 line h) (Nat.sub_le_sub_right h _)

theorem length_le_size (line : List Char) : line.length ≤ size utf16 line := by
  induction line with
  | nil => exact Nat.le_refl _
  | cons c line ih =>
    have hc := utf16_pos c
    rw [List.length_cons, size_cons]
    omega

theorem columnAt_le (line : List Char) (n : Nat) : columnAt utf16 line n ≤ n := by
  induction line generalizing n with
  | nil => exact Nat.zero_le _
  | cons c line ih =>
    have hc := utf16_pos c
    have hrest := ih (n - utf16 c)
    rw [columnAt]
    split
    · exact Nat.zero_le _
    · omega

/-- A line has no more characters than units. -/
theorem column_fromUnits_le (line : List Char) (p : Position) :
    (fromUnits line p).column ≤ p.column := by
  by_cases h : p.column ≤ size utf16 line
  · rw [column_fromUnits_of_le_size h]
    exact columnAt_le line _
  · have hlength := length_le_size line
    rw [column_fromUnits_of_size_le (by omega)]
    omega

end Editor

/-! ### Counting with 32 bits -/

namespace Checked

open Text Editor

variable {line : List Char}

/-- The units of a text, added to those before it. -/
def countUnits : (units : Nat) → List Char → Checked Nat
  | units, [] => .ok units
  | units, c :: cs => do
    let units ← add32 units (utf16 c)
    countUnits units cs

/-- A position as an editor counts it in code units. -/
def toUnits (line : List Char) (p : Position) : Checked Position := do
  let units ← countUnits 0 (line.take p.column)
  return ⟨p.line, min units maxNumber⟩

/-- Passes characters until their units reach a column; how many units and characters there are. -/
def passUnits (column : Nat) : (units characters : Nat) → List Char → Checked (Nat × Nat)
  | units, characters, [] => .ok (units, characters)
  | units, characters, c :: cs =>
    if column ≤ units then .ok (units, characters)
    else do
      let units ← add32 units (utf16 c)
      let characters ← add32 characters 1
      passUnits column units characters cs

/-- A position that an editor counts in code units, counted in characters. -/
def fromUnits (line : List Char) (p : Position) : Checked Position := do
  let (units, characters) ← passUnits p.column 0 0 line
  if units < p.column then
    let beyond ← sub p.column (units % UInt32.size)
    let characters ← add32 characters beyond
    return ⟨p.line, characters⟩
  else return ⟨p.line, characters⟩

theorem countUnits_eq {units : Nat} (h : units + size utf16 line < UInt32.size) :
    countUnits units line = .ok (units + size utf16 line) := by
  induction line generalizing units with
  | nil => rfl
  | cons c line ih =>
    rw [size_cons] at h
    rw [countUnits, add32_of_lt (by omega), ok_bind, ih (by omega), size_cons, Nat.add_assoc]

theorem toUnits_eq (h : size utf16 line < UInt32.size) (p : Position) :
    toUnits line p = .ok (toEditor .units line p) := by
  have hle := offsetOf_le_size utf16 line p.column
  rw [offsetOf] at hle
  rw [toUnits, countUnits_eq (by omega), ok_bind, Nat.zero_add]
  rfl

/-- A character has at least one unit, so the characters need no more bits than the units. -/
theorem passUnits_eq {column units characters : Nat} (hle : characters ≤ units)
    (h : units + size utf16 line < UInt32.size) :
    passUnits column units characters line =
      .ok (units + offsetOf utf16 line (columnAt utf16 line (column - units)),
        characters + columnAt utf16 line (column - units)) := by
  induction line generalizing units characters with
  | nil => rfl
  | cons c line ih =>
    have hc := utf16_pos c
    rw [size_cons] at h
    rw [passUnits, columnAt]
    split
    · next hreached =>
      rw [if_pos (Nat.sub_eq_zero_of_le hreached)]
      rfl
    · rw [add32_of_lt (by omega), ok_bind, add32_of_lt (by omega), ok_bind,
        ih (by omega) (by omega), if_neg (by omega), offsetOf_cons_succ, Nat.sub_add_eq,
        Nat.add_assoc, Nat.add_assoc, Nat.add_comm 1]

theorem fromUnits_eq (h : size utf16 line < UInt32.size) {p : Position}
    (hp : p.column < UInt32.size) : fromUnits line p = .ok (Editor.fromUnits line p) := by
  have hlength := length_le_size line
  obtain ⟨⟨-, hreaches⟩, -⟩ := isLeast_offsetOf_columnAt utf16_pos line p.column
  have hle := offsetOf_le_size utf16 line (columnAt utf16 line p.column)
  rw [fromUnits, passUnits_eq (Nat.le_refl 0) (by omega), ok_bind]
  simp only [Nat.zero_add, Nat.sub_zero]
  split
  · -- the line ends before the column
    have hsize : offsetOf utf16 line (columnAt utf16 line p.column) = size utf16 line := by omega
    have hbehind : size utf16 line ≤ p.column := by omega
    rw [hsize, Nat.mod_eq_of_lt h, sub_of_le hbehind, ok_bind,
      columnAt_of_size_le utf16_pos hbehind, add32_of_lt (by omega), ok_bind, pure_eq_ok,
      ← column_fromUnits_of_size_le hbehind]
    rfl
  · have hinside : p.column ≤ size utf16 line := by omega
    rw [pure_eq_ok, ← column_fromUnits_of_le_size hinside]
    rfl

end Checked

/-! ### Both ways -/

namespace Editor

open Text

/-- How columns of characters and columns of units fit together on a line. -/
structure RoundTrip (line : List Char) : Prop where
  /-- A column on the line comes back. -/
  fromUnits_toEditor : ∀ p, p.column ≤ line.length → fromUnits line (toEditor .units line p) = p
  /-- A column of units comes back as the next one that is not inside a character, and one behind
  the end as the end. -/
  toEditor_fromUnits : ∀ p,
    IsLeast {n | EndsAt utf16 line n ∧ min p.column (size utf16 line) ≤ n}
      (toEditor .units line (fromUnits line p)).column
  /-- Behind the end of the line, units are counted as characters. -/
  beyond : ∀ p, size utf16 line ≤ p.column →
    (fromUnits line p).column = line.length + (p.column - size utf16 line)
  toEditor_mono : ∀ p q, p.column ≤ q.column →
    (toEditor .units line p).column ≤ (toEditor .units line q).column
  fromUnits_mono : ∀ p q, p.column ≤ q.column →
    (fromUnits line p).column ≤ (fromUnits line q).column
  /-- The line stays the same. -/
  keepsLine : ∀ p, (toEditor .units line p).line = p.line ∧ (fromUnits line p).line = p.line
  /-- Counting with 32 bits goes wrong nowhere, and its result is a number of 32 bits. -/
  toUnits_ok : ∀ p, Checked.toUnits line p = .ok (toEditor .units line p) ∧
    (toEditor .units line p).column < UInt32.size
  fromUnits_ok : ∀ p, p.column < UInt32.size →
    Checked.fromUnits line p = .ok (fromUnits line p) ∧ (fromUnits line p).column < UInt32.size
  /-- The units of a range are those of the characters in it. -/
  between : ∀ n start stop, start ≤ stop →
    let r := rangeToEditor .units line (.onLine n start stop)
    ((encode line).take r.stop.column).drop r.start.column = encode ((line.take stop).drop start)

/-- **Columns of code units round-trip** on every line whose units can be counted with 32 bits. -/
theorem roundTrip_of_size_lt {line : List Char} (h : size utf16 line < UInt32.size) :
    RoundTrip line where
  fromUnits_toEditor _ hp := fromUnits_toEditor h hp
  toEditor_fromUnits p := by
    rw [toEditor_units h, offsetOf_fromUnits]
    exact isLeast_offsetOf_columnAt utf16_pos line p.column
  beyond _ hp := column_fromUnits_of_size_le hp
  toEditor_mono p q hpq := by
    rw [toEditor_units h, toEditor_units h]
    exact offsetOf_mono utf16 line hpq
  fromUnits_mono _ _ hpq := column_fromUnits_mono hpq
  keepsLine _ := ⟨rfl, rfl⟩
  toUnits_ok p := by
    have hle := offsetOf_le_size utf16 line p.column
    refine ⟨Checked.toUnits_eq h p, ?_⟩
    rw [toEditor_units h]
    exact Nat.lt_of_le_of_lt hle h
  fromUnits_ok p hp :=
    ⟨Checked.fromUnits_eq h hp, Nat.lt_of_le_of_lt (column_fromUnits_le line p) hp⟩
  between n start stop hstart := by
    simp only [rangeToEditor, Range.onLine, toEditor_units h]
    exact take_drop_encode hstart

/-- A line that starts with a pair of surrogates: its first two columns of units, and one behind its
end. -/
theorem roundTrip_emoji : size utf16 ['😀', 'u'] < UInt32.size ∧
    fromUnits ['😀', 'u'] (toEditor .units ['😀', 'u'] ⟨7, 2⟩) = ⟨7, 2⟩ ∧
    IsLeast {n | EndsAt utf16 ['😀', 'u'] n ∧ 1 ≤ n} 2 ∧
    (fromUnits ['😀', 'u'] ⟨7, 5⟩).column = 4 ∧
    ((encode ['😀', 'u']).take 3).drop 2 = [0x75] := by
  have h : size utf16 ['😀', 'u'] < UInt32.size := by decide
  have hline := roundTrip_of_size_lt h
  exact ⟨h, hline.fromUnits_toEditor ⟨7, 2⟩ (by decide),
    hline.toEditor_fromUnits ⟨7, 1⟩, hline.beyond ⟨7, 5⟩ (by decide),
    hline.between 7 1 2 (by decide)⟩

end Editor

end Emmet
