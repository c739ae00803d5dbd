/-!
# Columns and offsets

A column counts characters. An offset counts units, and a width says how many units a character
takes: bytes of UTF-8 (`utf8`) or code units of UTF-16 (`utf16`).

* `size` measures a text, `offsetOf` turns a column into an offset;
* `columnAt` turns an offset into a column, rounding up inside a character;
* `cut` splits a text at an offset, rounding down inside a character.
-/

namespace Emmet.Text

/-- How many units a character takes. -/
abbrev Width := Char → Nat

/-- Bytes of UTF-8. -/
def utf8 : Width := Char.utf8Size

/-- Code units of UTF-16. -/
def utf16 : Width := fun c => if c.toNat < 0x10000 then 1 else 2

variable (w : Width)

/-- The number of units of a text. -/
def size (cs : List Char) : Nat := cs.foldr (fun c n => w c + n) 0

/-- The number of bytes of a text. -/
abbrev bytes (cs : List Char) : Nat := size utf8 cs

/-- The offset at which a column starts, the end of the text for a column past it. -/
def offsetOf (cs : List Char) (column : Nat) : Nat := size w (cs.take column)

/-- The number of characters that start before an offset. -/
def columnAt : List Char → Nat → Nat
  | [], _ => 0
  | c :: cs, n => if n = 0 then 0 else columnAt cs (n - w c) + 1

/-- The longest front part that fits into `n` units, and the rest. -/
def cut : List Char → Nat → List Char × List Char
  | [], _ => ([], [])
  | c :: cs, n =>
    if w c ≤ n then
      let (front, back) := cut cs (n - w c)
      (c :: front, back)
    else ([], c :: cs)

@[simp] theorem size_nil : size w [] = 0 := rfl

@[simp] theorem size_cons (c : Char) (cs : List Char) : size w (c :: cs) = w c + size w cs := rfl

@[simp] theorem size_append (as bs : List Char) : size w (as ++ bs) = size w as + size w bs := by
  induction as with
  | nil => simp
  | cons a as ih => rw [List.cons_append, size_cons, size_cons, ih, Nat.add_assoc]

@[simp] theorem size_reverse (cs : List Char) : size w cs.reverse = size w cs := by
  induction cs with
  | nil => rfl
  | cons c cs ih =>
    rw [List.reverse_cons, size_append, size_cons, size_cons, size_nil, ih]
    omega

theorem cut_append (cs : List Char) (n : Nat) : (cut w cs n).1 ++ (cut w cs n).2 = cs := by
  induction cs generalizing n with
  | nil => rfl
  | cons c cs ih =>
    unfold cut
    split
    · simp [ih]
    · rfl

theorem size_cut_le (cs : List Char) (n : Nat) : size w (cut w cs n).1 ≤ n := by
  induction cs generalizing n with
  | nil => simp [cut]
  | cons c cs ih =>
    unfold cut
    split
    · have := ih (n - w c)
      simp only [size_cons]
      omega
    · simp

/-- An offset that ends a front part cuts the text there. -/
theorem cut_size {w : Width} (hw : ∀ c, 0 < w c) (as bs : List Char) :
    cut w (as ++ bs) (size w as) = (as, bs) := by
  induction as with
  | nil =>
    cases bs with
    | nil => rfl
    | cons b bs =>
      have := hw b
      simp only [List.nil_append, size_nil, cut]
      rw [if_neg (by omega)]
  | cons a as ih =>
    simp only [List.cons_append, size_cons, cut]
    rw [if_pos (by omega), show w a + size w as - w a = size w as by omega, ih]

/-- The offset at which a front part ends is the column at which it ends. -/
theorem columnAt_size {w : Width} (hw : ∀ c, 0 < w c) (as bs : List Char) :
    columnAt w (as ++ bs) (size w as) = as.length := by
  induction as with
  | nil => cases bs <;> simp [columnAt]
  | cons a as ih =>
    have := hw a
    simp only [List.cons_append, size_cons, columnAt, List.length_cons]
    rw [if_neg (by omega), show w a + size w as - w a = size w as by omega, ih]

theorem utf8_pos (c : Char) : 0 < utf8 c := Char.utf8Size_pos c

/-- A front part is cut off at its size in bytes. -/
theorem cut_bytes {line as bs : List Char} (h : line = as ++ bs) :
    cut utf8 line (bytes as) = (as, bs) := by
  rw [h]
  exact cut_size utf8_pos as bs

/-- A front part ends in the column of its size in bytes. -/
theorem columnAt_bytes {line as bs : List Char} (h : line = as ++ bs) :
    columnAt utf8 line (bytes as) = as.length := by
  rw [h]
  exact columnAt_size utf8_pos as bs

theorem utf16_pos (c : Char) : 0 < utf16 c := by
  unfold utf16; split <;> omega

end Emmet.Text
