/-!
# Blank characters and trimming

`isBlank` is the class of white space in all scripts, `isAsciiBlank` its part that separates
attributes in markup. `trim` removes blank characters at both ends.
-/

namespace Emmet.Text

/-- White space of any script. -/
def isBlank (c : Char) : Bool :=
  let n := c.toNat
  (9 ≤ n && n ≤ 13) || n == 0x20 || n == 0x85 || n == 0xA0 || n == 0x1680 ||
    (0x2000 ≤ n && n ≤ 0x200A) || n == 0x2028 || n == 0x2029 || n == 0x202F || n == 0x205F ||
    n == 0x3000

/-- A space, a tab, a line feed, a form feed or a carriage return. -/
def isAsciiBlank (c : Char) : Bool :=
  c == ' ' || c == '\t' || c == '\n' || c == '\x0c' || c == '\r'

theorem isBlank_of_isWhitespace {c : Char} (h : c.isWhitespace = true) : isBlank c = true := by
  simp only [Char.isWhitespace, Bool.or_eq_true, decide_eq_true_eq] at h
  rcases h with ((h | h) | h) | h <;> subst h <;> decide

/-- The text without the blank characters at its front. -/
def trimLeft (cs : List Char) : List Char := cs.dropWhile isBlank

/-- The text without the blank characters at its end. -/
def trimRight (cs : List Char) : List Char := (cs.reverse.dropWhile isBlank).reverse

/-- The text without the blank characters at its two ends. -/
def trim (cs : List Char) : List Char := trimRight (trimLeft cs)

theorem trimLeft_eq_nil_iff {cs : List Char} :
    trimLeft cs = [] ↔ ∀ c ∈ cs, isBlank c = true := by
  unfold trimLeft
  induction cs with
  | nil => simp
  | cons c cs ih =>
    cases hc : isBlank c with
    | true => rw [List.dropWhile_cons, if_pos hc, ih, List.forall_mem_cons, hc]; simp
    | false => simp [hc]

theorem trimRight_eq_nil_iff {cs : List Char} : trimRight cs = [] ↔ ∀ c ∈ cs, isBlank c = true := by
  rw [trimRight, List.reverse_eq_nil_iff, ← trimLeft, trimLeft_eq_nil_iff]
  simp only [List.mem_reverse]

theorem isBlank_of_mem_head?_trimLeft {cs : List Char} {c : Char}
    (h : c ∈ (trimLeft cs).head?) : isBlank c = false := by
  have hhead := List.head?_dropWhile_not isBlank cs
  rw [← trimLeft, h] at hhead
  simpa using hhead

theorem trim_eq_nil_iff {cs : List Char} : trim cs = [] ↔ ∀ c ∈ cs, isBlank c = true := by
  rw [trim, trimRight_eq_nil_iff, ← @trimLeft_eq_nil_iff cs]
  constructor
  · intro h
    cases hcs : trimLeft cs with
    | nil => rfl
    | cons c rest =>
      -- the first character that is left is not blank
      have hhead : c ∈ (trimLeft cs).head? := by rw [hcs]; rfl
      have hc := isBlank_of_mem_head?_trimLeft hhead
      rw [h c (hcs ▸ List.mem_cons_self)] at hc
      cases hc
  · intro h
    rw [h]
    nofun

theorem trimLeft_eq_self {cs : List Char} (h : ∀ c ∈ cs.head?, isBlank c = false) :
    trimLeft cs = cs := by
  cases cs with
  | nil => rfl
  | cons c cs => exact List.dropWhile_cons_of_neg (by simp [h c rfl])

theorem trim_append {blanks : List Char} (h : ∀ c ∈ blanks, isBlank c = true) (cs : List Char) :
    trim (blanks ++ cs) = trim cs := by
  rw [trim, trimLeft, List.dropWhile_append_of_pos h, ← trimLeft, ← trim]

theorem trim_trim (cs : List Char) : trim (trim cs) = trim cs := by
  have hleft : trimLeft (trim cs) = trim cs := by
    refine trimLeft_eq_self fun c hc => ?_
    -- the text starts like what is left after trimming its front
    have hsuffix : (trimLeft cs).reverse.dropWhile isBlank <:+ _ := List.dropWhile_suffix isBlank
    obtain ⟨back, hback⟩ := List.reverse_prefix.2 hsuffix
    rw [List.reverse_reverse] at hback
    refine @isBlank_of_mem_head?_trimLeft cs c ?_
    rw [← hback, List.head?_append, ← trimRight, ← trim, hc]
    rfl
  have hright (cs : List Char) : trimRight (trimRight cs) = trimRight cs := by
    unfold trimRight
    rw [List.reverse_reverse, ← trimLeft, ← trimLeft, trimLeft_eq_self fun c hc =>
      isBlank_of_mem_head?_trimLeft hc]
  rw [trim, hleft, trim, hright]

end Emmet.Text
