import Emmet.Proofs.Abbreviation.Prefix

/-!
# The plausible abbreviations of style sheets

Five rules are asked in order, and the later ones rest on what the earlier ones let through. This
file says which texts they accept, without rules and without an order: the form of a text depends on
where its first `#` stands, if it has one.

* `IsSheetText digit` : the form of abbreviations whose colors are written with some digits;
* `isSheetValid_iff` : the rules accept just these texts, with `isColorDigit`;
* `HasForeignDigit` : behind the first `#` stands a decimal digit of another script;
* `decideBy_stylesheet_valid_iff` : the rules accept the texts whose colors are written in
  hexadecimal digits, and besides them only texts with foreign digits.

Colors are meant to have hexadecimal digits. A color with a foreign digit is accepted, too
(`accepts_foreignColor`), but it is none that a style sheet could have.
-/

namespace Emmet.Abbreviation

variable {cs before digits : List Char} {digit : Char → Bool} {c : Char}

/-! ### Forms -/

/-- One to six digits of a kind. -/
structure IsColorIn (digit : Char → Bool) (digits : List Char) : Prop where
  ne_nil : digits ≠ []
  length_le : digits.length ≤ 6
  all_digit : ∀ c ∈ digits, digit c = true

/-- A text has a hyphen or none, then a character and a rest as they should be. -/
def OpensWith (accepts : Char → List Char → Prop) (cs : List Char) : Prop :=
  ∃ hyphen c rest, (hyphen = [] ∨ hyphen = ['-']) ∧ cs = hyphen ++ c :: rest ∧ accepts c rest

/-- A property with values: a letter, and word characters, dots, colons, plus signs and hyphens. -/
def IsPropertyText : List Char → Prop :=
  OpensWith fun c rest => c.isAlpha = true ∧
    ∀ d ∈ rest, Text.isWord d = true ∨ d ∈ ['.', ':', '+', '-']

/-- The form of abbreviations in style sheets, with colors that are written in some digits. -/
structure IsSheetText (digit : Char → Bool) (cs : List Char) : Prop where
  ne_nil : cs ≠ []
  colon_not_last : cs.getLast? ≠ some ':'
  /-- What starts with `#` is a color. -/
  color : ∀ digits, cs = '#' :: digits → IsColorIn digit digits
  /-- What has its first `#` further behind is a property with a color, and no selector. -/
  property : ∀ before digits, cs = before ++ '#' :: digits → '#' ∉ before → before ≠ [] →
    ¬ (2 ≤ Text.bytes before ∧ String.ofList before ∈ Tag.common) ∧ IsPropertyText before ∧
      IsColorIn digit digits
  /-- Of what has no `#`, only the start matters. -/
  start : '#' ∉ cs → OpensWith (fun c _ => c.isAlpha = true ∨ c ∈ ['!', '@', '#']) cs

/-! ### What is read behind a hyphen -/

/-- A hyphen is dropped where there is one. That is no other reading if a hyphen is not accepted
itself. -/
theorem opensWith_iff {accepts : Char → List Char → Prop} (h : ∀ rest, ¬ accepts '-' rest) :
    OpensWith accepts cs ↔ ∃ c rest, dropHyphen cs = c :: rest ∧ accepts c rest := by
  constructor
  · rintro ⟨hyphen, c, rest, rfl | rfl, rfl, hc⟩
    · refine ⟨c, rest, ?_, hc⟩
      have hne : c ≠ '-' := by
        rintro rfl
        exact h rest hc
      rw [List.nil_append]
      unfold dropHyphen
      split
      · next heq => exact absurd (List.cons.inj heq).1 hne
      · rfl
    · exact ⟨c, rest, rfl, hc⟩
  · rintro ⟨c, rest, hdrop, hc⟩
    unfold dropHyphen at hdrop
    split at hdrop
    · exact ⟨['-'], c, rest, .inr rfl, by rw [hdrop]; rfl, hc⟩
    · exact ⟨[], c, rest, .inl rfl, hdrop, hc⟩

theorem isPropertyChar_iff :
    isPropertyChar c = true ↔ Text.isWord c = true ∨ c ∈ ['.', ':', '+', '-'] := by
  rw [isPropertyChar, Bool.or_eq_true, List.contains_iff_mem]

theorem isProperty_iff : isProperty cs = true ↔ IsPropertyText cs := by
  rw [IsPropertyText, opensWith_iff fun rest h => absurd h.1 (by decide), isProperty]
  cases dropHyphen cs with
  | nil => simp
  | cons c rest => simp [isPropertyChar_iff]

/-- A `#` at the start of a property would be one of the text. -/
theorem startsProperty_iff (h : '#' ∉ cs) : startsProperty cs = true ↔
    OpensWith (fun c _ => c.isAlpha = true ∨ c ∈ ['!', '@', '#']) cs := by
  rw [opensWith_iff fun _ => by decide, startsProperty]
  cases hdrop : dropHyphen cs with
  | nil => simp
  | cons c rest =>
    have hc : c ≠ '#' := by
      rintro rfl
      exact h (mem_of_mem_dropHyphen (hdrop ▸ List.mem_cons_self))
    simp [hc, or_assoc]

theorem isColor_iff : isColor digits = true ↔ IsColorIn isColorDigit digits := by
  simp only [isColor, Bool.and_eq_true, decide_eq_true_eq, List.all_eq_true]
  constructor
  · rintro ⟨⟨hpos, hlength⟩, hall⟩
    exact ⟨List.ne_nil_of_length_pos hpos, hlength, hall⟩
  · rintro ⟨hne, hlength, hall⟩
    exact ⟨⟨List.length_pos_of_ne_nil hne, hlength⟩, hall⟩

theorem isSelector_iff : isSelector before = true ↔
    2 ≤ Text.bytes before ∧ String.ofList before ∈ Tag.common := by
  rw [isSelector, Bool.and_eq_true, decide_eq_true_eq, Tag.isCommon, List.contains_iff_mem]
  rfl

/-! ### What the rules accept -/

/-- A text has one first `#`. -/
theorem eq_of_append_hash {other rest : List Char} (hbefore : '#' ∉ before) (hother : '#' ∉ other)
    (h : before ++ '#' :: digits = other ++ '#' :: rest) : before = other ∧ digits = rest := by
  have hsplit := Text.splitOnce_append hbefore digits
  rw [h, Text.splitOnce_append hother rest] at hsplit
  obtain ⟨rfl, rfl⟩ := Prod.mk.inj (Option.some.inj hsplit)
  exact ⟨rfl, rfl⟩

/-- With a first `#`, two fields are left: what stands before it decides which. -/
theorem isSheetText_append_hash (h : '#' ∉ before)
    (hcolon : IsColorIn digit digits → (before ++ '#' :: digits).getLast? ≠ some ':') :
    IsSheetText digit (before ++ '#' :: digits) ↔ IsColorIn digit digits ∧
      (before = [] ∨ IsPropertyText before ∧
        ¬ (2 ≤ Text.bytes before ∧ String.ofList before ∈ Tag.common)) := by
  constructor
  · intro htext
    by_cases hnil : before = []
    · subst hnil
      exact ⟨htext.color digits rfl, .inl rfl⟩
    · obtain ⟨htag, hproperty, hcolor⟩ := htext.property before digits rfl h hnil
      exact ⟨hcolor, .inr ⟨hproperty, htag⟩⟩
  · rintro ⟨hcolor, hbefore⟩
    refine ⟨by simp, hcolon hcolor, fun rest hrest => ?_, fun other rest hrest hother hne => ?_,
      fun hhash => absurd (List.mem_append_right _ List.mem_cons_self) hhash⟩
    · obtain ⟨-, rfl⟩ := eq_of_append_hash h List.not_mem_nil hrest
      exact hcolor
    · obtain ⟨rfl, rfl⟩ := eq_of_append_hash h hother hrest
      obtain ⟨hproperty, htag⟩ := hbefore.resolve_left hne
      exact ⟨htag, hproperty, hcolor⟩

theorem isSheetText_of_not_mem (h : '#' ∉ cs) : IsSheetText digit cs ↔ cs.getLast? ≠ some ':' ∧
    OpensWith (fun c _ => c.isAlpha = true ∨ c ∈ ['!', '@', '#']) cs := by
  constructor
  · intro htext
    exact ⟨htext.colon_not_last, htext.start h⟩
  · rintro ⟨hcolon, hstart⟩
    refine ⟨?_, hcolon, ?_, ?_, fun _ => hstart⟩
    · rintro rfl
      obtain ⟨hyphen, c, rest, -, hnil, -⟩ := hstart
      exact List.append_ne_nil_of_right_ne_nil hyphen (List.cons_ne_nil c rest) hnil.symm
    · rintro digits rfl
      exact absurd List.mem_cons_self h
    · rintro before digits rfl
      exact absurd (List.mem_append_right _ List.mem_cons_self) h

/-- The rules accept just the texts of the form, with every digit that they take for colors. -/
theorem isSheetValid_iff : isSheetValid cs = true ↔ IsSheetText isColorDigit cs := by
  by_cases hhash : '#' ∈ cs
  · obtain ⟨before, digits, rfl, hbefore⟩ := List.eq_append_cons_of_mem hhash
    have hcolon (hcolor : IsColorIn isColorDigit digits) :
        (before ++ '#' :: digits).getLast? ≠ some ':' :=
      getLast?_ne_colon (isColor_iff.2 hcolor)
    rw [isSheetValid_append_hash hbefore, isSheetText_append_hash hbefore hcolon, ← isColor_iff,
      ← isProperty_iff, ← isSelector_iff]
    simp
  · rw [isSheetValid_of_not_mem hhash, isSheetText_of_not_mem hhash, ← startsProperty_iff hhash]
    simp

/-! ### Foreign digits -/

/-- A decimal digit of another script. -/
def IsForeignDigit (c : Char) : Prop := Text.isDigit c = true ∧ c.isDigit = false

/-- Behind the first `#` stands a decimal digit of another script. -/
def HasForeignDigit (cs : List Char) : Prop :=
  ∃ before digits, cs = before ++ '#' :: digits ∧ '#' ∉ before ∧ ∃ c ∈ digits, IsForeignDigit c

theorem isColorDigit_iff :
    isColorDigit c = true ↔ Text.isHexDigit c = true ∨ IsForeignDigit c := by
  rw [isColorDigit, Bool.or_eq_true, IsForeignDigit]
  cases hdigit : c.isDigit with
  | true => simp [Text.isHexDigit, hdigit]
  | false => simp [or_comm]

/-- Hexadecimal digits are in ASCII, where only the decimal ones are decimal digits. -/
theorem not_isForeignDigit (h : Text.isHexDigit c = true) : ¬ IsForeignDigit c := by
  rintro ⟨hdecimal, hdigit⟩
  have hascii : c.toNat < 128 := by
    rw [Text.isHexDigit, hdigit, Bool.false_or, Bool.or_eq_true, Bool.and_eq_true,
      Bool.and_eq_true] at h
    simp only [decide_eq_true_eq] at h
    rcases h with ⟨-, hle⟩ | ⟨-, hle⟩
    · exact Nat.lt_of_le_of_lt hle (by decide)
    · exact Nat.lt_of_le_of_lt hle (by decide)
  rw [Text.isDigit_of_ascii hascii, hdigit] at hdecimal
  cases hdecimal

/-- Only the digits of the color matter for the form of a text. -/
theorem IsSheetText.of_digits {other : Char → Bool} (h : IsSheetText digit cs)
    (hdigits : ∀ before digits, cs = before ++ '#' :: digits → '#' ∉ before →
      ∀ c ∈ digits, digit c = true → other c = true) : IsSheetText other cs where
  ne_nil := h.ne_nil
  colon_not_last := h.colon_not_last
  color digits hcs := by
    obtain ⟨hne, hlength, hall⟩ := h.color digits hcs
    exact ⟨hne, hlength, fun c hc => hdigits [] digits hcs List.not_mem_nil c hc (hall c hc)⟩
  property before digits hcs hbefore hne := by
    obtain ⟨htag, hproperty, hcolor, hlength, hall⟩ := h.property before digits hcs hbefore hne
    exact ⟨htag, hproperty, hcolor, hlength,
      fun c hc => hdigits before digits hcs hbefore c hc (hall c hc)⟩
  start := h.start

theorem IsSheetText.digit_of_mem (h : IsSheetText digit (before ++ '#' :: digits))
    (hbefore : '#' ∉ before) : ∀ c ∈ digits, digit c = true := by
  by_cases hnil : before = []
  · subst hnil
    exact (h.color digits rfl).all_digit
  · exact (h.property before digits rfl hbefore hnil).2.2.all_digit

/-- **The rules of style sheets accept exactly this form**, with colors in hexadecimal digits and
the decimal digits of every script. Among the accepted texts, those without a foreign digit are just
the ones whose colors are written in hexadecimal digits. -/
theorem decideBy_stylesheet_valid_iff (cs : List Char) :
    ((decideBy .stylesheet cs).valid = true ↔ IsSheetText isColorDigit cs) ∧
    (IsSheetText Text.isHexDigit cs ↔
      (decideBy .stylesheet cs).valid = true ∧ ¬ HasForeignDigit cs) := by
  have hvalid : (decideBy .stylesheet cs).valid = true ↔ IsSheetText isColorDigit cs :=
    isSheetValid_iff
  refine ⟨hvalid, ?_⟩
  rw [hvalid]
  constructor
  · intro h
    refine ⟨h.of_digits fun _ _ _ _ c _ hc => isColorDigit_iff.2 (.inl hc), ?_⟩
    rintro ⟨before, digits, rfl, hbefore, c, hc, hforeign⟩
    exact not_isForeignDigit (h.digit_of_mem hbefore c hc) hforeign
  · rintro ⟨h, hforeign⟩
    refine h.of_digits fun before digits hcs hbefore c hmem hc => ?_
    refine (isColorDigit_iff.1 hc).resolve_right fun hdigit => ?_
    exact hforeign ⟨before, digits, hcs, hbefore, c, hmem, hdigit⟩

/-- An Arabic digit passes for a digit of a color, which it is not. -/
theorem accepts_foreignColor : (decideBy .stylesheet ['#', '\u0661']).valid = true ∧
    ¬ IsSheetText Text.isHexDigit ['#', '\u0661'] := by
  refine ⟨by decide, fun h => ?_⟩
  have hdigit := (h.color ['\u0661'] rfl).all_digit '\u0661' List.mem_cons_self
  exact absurd hdigit (by decide)

/-- A selector is no property with a color, but a letter alone may be one. -/
example : ["#fff", "#header", "c#f00", "b#000", "span#f00", "-bd1-s#0a0", "m:", "--x"].map
    (fun s => (decideBy .stylesheet s.toList).valid) =
      [true, false, true, true, false, true, false, false] := by
  decide

end Emmet.Abbreviation
