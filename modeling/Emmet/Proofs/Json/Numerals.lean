import Mathlib.Data.List.Basic
import Emmet.Json.Number
import Emmet.Proofs.Fallible

/-!
# Written numbers

The whole number that a text names fits into 64 bits, with a sign or without; and a whole number
that fits is read back from the decimal digits that it is written with, whatever mark follows them.

* `InRange`, `inRange_of_value?` : the whole numbers that a text can name;
* `Follows` : what can stand behind a value;
* `Number.Local`, `Number.local_parts` : a number that ends with a text ends before a mark as well;
* `IsNumeral`, `isNumeral_toString` : a text names a value, and every whole number in range is named
  by its decimal digits.
-/

namespace Emmet.Json

/-- A whole number fits into 64 bits, with a sign or without. -/
def InRange : Json → Prop
  | .integer n => -(UInt64.size / 2 : Nat) ≤ n ∧ n < UInt64.size
  | _ => True

/-- What can stand behind a value: nothing, or a comma or a closing mark. -/
def Follows (rest : List Char) : Prop := ∀ c ∈ rest.head?, c ∈ [',', ']', '\x7d']

namespace Number

/-! ### Whole numbers that are read -/

theorem accumulate_le {n : Nat} (h : n ≤ maxWord) (ds : List Nat) :
    (accumulate n ds).1 ≤ maxWord := by
  induction ds generalizing n with
  | nil => exact h
  | cons d ds ih =>
    rw [accumulate]
    split
    · next hd => exact ih hd
    · exact h

theorem inRange_of_value? {p : Parts} {v : Json} (h : value? p = some v) : v.InRange := by
  have hle : (accumulate 0 p.whole).1 ≤ maxWord := accumulate_le (Nat.zero_le _) p.whole
  have hsize : maxWord < UInt64.size := by decide
  unfold value? at h
  simp only at h
  -- a whole number with its sign, or a float
  split at h
  · split at h
    · obtain rfl := Option.some.inj h
      simp only [InRange]
      omega
    · split at h
      · obtain rfl := Option.some.inj h
        trivial
      · next hneg =>
        obtain rfl := Option.some.inj h
        simp only [InRange]
        omega
  · obtain ⟨x, -, rfl⟩ := Option.map_eq_some_iff.1 h
    trivial

/-! ### The end of a number -/

/-- A part of a number is read in the same way before what can stand behind a value. -/
def Local {α : Type} (r : List Char → Except Fault (α × List Char)) : Prop :=
  ∀ cs x left rest, Follows rest → r cs = .ok (x, left) → r (cs ++ rest) = .ok (x, left ++ rest)

variable {rest : List Char}

theorem asciiValue?_of_mark {c : Char} (h : c ∈ [',', ']', '\x7d']) :
    Text.asciiValue? c = none := by
  have hmarks : [',', ']', '\x7d'].all (Text.asciiValue? · == none) = true := by decide
  exact beq_iff_eq.1 (List.all_eq_true.1 hmarks c h)

theorem digits_of_follows (h : Follows rest) : digits rest = ([], rest) := by
  cases rest with
  | nil => rfl
  | cons c rest => rw [digits, asciiValue?_of_mark (h c rfl)]

theorem digits_append (cs : List Char) (h : Follows rest) :
    digits (cs ++ rest) = ((digits cs).1, (digits cs).2 ++ rest) := by
  induction cs with
  | nil => exact digits_of_follows h
  | cons c cs ih =>
    rw [List.cons_append, digits, digits, ih]
    split <;> rfl

theorem someDigits_of_ne_nil {cs : List Char} (h : (digits cs).1 ≠ []) :
    someDigits cs = .ok (digits cs) := by
  unfold someDigits
  split
  · next heq => exact absurd (congrArg Prod.fst heq) h
  · next heq => exact absurd (congrArg Prod.fst heq) h
  · rfl

theorem of_someDigits {cs left : List Char} {ds : List Nat} (h : someDigits cs = .ok (ds, left)) :
    digits cs = (ds, left) ∧ ds ≠ [] := by
  by_cases hne : (digits cs).1 = []
  · have hpair : digits cs = ([], (digits cs).2) := Prod.ext hne rfl
    unfold someDigits at h
    rw [hpair] at h
    cases cs with
    | nil => cases h
    | cons c cs => cases h
  · rw [someDigits_of_ne_nil hne] at h
    have hx := Except.ok.inj h
    rw [hx] at hne
    exact ⟨hx, hne⟩

theorem local_someDigits : Local someDigits := by
  intro cs ds left rest hrest h
  obtain ⟨hdigits, hne⟩ := of_someDigits h
  have happend := digits_append cs hrest
  rw [hdigits] at happend
  rw [someDigits_of_ne_nil (by rw [happend]; exact hne), happend]

theorem wholePart_eq_ok_iff {cs : List Char} {ds : List Nat} {left : List Char} :
    wholePart cs = .ok (ds, left) ↔
      someDigits cs = .ok (ds, left) ∧ ∀ d es, ds ≠ 0 :: d :: es := by
  unfold wholePart
  split
  · next heq =>
    refine ⟨nofun, fun ⟨h, hzero⟩ => ?_⟩
    rw [heq] at h
    cases h
    exact absurd rfl (hzero _ _)
  · next hzero =>
    refine ⟨fun h => ⟨h, ?_⟩, And.left⟩
    rintro d es rfl
    exact hzero d es left h

theorem local_wholePart : Local wholePart := by
  intro cs ds left rest hrest h
  obtain ⟨hdigits, hzero⟩ := wholePart_eq_ok_iff.1 h
  exact wholePart_eq_ok_iff.2 ⟨local_someDigits _ _ _ _ hrest hdigits, hzero⟩

theorem Local.map {α β : Type} {r : List Char → Except Fault (α × List Char)} (h : Local r)
    (f : α → β) : Local fun cs => (r cs).map fun p => (f p.1, p.2) := by
  intro cs y left rest hrest hy
  obtain ⟨⟨x, after⟩, hx, hy⟩ := exists_of_map hy
  cases hy
  dsimp only
  rw [h cs x after rest hrest hx]
  rfl

theorem fractionPart_of_follows (h : Follows rest) : fractionPart rest = .ok (none, rest) := by
  unfold fractionPart
  split
  · exact absurd (h '.' rfl) (by decide)
  · rfl

theorem local_fractionPart : Local fractionPart := by
  intro cs x left rest hrest h
  unfold fractionPart at h
  split at h
  · exact (local_someDigits.map some) _ _ _ _ hrest h
  · next hpoint =>
    cases h
    cases cs with
    | nil => exact fractionPart_of_follows hrest
    | cons c cs =>
      rw [List.cons_append, fractionPart]
      rintro ds h
      cases h
      exact hpoint cs rfl

theorem exponentPart_of_follows (h : Follows rest) : exponentPart rest = .ok (none, rest) := by
  unfold exponentPart
  split
  · rfl
  · next c rest =>
    rw [if_neg]
    rintro (rfl | rfl)
    · exact absurd (h 'e' rfl) (by decide)
    · exact absurd (h 'E' rfl) (by decide)

theorem local_exponentPart : Local exponentPart := by
  intro cs x left rest hrest h
  unfold exponentPart at h
  split at h
  · cases h
    exact exponentPart_of_follows hrest
  · next c cs =>
    split at h
    · next hc =>
      -- a minus, a plus, or the digits at once
      split at h
      · have hdigits := (local_someDigits.map fun ds => some (true, ds)) _ _ _ _ hrest h
        simpa only [List.cons_append, exponentPart, if_pos hc] using hdigits
      · have hdigits := (local_someDigits.map fun ds => some (false, ds)) _ _ _ _ hrest h
        simpa only [List.cons_append, exponentPart, if_pos hc] using hdigits
      · next hminus hplus =>
        have hdigits := (local_someDigits.map fun ds => some (false, ds)) _ _ _ _ hrest h
        cases cs with
        | nil => cases h
        | cons d cs =>
          rw [List.cons_append, List.cons_append, exponentPart, if_pos hc]
          · exact hdigits
          · rintro ds hds
            cases hds
            exact hminus cs rfl
          · rintro ds hds
            cases hds
            exact hplus cs rfl
    · next hc =>
      cases h
      rw [List.cons_append]
      unfold exponentPart
      exact if_neg hc

/-- The parts of a number behind its sign. -/
def unsignedParts (negative : Bool) (cs : List Char) : Except Fault (Parts × List Char) := do
  let (whole, cs) ← wholePart cs
  let (fraction, cs) ← fractionPart cs
  let (exponent, cs) ← exponentPart cs
  return (⟨negative, whole, fraction, exponent⟩, cs)

theorem parts_minus (cs : List Char) : parts ('-' :: cs) = unsignedParts true cs := rfl

theorem parts_of_ne_minus {c : Char} (h : c ≠ '-') (cs : List Char) :
    parts (c :: cs) = unsignedParts false (c :: cs) := by
  unfold parts
  split
  · next heq =>
    split at heq
    · next h' => cases h'; exact absurd rfl h
    · cases heq; rfl

theorem local_unsignedParts (negative : Bool) : Local (unsignedParts negative) := by
  intro cs p left rest hrest h
  obtain ⟨⟨whole, cs₁⟩, hwhole, h⟩ := exists_of_bind h
  obtain ⟨⟨fraction, cs₂⟩, hfraction, h⟩ := exists_of_bind h
  obtain ⟨⟨exponent, cs₃⟩, hexponent, h⟩ := exists_of_bind h
  cases h
  rw [unsignedParts, local_wholePart _ _ _ _ hrest hwhole]
  simp only [Bind.bind, Except.bind, local_fractionPart _ _ _ _ hrest hfraction,
    local_exponentPart _ _ _ _ hrest hexponent]
  rfl

theorem local_parts : Local parts := by
  intro cs p left rest hrest h
  cases cs with
  | nil => cases h
  | cons c cs =>
    by_cases hc : c = '-'
    · subst hc
      exact local_unsignedParts true _ _ _ _ hrest h
    · rw [parts_of_ne_minus hc] at h
      rw [List.cons_append, parts_of_ne_minus hc]
      exact local_unsignedParts false _ _ _ _ hrest h

/-- A number starts with a minus or with a digit. -/
theorem head_of_parts {cs left : List Char} {p : Parts} (h : parts cs = .ok (p, left)) :
    ∃ c ds, cs = c :: ds ∧ (c = '-' ∨ c.isDigit = true) := by
  cases cs with
  | nil => cases h
  | cons c cs =>
    refine ⟨c, cs, rfl, or_iff_not_imp_left.2 fun hc => ?_⟩
    rw [parts_of_ne_minus hc] at h
    obtain ⟨⟨whole, cs₁⟩, hwhole, h⟩ := exists_of_bind h
    obtain ⟨hdigits, hne⟩ := of_someDigits (wholePart_eq_ok_iff.1 hwhole).1
    by_contra hdigit
    have hvalue : Text.asciiValue? c = none := if_neg hdigit
    rw [digits, hvalue] at hdigits
    cases hdigits
    exact hne rfl

/-! ### Whole numbers that are written -/

/-- The values of decimal digits. -/
def digitValues (cs : List Char) : List Nat := cs.map fun c => c.toNat - '0'.toNat

theorem digits_eq_digitValues {cs : List Char} (h : ∀ c ∈ cs, c.isDigit = true) :
    digits cs = (digitValues cs, []) := by
  induction cs with
  | nil => rfl
  | cons c cs ih =>
    obtain ⟨hc, hcs⟩ := List.forall_mem_cons.1 h
    have hvalue : Text.asciiValue? c = some (c.toNat - '0'.toNat) := if_pos hc
    rw [digits, hvalue, ih hcs]
    rfl

theorem le_ofDigitChars (cs : List Char) (n : Nat) : n ≤ Nat.ofDigitChars 10 cs n := by
  induction cs generalizing n with
  | nil => exact Nat.le_refl n
  | cons c cs ih =>
    rw [Nat.ofDigitChars_cons]
    exact Nat.le_trans (by omega) (ih _)

theorem accumulate_digitValues {cs : List Char} {n : Nat}
    (h : Nat.ofDigitChars 10 cs n ≤ maxWord) :
    accumulate n (digitValues cs) = (Nat.ofDigitChars 10 cs n, []) := by
  induction cs generalizing n with
  | nil => rfl
  | cons c cs ih =>
    rw [Nat.ofDigitChars_cons] at h ⊢
    have hle := Nat.le_trans (le_ofDigitChars cs _) h
    rw [digitValues, List.map_cons, accumulate, if_pos hle]
    exact ih h

/-- The first digit of a positive number is not zero. -/
theorem head_digitValues_toDigits {n : Nat} (hn : 0 < n) :
    ∃ d ds, digitValues (Nat.toDigits 10 n) = d :: ds ∧ d ≠ 0 := by
  induction n using Nat.strongRecOn with
  | ind n ih =>
    by_cases hlt : n < 10
    · refine ⟨n, [], ?_, Nat.ne_of_gt hn⟩
      rw [Nat.toDigits_of_lt_base hlt, digitValues, List.map_singleton,
        Nat.toNat_digitChar_of_lt_ten hlt]
      simp
    · obtain ⟨d, ds, hds, hd⟩ := ih (n / 10) (Nat.div_lt_self hn (by decide)) (by omega)
      rw [Nat.toDigits_of_base_le (by decide) (by omega)]
      refine ⟨d, ds ++ digitValues [(n % 10).digitChar], ?_, hd⟩
      rw [digitValues, List.map_append, ← digitValues, hds]
      rfl

theorem wholePart_toDigits (n : Nat) :
    wholePart (Nat.toDigits 10 n) = .ok (digitValues (Nat.toDigits 10 n), []) := by
  have hdigits : digits (Nat.toDigits 10 n) = (digitValues (Nat.toDigits 10 n), []) :=
    digits_eq_digitValues fun c hc => Nat.isDigit_of_mem_toDigits (by decide) (by decide) hc
  have hne : digitValues (Nat.toDigits 10 n) ≠ [] := by
    rw [digitValues, Ne, List.map_eq_nil_iff]
    exact Nat.toDigits_ne_nil
  refine wholePart_eq_ok_iff.2 ⟨?_, fun d es hzero => ?_⟩
  · rw [someDigits_of_ne_nil (by rw [hdigits]; exact hne), hdigits]
  · obtain rfl | hn := Nat.eq_zero_or_pos n
    · rw [Nat.toDigits_of_lt_base (by decide)] at hzero
      cases hzero
    · obtain ⟨d, ds, hds, hd⟩ := head_digitValues_toDigits hn
      rw [hds] at hzero
      exact hd (List.cons.inj hzero).1

theorem accumulate_toDigits {n : Nat} (h : n ≤ maxWord) :
    accumulate 0 (digitValues (Nat.toDigits 10 n)) = (n, []) := by
  have hvalue : Nat.ofDigitChars 10 (Nat.toDigits 10 n) 0 = n := Nat.ofDigitChars_ten_toDigits
  have hle : Nat.ofDigitChars 10 (Nat.toDigits 10 n) 0 ≤ maxWord := by rwa [hvalue]
  rw [accumulate_digitValues hle, hvalue]

theorem unsignedParts_toDigits (negative : Bool) (n : Nat) :
    unsignedParts negative (Nat.toDigits 10 n) =
      .ok (⟨negative, digitValues (Nat.toDigits 10 n), none, none⟩, []) := by
  rw [unsignedParts, wholePart_toDigits]
  rfl

end Number

/-- A text names a number. -/
def IsNumeral (text : String) (v : Json) : Prop :=
  ∃ p, Number.parts text.toList = .ok (p, []) ∧ Number.value? p = some v

theorem isNumeral_ofNat {n : Nat} (h : n ≤ Number.maxWord) :
    IsNumeral (toString (n : Int)) (.integer n) := by
  refine ⟨⟨false, Number.digitValues (Nat.toDigits 10 n), none, none⟩, ?_, ?_⟩
  · have htext : (toString (n : Int)).toList = Nat.toDigits 10 n := Nat.toList_repr
    rw [htext, ← Number.unsignedParts_toDigits]
    cases hcs : Nat.toDigits 10 n with
    | nil => exact absurd hcs Nat.toDigits_ne_nil
    | cons c cs =>
      refine Number.parts_of_ne_minus ?_ cs
      rintro rfl
      have hmem : '-' ∈ Nat.toDigits 10 n := by rw [hcs]; exact List.mem_cons_self
      exact absurd (Nat.isDigit_of_mem_toDigits (by decide) (by decide) hmem) (by decide)
  · simp only [Number.value?, Number.accumulate_toDigits h]
    rfl

theorem isNumeral_neg {n : Nat} (hpos : 0 < n) (h : n ≤ UInt64.size / 2) :
    IsNumeral (toString (-n : Int)) (.integer (-n)) := by
  have hword : n ≤ Number.maxWord := Nat.le_trans h (by decide)
  refine ⟨⟨true, Number.digitValues (Nat.toDigits 10 n), none, none⟩, ?_, ?_⟩
  · obtain ⟨n, rfl⟩ := Nat.exists_eq_succ_of_ne_zero (Nat.ne_zero_of_lt hpos)
    have htext : (toString (-(n + 1 : Nat) : Int)).toList = '-' :: Nat.toDigits 10 (n + 1) := by
      change ("-" ++ (n + 1).repr).toList = _
      rw [String.toList_append, Nat.toList_repr]
      rfl
    rw [htext, Number.parts_minus, Number.unsignedParts_toDigits]
  · simp only [Number.value?, Number.accumulate_toDigits hword]
    have hsmall : ¬ (n = 0 ∨ UInt64.size / 2 < n) := by omega
    simp [hsmall]

/-- A whole number that fits into 64 bits is named by its decimal digits. -/
theorem isNumeral_toString {n : Int} (h : (Json.integer n).InRange) :
    IsNumeral (toString n) (.integer n) := by
  obtain ⟨hlow, hhigh⟩ := h
  have hword : UInt64.size = Number.maxWord + 1 := by decide
  obtain ⟨m, rfl | rfl⟩ := Int.eq_nat_or_neg n
  · exact isNumeral_ofNat (by omega)
  · obtain rfl | hm := Nat.eq_zero_or_pos m
    · exact isNumeral_ofNat (Nat.zero_le _)
    · exact isNumeral_neg hm (by omega)

end Emmet.Json
