import Emmet.Text.Lower
import Mathlib.Data.List.Chain

/-!
# Characters in lower case

Lower-casing maps a text character by character, apart from the capital sigma. What it gives is kept
when it is lower-cased again, and it is kept at the front of a longer text, too.

* `lowerRow?_of_unmapped` : what a row of the table maps to is mapped by no row;
* `isLower_of_mem_lower` : a lower-cased text has only characters in lower case;
* `lowerAfter_append` : characters in lower case stay as they are at the front of a text;
* `lower_eq_self` : a text of such characters is kept.
-/

namespace Emmet.Text

/-- A character that lower-casing keeps. -/
def IsLower (c : Char) : Prop := lowerChar c = [c]

instance (c : Char) : Decidable (IsLower c) := inferInstanceAs (Decidable (_ = _))

/-! ### Rows of the table -/

/-- No row maps a character from `lo` to `hi`. If only every other one of them counts, from `lo` on,
rows with just the characters in between may overlap. The rows ascend. -/
def unmapped (lo hi : Nat) (sparse : Bool) : List (Nat × Nat × Nat × Nat) → Bool
  | [] => true
  | (first, last, step, _) :: rows =>
    bif Nat.blt last lo then unmapped lo hi sparse rows
    else Nat.blt hi first ||
      (sparse && Nat.beq step 2 && Nat.beq ((lo + first) % 2) 1 && unmapped lo hi sparse rows)

theorem lowerRow?_of_unmapped {lo hi n : Nat} {sparse : Bool}
    {rows : List (Nat × Nat × Nat × Nat)} (hrows : rows.Pairwise fun r s => r.1 ≤ s.1)
    (h : unmapped lo hi sparse rows = true) (hlo : lo ≤ n) (hhi : n ≤ hi)
    (hsparse : sparse = true → (n - lo) % 2 = 0) : ∀ r ∈ rows, lowerRow? n r = none := by
  induction rows with
  | nil => nofun
  | cons r rows ih =>
    obtain ⟨first, last, step, image⟩ := r
    obtain ⟨hr, htail⟩ := List.pairwise_cons.1 hrows
    rw [unmapped] at h
    cases hlast : Nat.blt last lo with
    | true =>
      rw [hlast, cond_true] at h
      rw [Nat.blt_eq] at hlast
      exact List.forall_mem_cons.2 ⟨if_neg (by omega), ih htail h⟩
    | false =>
      rw [hlast, cond_false, Bool.or_eq_true, Nat.blt_eq] at h
      rcases h with hfirst | h
      · -- the rows behind this one start later still
        refine List.forall_mem_cons.2 ⟨if_neg (by omega), fun s hs => ?_⟩
        have hs := hr s hs
        exact if_neg (by omega)
      · simp only [Bool.and_eq_true, Nat.beq_eq] at h
        obtain ⟨⟨⟨hflag, rfl⟩, hodd⟩, h⟩ := h
        have heven := hsparse hflag
        exact List.forall_mem_cons.2 ⟨if_neg (by omega), ih htail h⟩

/-- What a row maps to: no surrogates, letters in lower case in ASCII, not the dotted capital I, and
nothing that a row maps. -/
def rowProper : Nat × Nat × Nat × Nat → Bool
  | (first, last, step, lo) =>
    let hi := lo + (last - first)
    (Nat.blt hi 0xD800 || (Nat.blt 0xDFFF lo && Nat.blt hi 0x110000)) &&
      (Nat.ble 128 lo || (Nat.ble 97 lo && Nat.ble hi 122)) &&
      (Nat.blt 0x130 lo || Nat.blt hi 0x130) &&
      unmapped lo hi (Nat.beq step 2 || Nat.beq first last) lowerTable

theorem rowProper_lowerTable : lowerTable.all rowProper = true := by
  decide +kernel

theorem ascending_lowerTable : lowerTable.Pairwise fun r s => r.1 ≤ s.1 := by
  rw [← List.isChain_iff_pairwise]
  decide +kernel

/-! ### Characters -/

/-- A character that no row maps is in lower case, if it is no capital of ASCII. -/
theorem isLower_of_lowerRow? {c : Char} (hascii : c.toNat < 128 → c.toLower = c)
    (hdotted : c.toNat ≠ 0x130) (h : ∀ r ∈ lowerTable, lowerRow? c.toNat r = none) : IsLower c := by
  unfold IsLower lowerChar
  split
  · next hc => rw [hascii hc]
  · rw [List.findSome?_eq_none_iff.2 h]

theorem toLower_eq_self : ∀ n < 128, 97 ≤ n → (Char.ofNat n).toLower = Char.ofNat n := by
  decide

/-- The images of a row are in lower case. -/
theorem isLower_of_row {n m : Nat} {r : Nat × Nat × Nat × Nat} (hr : r ∈ lowerTable)
    (h : lowerRow? n r = some m) : IsLower (Char.ofNat m) := by
  have hproper := List.all_eq_true.1 rowProper_lowerTable r hr
  obtain ⟨first, last, step, lo⟩ := r
  simp only [rowProper, Bool.and_eq_true, Bool.or_eq_true, Nat.blt_eq, Nat.ble_eq] at hproper
  obtain ⟨⟨⟨hvalid, hascii⟩, hdotted⟩, hunmapped⟩ := hproper
  simp only [lowerRow?] at h
  split at h
  · next hcovers =>
    obtain rfl := Option.some.inj h
    obtain ⟨hfirst, hlast, hstep⟩ := hcovers
    have hnat : (Char.ofNat (lo + (n - first))).toNat = lo + (n - first) := by
      rw [Char.ofNat, dif_pos (by unfold Nat.isValidChar; omega)]
      rfl
    refine isLower_of_lowerRow? (fun hc => ?_) (by omega) ?_
    · exact toLower_eq_self _ (by omega) (by omega)
    · rw [hnat]
      refine lowerRow?_of_unmapped ascending_lowerTable hunmapped (by omega) (by omega) ?_
      intro hsparse
      rw [Bool.or_eq_true, Nat.beq_eq, Nat.beq_eq] at hsparse
      rcases hsparse with rfl | rfl
      · omega
      · omega
  · cases h

theorem isLower_toLower_ofNat : ∀ n < 128, IsLower (Char.ofNat n).toLower := by
  decide

theorem isLower_of_mem_lowerChar {c d : Char} (h : d ∈ lowerChar c) : IsLower d := by
  unfold lowerChar at h
  split at h
  · next hascii =>
    obtain rfl := List.mem_singleton.1 h
    rw [← Char.ofNat_toNat c]
    exact isLower_toLower_ofNat _ hascii
  · next hascii =>
    split at h
    · have hboth : IsLower 'i' ∧ IsLower '\u0307' := by decide
      rcases List.mem_pair.1 h with rfl | rfl
      · exact hboth.1
      · exact hboth.2
    · next hdotted =>
      split at h
      · next n hn =>
        obtain ⟨r, hr, hrow⟩ := List.exists_of_findSome?_eq_some hn
        obtain rfl := List.mem_singleton.1 h
        exact isLower_of_row hr hrow
      · next hnone =>
        obtain rfl := List.mem_singleton.1 h
        exact isLower_of_lowerRow? (fun hc => absurd hc hascii) hdotted
          (List.findSome?_eq_none_iff.1 hnone)

theorem IsLower.ne_sigma {c : Char} (h : IsLower c) : c ≠ '\u03a3' := by
  rintro rfl
  revert h
  decide

theorem lowerChar_ne_nil (c : Char) : lowerChar c ≠ [] := by
  unfold lowerChar
  split
  · exact List.cons_ne_nil _ _
  split
  · exact List.cons_ne_nil _ _
  split <;> exact List.cons_ne_nil _ _

/-! ### Texts -/

variable {before cs : List Char} {c d : Char}

theorem lowerAfter_cons_of_isLower (h : IsLower c) (before cs : List Char) :
    lowerAfter before (c :: cs) = c :: lowerAfter (c :: before) cs := by
  rw [lowerAfter, if_neg h.ne_sigma]
  exact congrArg (· ++ lowerAfter (c :: before) cs) h

theorem isLower_of_mem_lowerAfter (h : d ∈ lowerAfter before cs) : IsLower d := by
  induction cs generalizing before with
  | nil => cases h
  | cons c cs ih =>
    rw [lowerAfter, List.mem_append] at h
    rcases h with h | h
    · split at h
      · -- both forms of the small sigma are in lower case
        split at h
        · obtain rfl := List.mem_singleton.1 h
          decide
        · obtain rfl := List.mem_singleton.1 h
          decide
      · exact isLower_of_mem_lowerChar h
    · exact ih h

/-- A lower-cased text has only characters in lower case. -/
theorem isLower_of_mem_lower (h : d ∈ lower cs) : IsLower d := isLower_of_mem_lowerAfter h

/-- Characters in lower case stay as they are at the front of a text. -/
theorem lowerAfter_append (h : ∀ c ∈ cs, IsLower c) (before rest : List Char) :
    lowerAfter before (cs ++ rest) = cs ++ lowerAfter (cs.reverse ++ before) rest := by
  induction cs generalizing before with
  | nil => rfl
  | cons c cs ih =>
    obtain ⟨hc, hcs⟩ := List.forall_mem_cons.1 h
    rw [List.cons_append, lowerAfter_cons_of_isLower hc, ih hcs, List.reverse_cons,
      List.append_assoc]
    rfl

theorem lowerAfter_eq_nil_iff : lowerAfter before cs = [] ↔ cs = [] := by
  cases cs with
  | nil => exact iff_of_true rfl rfl
  | cons c cs =>
    refine iff_of_false (fun h => ?_) (List.cons_ne_nil c cs)
    rw [lowerAfter, List.append_eq_nil_iff] at h
    have hhere := h.1
    split at hhere
    · split at hhere
      · cases hhere
      · cases hhere
    · exact lowerChar_ne_nil c hhere

/-- A text in lower case is kept. -/
theorem lower_eq_self (h : ∀ c ∈ cs, IsLower c) : lower cs = cs := by
  have happend := lowerAfter_append h [] []
  rwa [List.append_nil, lowerAfter_eq_nil_iff.2 rfl, List.append_nil] at happend

end Emmet.Text
