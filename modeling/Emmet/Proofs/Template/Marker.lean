import Emmet.Template
import Mathlib.Data.List.TakeWhile

/-!
# Markers in a text that is rewritten

The functions on templates go over a text from the left. They copy what is no dollar sign and
decide at each dollar sign by the opener behind it. This file says what an opener reads, and what
becomes of an opener when the text is rewritten.

* `opener?_eq_some_iff` : an opener is a brace, digits and a sign;
* `CopiesText` : a function that copies what is no dollar sign;
* `KeepsDollars.opener?_eq_map` : if it puts no marker text in place of a dollar sign, it keeps
  every opener and makes no new one;
* `replaceBareAfter_of_some`, `unwrapOnceAfter_of_some` : what is written for a marker.
-/

namespace Emmet.Template

/-! ### Openers -/

/-- The sign behind the digits. -/
def Opener.sign (o : Opener) : Char := if o.colon then ':' else '\x7d'

/-- What an opener reads: the brace, the digits and the sign. -/
def Opener.head (o : Opener) : List Char := '\x7b' :: (o.digits ++ [o.sign])

/-- There are digits, and they are digits. -/
structure Opener.IsNumbered (o : Opener) : Prop where
  ne_nil : o.digits ≠ []
  isDigit : ∀ d ∈ o.digits, Text.isDigit d = true

/-- The opener with another text behind it. -/
def Opener.mapRest (g : List Char → List Char) (o : Opener) : Opener := { o with rest := g o.rest }

theorem Opener.sign_eq_or (o : Opener) : o.sign = ':' ∨ o.sign = '\x7d' := by
  unfold sign
  cases o.colon
  · exact .inr rfl
  · exact .inl rfl

theorem Opener.isDigit_sign (o : Opener) : Text.isDigit o.sign = false := by
  rcases o.sign_eq_or with h | h <;> rw [h] <;> decide

theorem takeWhile_digits {ds : List Char} {c : Char} (hds : ∀ d ∈ ds, Text.isDigit d = true)
    (hc : Text.isDigit c = false) (cs : List Char) :
    (ds ++ c :: cs).takeWhile Text.isDigit = ds := by
  rw [List.takeWhile_append_of_pos hds, List.takeWhile_cons_of_neg (by simp [hc]),
    List.append_nil]

theorem dropWhile_digits {ds : List Char} {c : Char} (hds : ∀ d ∈ ds, Text.isDigit d = true)
    (hc : Text.isDigit c = false) (cs : List Char) :
    (ds ++ c :: cs).dropWhile Text.isDigit = c :: cs := by
  rw [List.dropWhile_append_of_pos hds, List.dropWhile_cons_of_neg (by simp [hc])]

theorem opener?_head {o : Opener} (h : o.IsNumbered) : opener? (o.head ++ o.rest) = some o := by
  obtain ⟨d, ds, hds⟩ := List.exists_cons_of_ne_nil h.ne_nil
  have ht := takeWhile_digits h.isDigit o.isDigit_sign o.rest
  have hd := dropWhile_digits h.isDigit o.isDigit_sign o.rest
  rw [hds] at ht hd
  obtain ⟨digits, colon, rest⟩ := o
  obtain rfl := hds
  simp only [Opener.head, List.cons_append, List.append_assoc, List.nil_append, opener?] at ht hd ⊢
  rw [ht, hd]
  cases colon <;> simp [Opener.sign]

/-- An opener is a brace, digits and a sign. -/
theorem opener?_eq_some_iff {cs : List Char} {o : Opener} :
    opener? cs = some o ↔ o.IsNumbered ∧ cs = o.head ++ o.rest := by
  constructor
  · intro h
    unfold opener? at h
    split at h
    · next cs =>
      have hsplit := List.takeWhile_append_dropWhile (p := Text.isDigit) (l := cs)
      split at h
      · next d ds c rest ht hd =>
        split at h
        · next hc =>
          obtain rfl := Option.some.inj h
          refine ⟨⟨List.cons_ne_nil d ds, ?_⟩, ?_⟩
          · intro e he
            rw [← ht] at he
            exact List.mem_takeWhile_imp he
          · rw [ht, hd] at hsplit
            rw [← hsplit]
            rcases hc with rfl | rfl <;> simp [Opener.head, Opener.sign]
        · cases h
      · cases h
    · cases h
  · rintro ⟨h, rfl⟩
    exact opener?_head h

theorem opener?_eq_none_of_head {cs : List Char} (h : cs.head? ≠ some '\x7b') :
    opener? cs = none := by
  unfold opener?
  split
  · exact absurd rfl h
  · rfl

theorem opener?_head_append {o : Opener} (h : o.IsNumbered) (cs : List Char) :
    opener? (o.head ++ cs) = some (o.mapRest fun _ => cs) :=
  opener?_eq_some_iff.2 ⟨⟨h.ne_nil, h.isDigit⟩, rfl⟩

/-- No opener reaches over a character that is in none. -/
theorem opener?_append_cons {c : Char} (hc : ∀ o : Opener, o.IsNumbered → c ∉ o.head)
    (cs rest : List Char) :
    opener? (cs ++ c :: rest) = (opener? cs).map (Opener.mapRest (· ++ c :: rest)) := by
  ext o
  rw [Option.map_eq_some_iff, opener?_eq_some_iff]
  constructor
  · rintro ⟨hnum, ho⟩
    obtain ⟨more, hhead, hmore⟩ | ⟨more, hcs, hrest⟩ := List.append_eq_append_iff.1 ho
    · -- the head would have to read the character, or it ends right before it
      cases more with
      | nil =>
        rw [List.append_nil] at hhead
        refine ⟨{ o with rest := [] }, opener?_eq_some_iff.2 ⟨⟨hnum.1, hnum.2⟩, ?_⟩, ?_⟩
        · rw [List.append_nil]
          exact hhead.symm
        · rw [Opener.mapRest, List.nil_append, hmore]
          rfl
      | cons d more =>
        obtain ⟨rfl, -⟩ := List.cons.inj hmore
        exact absurd (hhead ▸ List.mem_append_right cs List.mem_cons_self) (hc o hnum)
    · refine ⟨{ o with rest := more }, opener?_eq_some_iff.2 ⟨⟨hnum.1, hnum.2⟩, hcs⟩, ?_⟩
      rw [Opener.mapRest, ← hrest]
  · rintro ⟨i, hi, rfl⟩
    obtain ⟨hnum, rfl⟩ := opener?_eq_some_iff.1 hi
    exact ⟨⟨hnum.1, hnum.2⟩, List.append_assoc ..⟩

/-! ### Tab stops -/

/-- A text to write over follows an opener. -/
def Opener.hasText (o : Opener) : Bool := o.colon && o.rest.head? != some '\x7d'

theorem stop?_eq_bind (cs : List Char) : stop? cs =
    (opener? cs).bind fun o => (number? o.digits).map fun n => ⟨n, o.hasText⟩ := by
  unfold stop?
  cases opener? cs <;> rfl

theorem stop?_head_append {o : Opener} (h : o.IsNumbered) (cs : List Char) :
    stop? (o.head ++ cs) =
      (number? o.digits).map fun n => ⟨n, (o.mapRest fun _ => cs).hasText⟩ := by
  rw [stop?_eq_bind, opener?_head_append h]
  rfl

theorem stop?_eq_none {cs : List Char} (h : opener? cs = none) : stop? cs = none := by
  rw [stop?_eq_bind, h, Option.bind_none]

/-! ### Whole markers -/

theorem bare?_head_append {o : Opener} (h : o.IsNumbered) (cs : List Char) :
    bare? (o.head ++ cs) = if o.colon then none else some cs := by
  unfold bare?
  rw [opener?_head_append h, Opener.mapRest]
  cases o.colon <;> rfl

theorem placeholder?_head_append {o : Opener} (h : o.IsNumbered) (cs : List Char) :
    placeholder? (o.head ++ cs) = if o.colon then body? cs else none := by
  unfold placeholder?
  rw [opener?_head_append h, Opener.mapRest]
  cases o.colon <;> rfl

theorem exists_opener_of_bare {cs rest : List Char} (h : bare? cs = some rest) :
    ∃ o : Opener, o.IsNumbered ∧ o.colon = false ∧ cs = o.head ++ rest := by
  unfold bare? at h
  split at h
  · next ho =>
    obtain rfl := Option.some.inj h
    obtain ⟨hnum, rfl⟩ := opener?_eq_some_iff.1 ho
    exact ⟨_, hnum, rfl, rfl⟩
  · cases h

theorem body?_eq_some {cs body rest : List Char} (h : body? cs = some (body, rest)) :
    cs = body ++ '\x7d' :: rest := by
  induction cs generalizing body with
  | nil => cases h
  | cons c cs ih =>
    rw [body?] at h
    split at h
    · next hc =>
      obtain ⟨rfl, rfl⟩ := Prod.mk.inj (Option.some.inj h)
      rw [hc]
      rfl
    · split at h
      · cases h
      · obtain ⟨⟨b, r⟩, hb, he⟩ := Option.map_eq_some_iff.1 h
        obtain ⟨rfl, rfl⟩ := Prod.mk.inj he
        rw [ih hb]
        rfl

theorem exists_opener_of_placeholder {cs body rest : List Char}
    (h : placeholder? cs = some (body, rest)) : ∃ o : Opener, o.IsNumbered ∧ o.colon = true ∧
      cs = o.head ++ (body ++ '\x7d' :: rest) := by
  unfold placeholder? at h
  split at h
  · next ho =>
    obtain ⟨hnum, rfl⟩ := opener?_eq_some_iff.1 ho
    exact ⟨_, hnum, rfl, by rw [← body?_eq_some h]⟩
  · cases h

/-! ### Plain characters -/

/-- A character that a function on templates copies wherever it stands. -/
def IsPlain (c : Char) : Prop := c ≠ '$' ∧ c ≠ '\\'

theorem beq_dollar : ('$' == '\\') = false := by decide

theorem IsPlain.of_isDigit {d : Char} (h : Text.isDigit d = true) : IsPlain d := by
  constructor <;> rintro rfl <;> exact absurd h (by decide)

theorem Opener.isPlain_sign (o : Opener) : IsPlain o.sign := by
  rcases o.sign_eq_or with h | h <;> rw [h] <;> constructor <;> decide

theorem Opener.IsNumbered.isPlain {o : Opener} (h : o.IsNumbered) : ∀ c ∈ o.head, IsPlain c := by
  intro c hc
  rw [Opener.head, List.mem_cons, List.mem_append, List.mem_singleton] at hc
  rcases hc with rfl | hc | rfl
  · constructor <;> decide
  · exact .of_isDigit (h.isDigit c hc)
  · exact o.isPlain_sign

theorem stopsAfter_append {p : List Char} (hp : ∀ c ∈ p, IsPlain c) (cs : List Char) :
    stopsAfter false (p ++ cs) = stopsAfter false cs := by
  induction p with
  | nil => rfl
  | cons c p ih =>
    have hc := hp c List.mem_cons_self
    rw [List.cons_append, stopsAfter, if_neg fun h => hc.1 h.1, beq_false_of_ne hc.2,
      ih fun d hd => hp d (List.mem_cons_of_mem c hd)]

/-- The tab stops of a text that starts with a marker. -/
theorem stopsAfter_head {o : Opener} (h : o.IsNumbered) (cs : List Char) :
    stopsAfter false ('$' :: (o.head ++ cs)) =
      (stop? (o.head ++ cs)).toList ++ stopsAfter false cs := by
  rw [stopsAfter, if_pos ⟨rfl, rfl⟩, stopsAfter_append h.isPlain]

/-! ### Functions that go over a text -/

/-- A function that goes over a text from the left, told whether a backslash stands before it, and
copies what is no dollar sign. -/
structure CopiesText (f : Bool → List Char → List Char) : Prop where
  nil : ∀ escaped, f escaped [] = []
  cons : ∀ escaped c cs, c ≠ '$' → f escaped (c :: cs) = c :: f (c == '\\') cs

namespace CopiesText

variable {f : Bool → List Char → List Char}

theorem plain_cons (hf : CopiesText f) {c : Char} (hc : IsPlain c) (escaped : Bool)
    (cs : List Char) : f escaped (c :: cs) = c :: f false cs := by
  rw [hf.cons escaped c cs hc.1, beq_false_of_ne hc.2]

theorem append (hf : CopiesText f) {p : List Char} (hp : ∀ c ∈ p, IsPlain c) (cs : List Char) :
    f false (p ++ cs) = p ++ f false cs := by
  induction p with
  | nil => rfl
  | cons c p ih =>
    rw [List.cons_append, hf.plain_cons (hp c List.mem_cons_self),
      ih fun d hd => hp d (List.mem_cons_of_mem c hd), List.cons_append]

theorem head_append (hf : CopiesText f) {o : Opener} (h : o.IsNumbered) (cs : List Char) :
    f false (o.head ++ cs) = o.head ++ f false cs := hf.append h.isPlain cs

end CopiesText

theorem copiesText_replaceBare (sign : List Char) : CopiesText (replaceBareAfter sign) where
  nil _ := by rw [replaceBareAfter]
  cons escaped c cs hc := by rw [replaceBareAfter, if_neg fun h => hc h.1]

theorem copiesText_unwrapOnce : CopiesText unwrapOnceAfter where
  nil _ := by rw [unwrapOnceAfter]
  cons escaped c cs hc := by rw [unwrapOnceAfter, if_neg fun h => hc h.1]

/-- A function that goes over a text and puts a dollar sign or a backslash first in place of every
dollar sign. -/
structure KeepsDollars (f : Bool → List Char → List Char) : Prop extends CopiesText f where
  dollar : ∀ escaped cs, ∃ c rest, f escaped ('$' :: cs) = c :: rest ∧ ¬ IsPlain c

namespace KeepsDollars

variable {f : Bool → List Char → List Char}

/-- What is plain at the front of the new text is at the front of the old one. -/
theorem eq_append_of_append (hf : KeepsDollars f) {p q : List Char} (hp : ∀ c ∈ p, IsPlain c)
    {cs : List Char} (h : f false cs = p ++ q) : ∃ rest, cs = p ++ rest ∧ f false rest = q := by
  induction p generalizing cs with
  | nil => exact ⟨cs, rfl, h⟩
  | cons c p ih =>
    have hc := hp c List.mem_cons_self
    cases cs with
    | nil =>
      rw [hf.nil] at h
      cases h
    | cons d cs =>
      by_cases hd : d = '$'
      · -- what is written for a dollar sign is not plain, so it is not where `p` begins
        obtain ⟨e, rest, he, hplain⟩ := hf.dollar false cs
        rw [hd, he, List.cons_append] at h
        exact absurd ((List.cons.inj h).1 ▸ hc) hplain
      · rw [hf.cons false d cs hd, List.cons_append] at h
        obtain ⟨rfl, htail⟩ := List.cons.inj h
        rw [beq_false_of_ne hc.2] at htail
        obtain ⟨rest, rfl, hrest⟩ := ih (fun e he => hp e (List.mem_cons_of_mem d he)) htail
        exact ⟨rest, rfl, hrest⟩

/-- Every opener is kept, and none is new. -/
theorem opener?_eq_map (hf : KeepsDollars f) (cs : List Char) :
    opener? (f false cs) = (opener? cs).map (Opener.mapRest (f false)) := by
  ext o
  rw [Option.map_eq_some_iff, opener?_eq_some_iff]
  constructor
  · rintro ⟨hnum, ho⟩
    obtain ⟨rest, rfl, hrest⟩ := hf.eq_append_of_append hnum.isPlain ho
    exact ⟨{ o with rest := rest }, opener?_eq_some_iff.2 ⟨⟨hnum.1, hnum.2⟩, rfl⟩,
      by rw [Opener.mapRest, hrest]⟩
  · rintro ⟨i, hi, rfl⟩
    obtain ⟨hnum, rfl⟩ := opener?_eq_some_iff.1 hi
    exact ⟨⟨hnum.1, hnum.2⟩, hf.head_append hnum i.rest⟩

/-- Every marker without text is kept, and none is new. -/
theorem bare?_eq_map (hf : KeepsDollars f) (cs : List Char) :
    bare? (f false cs) = (bare? cs).map (f false) := by
  unfold bare?
  rw [hf.opener?_eq_map]
  cases opener? cs with
  | none => rfl
  | some o =>
    obtain ⟨digits, colon, rest⟩ := o
    cases colon <;> rfl

theorem head?_eq_some_iff (hf : KeepsDollars f) {c : Char} (hc : IsPlain c) (cs : List Char) :
    (f false cs).head? = some c ↔ cs.head? = some c := by
  have hp : ∀ d ∈ [c], IsPlain d := by simpa using hc
  rw [List.head?_eq_some_iff, List.head?_eq_some_iff]
  constructor
  · rintro ⟨rest, h⟩
    obtain ⟨rest, rfl, -⟩ := hf.eq_append_of_append hp h
    exact ⟨rest, rfl⟩
  · rintro ⟨rest, rfl⟩
    exact ⟨f false rest, hf.append hp rest⟩

theorem hasText_mapRest (hf : KeepsDollars f) (o : Opener) :
    (o.mapRest (f false)).hasText = o.hasText := by
  have hbrace := hf.head?_eq_some_iff (c := '\x7d') ⟨by decide, by decide⟩ o.rest
  simp only [Opener.hasText, Opener.mapRest, bne]
  congr 2
  exact Bool.eq_iff_iff.2 (by simpa using hbrace)

/-- So every tab stop is kept, and none is new. -/
theorem stop?_eq (hf : KeepsDollars f) (cs : List Char) : stop? (f false cs) = stop? cs := by
  rw [stop?_eq_bind, stop?_eq_bind, hf.opener?_eq_map, Option.bind_map]
  congr 1
  funext o
  rw [Function.comp_apply, hf.hasText_mapRest]
  rfl

end KeepsDollars

/-! ### What is written for a marker -/

theorem replaceBareAfter_of_some {sign cs rest : List Char} (h : bare? cs = some rest) :
    replaceBareAfter sign false ('$' :: cs) = sign ++ replaceBareAfter sign false rest := by
  rw [replaceBareAfter, if_pos ⟨rfl, rfl⟩]
  split
  · next rest' h' =>
    obtain rfl := Option.some.inj (h'.symm.trans h)
    rfl
  · next h' => cases h'.symm.trans h

theorem replaceBareAfter_of_none {sign cs : List Char} (h : bare? cs = none) :
    replaceBareAfter sign false ('$' :: cs) = '$' :: replaceBareAfter sign false cs := by
  rw [replaceBareAfter, if_pos ⟨rfl, rfl⟩]
  split
  · next h' => cases h'.symm.trans h
  · rfl

theorem unwrapOnceAfter_of_some {cs body rest : List Char}
    (h : placeholder? cs = some (body, rest)) :
    unwrapOnceAfter false ('$' :: cs) = body ++ unwrapOnceAfter false rest := by
  rw [unwrapOnceAfter, if_pos ⟨rfl, rfl⟩]
  split
  · next h' =>
    obtain ⟨rfl, rfl⟩ := Prod.mk.inj (Option.some.inj (h'.symm.trans h))
    rfl
  · next h' => cases h'.symm.trans h

theorem unwrapOnceAfter_of_none {cs : List Char} (h : placeholder? cs = none) :
    unwrapOnceAfter false ('$' :: cs) = '$' :: unwrapOnceAfter false cs := by
  rw [unwrapOnceAfter, if_pos ⟨rfl, rfl⟩]
  split
  · next h' => cases h'.symm.trans h
  · rfl

end Emmet.Template
