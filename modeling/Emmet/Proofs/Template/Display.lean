import Emmet.Proofs.Template.Final
import Emmet.Proofs.Template.Snippet

/-!
# Renumbering is not shown

The numbers of tab stops are not shown, but a number may decide how a text is read once other
markers are gone. This file says that making a tab stop the final one changes nothing that is shown.
Only markers without text and markers with an empty one are renumbered: the first are replaced, and
then the others are the only places where the two texts differ, until the first pass takes them away.

* `SameUpToEmpty` : two texts that differ in the digits of markers with an empty text only;
* `replaceBare_renumber` : so do a text and the renumbered one when the markers without text are
  replaced;
* `SameUpToEmpty.unwrapOnce_eq` : one pass takes the differences away;
* `display_promote` : with and without the final tab stop the same is shown.
-/

namespace Emmet.Template

/-! ### Texts that differ in empty markers -/

theorem placeholder?_empty {o : Opener} (ho : o.IsNumbered) (hcolon : o.colon = true)
    (cs : List Char) : placeholder? (o.head ++ '\x7d' :: cs) = some ([], cs) := by
  rw [placeholder?_head_append ho, if_pos hcolon, body?, if_pos rfl]

/-- Two texts that differ in the digits of markers with an empty text only. The first argument says
whether a backslash stands before them. -/
inductive SameUpToEmpty : Bool → List Char → List Char → Prop where
  | nil {escaped} : SameUpToEmpty escaped [] []
  | cons {escaped c as bs} : SameUpToEmpty (c == '\\') as bs →
      SameUpToEmpty escaped (c :: as) (c :: bs)
  | empty {o p : Opener} {as bs} : o.IsNumbered → p.IsNumbered → o.colon = true →
      p.colon = true → SameUpToEmpty false as bs →
      SameUpToEmpty false ('$' :: (o.head ++ '\x7d' :: as)) ('$' :: (p.head ++ '\x7d' :: bs))

namespace SameUpToEmpty

variable {escaped : Bool} {as bs : List Char}

theorem symm (h : SameUpToEmpty escaped as bs) : SameUpToEmpty escaped bs as := by
  induction h with
  | nil => exact .nil
  | cons _ ih => exact .cons ih
  | empty ho hp hocolon hpcolon _ ih => exact .empty hp ho hpcolon hocolon ih

theorem append {p : List Char} (hp : ∀ c ∈ p, IsPlain c) (h : SameUpToEmpty false as bs) :
    SameUpToEmpty false (p ++ as) (p ++ bs) := by
  induction p with
  | nil => exact h
  | cons c p ih =>
    obtain ⟨hc, hp⟩ := List.forall_mem_cons.1 hp
    refine .cons ?_
    rw [beq_false_of_ne hc.2]
    exact ih hp

theorem exists_cons {c : Char} (hc : IsPlain c) (h : SameUpToEmpty escaped (c :: as) bs) :
    ∃ rest, bs = c :: rest ∧ SameUpToEmpty false as rest := by
  generalize hcs : c :: as = cs at h
  cases h with
  | nil => cases hcs
  | cons h =>
    obtain ⟨rfl, rfl⟩ := List.cons.inj hcs
    rw [beq_false_of_ne hc.2] at h
    exact ⟨_, rfl, h⟩
  | empty => exact absurd (List.cons.inj hcs).1 hc.1

/-- What is plain at the front of one text is at the front of the other. -/
theorem exists_append {p : List Char} (hp : ∀ c ∈ p, IsPlain c)
    (h : SameUpToEmpty false (p ++ as) bs) : ∃ rest, bs = p ++ rest ∧
      SameUpToEmpty false as rest := by
  induction p generalizing bs with
  | nil => exact ⟨bs, rfl, h⟩
  | cons c p ih =>
    obtain ⟨hc, hp⟩ := List.forall_mem_cons.1 hp
    obtain ⟨ds, rfl, hds⟩ := h.exists_cons hc
    obtain ⟨rest, rfl, hrest⟩ := ih hp hds
    exact ⟨rest, rfl, hrest⟩

theorem of_append {p : List Char} (hp : ∀ c ∈ p, IsPlain c)
    (h : SameUpToEmpty false (p ++ as) (p ++ bs)) : SameUpToEmpty false as bs := by
  obtain ⟨rest, hrest, hsame⟩ := h.exists_append hp
  rwa [List.append_cancel_left hrest]

theorem head?_eq (h : SameUpToEmpty escaped as bs) : as.head? = bs.head? := by
  cases h <;> rfl

/-! ### The next pass -/

theorem body? {body rest : List Char} (h : SameUpToEmpty escaped as bs)
    (hbody : Template.body? as = some (body, rest)) :
    ∃ rest', Template.body? bs = some (body, rest') ∧ SameUpToEmpty false rest rest' := by
  induction h generalizing body with
  | nil => cases hbody
  | @cons escaped c as bs h ih =>
    rw [Template.body?] at hbody ⊢
    rw [← h.head?_eq]
    split at hbody
    · next hc =>
      obtain ⟨rfl, rfl⟩ := Prod.mk.inj (Option.some.inj hbody)
      rw [hc] at h
      exact ⟨bs, if_pos hc, h⟩
    · next hc =>
      split at hbody
      · cases hbody
      · next hopen =>
        obtain ⟨⟨body, rest⟩, hrest, heq⟩ := Option.map_eq_some_iff.1 hbody
        obtain ⟨rfl, rfl⟩ := Prod.mk.inj heq
        obtain ⟨rest', hrest', hsame⟩ := ih hrest
        exact ⟨rest', by rw [if_neg hc, if_neg hopen, hrest']; rfl, hsame⟩
  | empty =>
    -- another marker opens here
    rw [Template.body?, if_neg (by decide), if_pos ⟨rfl, rfl⟩] at hbody
    cases hbody

/-- Where one text has a marker without markers in its text, the other has one with this text. -/
theorem placeholder? {body rest : List Char} (h : SameUpToEmpty false as bs)
    (hbody : Template.placeholder? as = some (body, rest)) :
    ∃ rest', Template.placeholder? bs = some (body, rest') ∧ SameUpToEmpty false rest rest' := by
  obtain ⟨o, ho, hcolon, rfl⟩ := exists_opener_of_placeholder hbody
  obtain ⟨bs, rfl, hsame⟩ := h.exists_append ho.isPlain
  rw [placeholder?_head_append ho, if_pos hcolon] at hbody ⊢
  exact hsame.body? hbody

theorem placeholder?_eq_none (h : SameUpToEmpty false as bs)
    (hbody : Template.placeholder? as = none) : Template.placeholder? bs = none := by
  cases hother : Template.placeholder? bs with
  | none => rfl
  | some p =>
    obtain ⟨body, rest⟩ := p
    obtain ⟨rest', hsome, -⟩ := h.symm.placeholder? hother
    rw [hbody] at hsome
    cases hsome

/-- One pass takes the differences away. -/
theorem unwrapOnce_eq (h : SameUpToEmpty escaped as bs) :
    unwrapOnceAfter escaped as = unwrapOnceAfter escaped bs := by
  fun_induction unwrapOnceAfter escaped as generalizing bs with
  | case1 escaped =>
    cases h
    rw [unwrapOnceAfter]
  | case2 escaped c cs hc body rest hbody ih =>
    obtain ⟨rfl, rfl⟩ := hc
    cases h with
    | cons h =>
      obtain ⟨rest', hbody', hrest⟩ := h.placeholder? hbody
      rw [unwrapOnceAfter_of_some hbody', ih hrest]
    | empty ho hp hocolon hpcolon h =>
      rw [placeholder?_empty ho hocolon] at hbody
      obtain ⟨rfl, rfl⟩ := Prod.mk.inj (Option.some.inj hbody)
      rw [unwrapOnceAfter_of_some (placeholder?_empty hp hpcolon _), ih h]
  | case3 escaped c cs hc hbody ih =>
    obtain ⟨rfl, rfl⟩ := hc
    cases h with
    | cons h =>
      rw [beq_dollar] at h
      rw [unwrapOnceAfter_of_none (h.placeholder?_eq_none hbody), ih h]
    | empty ho hp hocolon hpcolon h => cases hbody.symm.trans (placeholder?_empty ho hocolon _)
  | case4 escaped c cs hc ih =>
    cases h with
    | cons h => rw [unwrapOnceAfter, if_neg hc, ih h]
    | empty => exact absurd ⟨rfl, rfl⟩ hc

/-- So all passes together give the same text. -/
theorem unwrap_eq (h : SameUpToEmpty false as bs) : unwrap as = unwrap bs := by
  rw [← unwrap_unwrapOnce as, h.unwrapOnce_eq, unwrap_unwrapOnce]

end SameUpToEmpty

/-! ### The renumbered text -/

variable {n : Nat} {sign : List Char}

/-- No tab stop of a number has a text. -/
def NoText (n : Nat) (stops : List Stop) : Prop := ∀ s ∈ stops, s.number = n → s.hasText = false

theorem Opener.exists_rest_of_hasText {o : Opener} (hcolon : o.colon = true)
    (h : o.hasText = false) : ∃ rest, o.rest = '\x7d' :: rest := by
  rw [hasText, hcolon, Bool.true_and, bne_eq_false_iff_eq] at h
  exact List.head?_eq_some_iff.1 h

/-- Where no tab stop of the number has a text, renumbering changes only the digits of markers with
an empty text, once the markers without text are replaced. -/
theorem replaceBare_renumber (hsign : ∀ c ∈ sign, IsPlain c) (escaped : Bool) (cs : List Char)
    (h : NoText n (stopsAfter escaped cs)) :
    SameUpToEmpty escaped (replaceBareAfter sign escaped cs)
      (replaceBareAfter sign escaped (renumberAfter n escaped cs)) := by
  have hreplace := copiesText_replaceBare sign
  have hrenumber := keepsDollars_renumber n
  induction escaped, cs using renumber_induction (n := n) with
  | nil escaped =>
    rw [hrenumber.nil, hreplace.nil]
    exact .nil
  | head o ho hn ih =>
    rw [stopsAfter_head ho, stop?_head_append ho, hn] at h
    have htext : o.hasText = false := h ⟨n, o.hasText⟩ (List.mem_append_left _ (by
      simp [Opener.mapRest])) rfl
    have hrest := ih fun s hs => h s (List.mem_append_right _ hs)
    have hfinal : o.final.colon = o.colon := rfl
    rw [renumberAfter_head ho hn, replaceBareAfter_head ho,
      replaceBareAfter_head o.isNumbered_final, hfinal]
    cases hcolon : o.colon with
    | false => exact hrest.append hsign
    | true =>
      -- the text of the marker is empty, so a brace follows at once
      obtain ⟨rest, hbrace⟩ := Opener.exists_rest_of_hasText hcolon htext
      have hplain : IsPlain '\x7d' := by constructor <;> decide
      rw [hbrace, hrenumber.plain_cons hplain, hreplace.plain_cons hplain,
        hreplace.plain_cons hplain] at hrest ⊢
      obtain ⟨_, heq, hsame⟩ := hrest.exists_cons hplain
      obtain ⟨-, rfl⟩ := List.cons.inj heq
      exact .empty ho o.isNumbered_final hcolon (hfinal.trans hcolon) hsame
  | cons escaped c cs hc ih =>
    rw [renumberAfter_cons hc]
    rw [stopsAfter] at h
    by_cases hdollar : c = '$' ∧ escaped = false
    · rw [if_pos hdollar] at h
      obtain ⟨rfl, rfl⟩ := hdollar
      rw [beq_dollar] at ih ⊢
      have hrest := ih fun s hs => h s (List.mem_append_right _ hs)
      cases hbare : bare? cs with
      | none =>
        have hnone : bare? (renumberAfter n false cs) = none := by
          rw [hrenumber.bare?_eq_map, hbare, Option.map_none]
        rw [replaceBareAfter_of_none hbare, replaceBareAfter_of_none hnone]
        exact .cons hrest
      | some rest =>
        -- a marker of another number is replaced in both texts
        obtain ⟨o, ho, hcolon, rfl⟩ := exists_opener_of_bare hbare
        rw [hrenumber.head_append ho, hreplace.head_append ho, hreplace.head_append ho] at hrest
        rw [hrenumber.head_append ho, replaceBareAfter_head ho, replaceBareAfter_head ho, hcolon]
        exact (hrest.of_append ho.isPlain).append hsign
    · rw [if_neg hdollar] at h
      rw [replaceBareAfter, if_neg hdollar, replaceBareAfter, if_neg hdollar]
      exact .cons (ih h)

/-! ### What is shown -/

/-- What is shown of a text is shown of the text with the final tab stop, whatever stands for
markers without text. -/
theorem unwrap_replaceBare_promote (hsign : ∀ c ∈ sign, IsPlain c) (cs : List Char) :
    unwrap (replaceBareAfter sign false (promoteChars cs)) =
      unwrap (replaceBareAfter sign false cs) := by
  rw [promoteChars_eq_elim]
  cases hfinal : finalNumber? (stopsAfter false cs) with
  | none => rfl
  | some n =>
    have hnotext : NoText n (stopsAfter false cs) := fun s hs =>
      ((finalNumber?_eq_some_iff.1 hfinal).2 s hs).2.2
    exact (replaceBare_renumber hsign false cs hnotext).symm.unwrap_eq

/-- **Making tab stops the final one does not change what is displayed,** whatever the text: neither
the text without its markers nor the preview. -/
theorem display_promote (text : String) :
    plainText (promote text) = plainText text ∧ preview (promote text) = preview text := by
  have hcursor : ∀ c ∈ cursorSign, IsPlain c := by
    intro c hc
    obtain rfl := List.mem_singleton.1 hc
    constructor <;> decide
  have hnone : ∀ c ∈ ([] : List Char), IsPlain c := fun c hc => absurd hc List.not_mem_nil
  constructor
  · rw [plainText, plainText, promote, String.toList_ofList, unwrap_replaceBare_promote hnone]
  · rw [preview, preview, promote, String.toList_ofList, unwrap_replaceBare_promote hcursor]

end Emmet.Template
