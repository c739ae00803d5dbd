import Emmet.Proofs.Template.Final
import Emmet.Proofs.Template.Residue
import Mathlib.Data.List.Basic

/-!
# Which digits become the final tab stop

A text holds openers of markers, and those with the highest number are renumbered. To say what that
does to the text, the text is cut at its openers: `Marked` is a text with all of its openers marked,
and it can be written with other digits in them.

* `Opens` : an opener that no backslash stands before is read in a text;
* `openers` : all of them in order, `mem_openers_iff` says that it is just those;
* `number?_eq_some` : the number of an opener is its decimal value, if that has 64 bits;
* `Marked.exists_text_eq` : every text can be cut at its openers;
* `promote_eq_renumber` : just the digits of the highest openers are replaced, or nothing is.
-/

namespace Emmet.Template

/-! ### The openers of a text -/

/-- An opener that no backslash stands before is read in a text. -/
def Opens (text : List Char) (o : Opener) : Prop :=
  o.IsNumbered ∧ ∃ before, text = before ++ '$' :: (o.head ++ o.rest) ∧
    before.getLast? ≠ some '\\'

/-- The openers of a text, in order, where the first argument says whether a backslash stands before
the text. -/
def openersAfter : Bool → List Char → List Opener
  | _, [] => []
  | escaped, c :: cs =>
    if c = '$' ∧ escaped = false then (opener? cs).toList ++ openersAfter false cs
    else openersAfter (c == '\\') cs

/-- The openers of a text, in order. -/
def openers (text : List Char) : List Opener := openersAfter false text

variable {escaped : Bool} {c : Char} {cs : List Char} {o : Opener}

theorem openersAfter_dollar (cs : List Char) :
    openersAfter false ('$' :: cs) = (opener? cs).toList ++ openersAfter false cs := by
  rw [openersAfter, if_pos ⟨rfl, rfl⟩]

theorem openersAfter_cons (h : ¬(c = '$' ∧ escaped = false)) :
    openersAfter escaped (c :: cs) = openersAfter (c == '\\') cs := by
  rw [openersAfter, if_neg h]

theorem mem_openersAfter_iff :
    o ∈ openersAfter escaped cs ↔ o.IsNumbered ∧ FreeDollar escaped cs (o.head ++ o.rest) := by
  induction cs generalizing escaped with
  | nil =>
    refine iff_of_false List.not_mem_nil ?_
    rintro ⟨-, h⟩
    cases h
  | cons c cs ih =>
    by_cases hc : c = '$' ∧ escaped = false
    · obtain ⟨rfl, rfl⟩ := hc
      rw [openersAfter_dollar, List.mem_append, Option.mem_toList, opener?_eq_some_iff, ih,
        ← and_or_left]
      refine and_congr_right fun _ => ?_
      constructor
      · rintro (rfl | h)
        · exact .here
        · exact .there h
      · intro h
        cases h with
        | here => exact .inl rfl
        | there h => exact .inr h
    · rw [openersAfter_cons hc, ih]
      refine and_congr_right fun _ => ⟨.there, fun h => ?_⟩
      cases h with
      | here => exact absurd ⟨rfl, rfl⟩ hc
      | there h => exact h

theorem mem_openers_iff : o ∈ openers cs ↔ Opens cs o := by
  rw [openers, mem_openersAfter_iff, Opens]
  refine and_congr_right fun _ => ⟨fun h => ?_, ?_⟩
  · obtain ⟨before, hcs, -, hlast⟩ := h.exists_before
    exact ⟨before, hcs, hlast⟩
  · rintro ⟨before, rfl, hlast⟩
    exact .of_before hlast

instance (cs : List Char) (o : Opener) : Decidable (Opens cs o) :=
  decidable_of_iff _ mem_openers_iff

/-! ### Numbers -/

/-- The decimal value of the digits of an opener. -/
def Opener.value (o : Opener) : Nat := Nat.ofDigitChars 10 o.digits 0

/-- The digits are ASCII digits, and their value has 64 bits. -/
def Opener.IsShort (o : Opener) : Prop :=
  (∀ d ∈ o.digits, d.isDigit = true) ∧ o.value < UInt64.size

instance (o : Opener) : Decidable o.IsShort :=
  decidable_of_iff (o.digits.all Char.isDigit = true ∧ o.value < UInt64.size) <|
    and_congr_left fun _ => List.all_eq_true

theorem mapM_asciiValue? {digits : List Char} (h : ∀ d ∈ digits, d.isDigit = true) :
    digits.mapM Text.asciiValue? = some (digits.map fun d => d.toNat - '0'.toNat) := by
  induction digits with
  | nil => rfl
  | cons d digits ih =>
    obtain ⟨hd, hdigits⟩ := List.forall_mem_cons.1 h
    have hvalue : Text.asciiValue? d = some (d.toNat - '0'.toNat) := if_pos hd
    rw [List.mapM_cons, hvalue, ih hdigits]
    rfl

/-- Short digits are read as their value. -/
theorem number?_eq_some (h : o.IsShort) : number? o.digits = some o.value := by
  have hvalue : (o.digits.map fun d => d.toNat - '0'.toNat).foldl (fun n d => 10 * n + d) 0 =
      o.value := by
    rw [List.foldl_map]
    rfl
  unfold number?
  rw [mapM_asciiValue? h.1]
  simp only [hvalue]
  exact if_pos h.2

/-- The tab stop of an opener. -/
def Opener.stop? (o : Opener) : Option Stop := (number? o.digits).map fun n => ⟨n, o.hasText⟩

theorem stopsAfter_eq_filterMap (escaped : Bool) (cs : List Char) :
    stopsAfter escaped cs = (openersAfter escaped cs).filterMap Opener.stop? := by
  induction cs generalizing escaped with
  | nil => rfl
  | cons c cs ih =>
    rw [stopsAfter, openersAfter]
    split
    · rw [List.filterMap_append, ih, stop?_eq_bind]
      cases opener? cs with
      | none => rfl
      | some o =>
        rw [Option.bind_some, Option.toList_some, List.filterMap_cons, List.filterMap_nil,
          Opener.stop?]
        cases number? o.digits <;> rfl
    · exact ih _

/-- Where all openers are short, each of them is a tab stop. -/
theorem stopsAfter_of_isShort (h : ∀ o, Opens cs o → o.IsShort) :
    stopsAfter false cs = (openers cs).map fun o => ⟨o.value, o.hasText⟩ := by
  rw [stopsAfter_eq_filterMap, ← openers, ← List.filterMap_eq_map]
  refine List.filterMap_congr fun o ho => ?_
  rw [Opener.stop?, number?_eq_some (h o (mem_openers_iff.1 ho)), Option.map_some,
    Function.comp_apply]

/-! ### Texts cut at their openers -/

/-- A backslash stands before what follows a text. -/
def endsEscaped (escaped : Bool) (front : List Char) : Bool :=
  (front.getLast?.map (· == '\\')).getD escaped

theorem endsEscaped_cons (escaped : Bool) (c : Char) (front : List Char) :
    endsEscaped escaped (c :: front) = endsEscaped (c == '\\') front := by
  rw [endsEscaped, endsEscaped, List.getLast?_cons]
  cases front.getLast? <;> rfl

theorem endsEscaped_eq_false_iff {front : List Char} :
    endsEscaped false front = false ↔ front.getLast? ≠ some '\\' := by
  unfold endsEscaped
  cases front.getLast? with
  | none => simp
  | some c => simp

/-- No opener reaches over a dollar sign or over the end of the text. -/
theorem opener?_append_eq_none_iff {rest : List Char} (hrest : ∀ d ∈ rest.head?, d = '$') :
    opener? (cs ++ rest) = none ↔ opener? cs = none := by
  cases rest with
  | nil => rw [List.append_nil]
  | cons d rest =>
    obtain rfl := hrest d rfl
    have hdollar (o : Opener) (ho : o.IsNumbered) : '$' ∉ o.head :=
      fun hmem => (ho.isPlain _ hmem).1 rfl
    rw [opener?_append_cons hdollar, Option.map_eq_none_iff]

/-- Nothing opens in a text with a dollar sign at its front iff neither the dollar sign opens nor
anything behind it does. -/
theorem openersAfter_dollar_eq_nil_iff :
    openersAfter false ('$' :: cs) = [] ↔ opener? cs = none ∧ openersAfter false cs = [] := by
  rw [openersAfter_dollar, List.append_eq_nil_iff, Option.toList_eq_nil_iff]

variable {front rest : List Char} {n : Nat}

/-- Where no opener stands in the front of a text, the openers are those of the rest. -/
theorem openersAfter_append (hrest : ∀ d ∈ rest.head?, d = '$')
    (h : openersAfter escaped front = []) :
    openersAfter escaped (front ++ rest) = openersAfter (endsEscaped escaped front) rest := by
  induction front generalizing escaped with
  | nil => rfl
  | cons c front ih =>
    rw [endsEscaped_cons, List.cons_append]
    by_cases hc : c = '$' ∧ escaped = false
    · obtain ⟨rfl, rfl⟩ := hc
      obtain ⟨hnone, hfront⟩ := openersAfter_dollar_eq_nil_iff.1 h
      rw [openersAfter_dollar, (opener?_append_eq_none_iff hrest).2 hnone, beq_dollar, ih hfront]
      rfl
    · rw [openersAfter_cons hc] at h ⊢
      exact ih h

/-- Where no opener stands in the front of a text, only the rest is renumbered. -/
theorem renumberAfter_append (hrest : ∀ d ∈ rest.head?, d = '$')
    (h : openersAfter escaped front = []) : renumberAfter n escaped (front ++ rest) =
      front ++ renumberAfter n (endsEscaped escaped front) rest := by
  induction front generalizing escaped with
  | nil => rfl
  | cons c front ih =>
    rw [endsEscaped_cons, List.cons_append, List.cons_append]
    by_cases hc : c = '$' ∧ escaped = false
    · obtain ⟨rfl, rfl⟩ := hc
      obtain ⟨hnone, hfront⟩ := openersAfter_dollar_eq_nil_iff.1 h
      have hstop := stop?_eq_none ((opener?_append_eq_none_iff hrest).2 hnone)
      rw [renumberAfter_cons (by simp [hstop]), beq_dollar, ih hfront]
    · rw [openersAfter_cons hc] at h
      rw [renumberAfter_cons fun hd => hc ⟨hd.1, hd.2.1⟩, ih h]

theorem openersAfter_head (ho : o.IsNumbered) (cs : List Char) :
    openersAfter false ('$' :: (o.head ++ cs)) = { o with rest := cs } :: openersAfter false cs := by
  have hplain {p : List Char} (hp : ∀ c ∈ p, IsPlain c) :
      openersAfter false (p ++ cs) = openersAfter false cs := by
    induction p with
    | nil => rfl
    | cons c p ih =>
      obtain ⟨hc, hp⟩ := List.forall_mem_cons.1 hp
      rw [List.cons_append, openersAfter_cons fun h => hc.1 h.1, beq_false_of_ne hc.2, ih hp]
  rw [openersAfter_dollar, opener?_head_append ho, hplain ho.isPlain]
  rfl

/-- Either nothing opens in a text, or there is a first opener. -/
theorem exists_first_opener (escaped : Bool) (cs : List Char) : openersAfter escaped cs = [] ∨
    ∃ (front : List Char) (o : Opener), cs = front ++ '$' :: (o.head ++ o.rest) ∧ o.IsNumbered ∧
      openersAfter escaped front = [] ∧ endsEscaped escaped front = false := by
  induction cs generalizing escaped with
  | nil => exact .inl rfl
  | cons c cs ih =>
    by_cases hc : c = '$' ∧ escaped = false
    · obtain ⟨rfl, rfl⟩ := hc
      cases ho : opener? cs with
      | some o =>
        obtain ⟨hnum, rfl⟩ := opener?_eq_some_iff.1 ho
        exact .inr ⟨[], o, rfl, hnum, rfl, rfl⟩
      | none =>
        obtain h | ⟨front, o, rfl, hnum, hfront, hends⟩ := ih false
        · exact .inl (openersAfter_dollar_eq_nil_iff.2 ⟨ho, h⟩)
        · have hnone := (opener?_append_eq_none_iff (by simp)).1 ho
          refine .inr ⟨'$' :: front, o, rfl, hnum, openersAfter_dollar_eq_nil_iff.2 ⟨hnone, hfront⟩,
            ?_⟩
          rwa [endsEscaped_cons, beq_dollar]
    · obtain h | ⟨front, o, rfl, hnum, hfront, hends⟩ := ih (c == '\\')
      · exact .inl ((openersAfter_cons hc).trans h)
      · refine .inr ⟨c :: front, o, rfl, hnum, (openersAfter_cons hc).trans hfront, ?_⟩
        rwa [endsEscaped_cons]

/-! ### Texts with their openers marked -/

/-- Nothing opens in a text. -/
def NoOpener (cs : List Char) : Prop := ∀ o, ¬ Opens cs o

theorem openers_eq_nil_iff : openers cs = [] ↔ NoOpener cs := by
  rw [List.eq_nil_iff_forall_not_mem]
  exact forall_congr' fun o => not_congr mem_openers_iff

instance (cs : List Char) : Decidable (NoOpener cs) := decidable_of_iff _ openers_eq_nil_iff

/-- A text that is cut at its openers: in the parts between them nothing opens. -/
inductive Marked where
  | last (part : { cs : List Char // NoOpener cs })
  | opener (front : { cs : List Char // NoOpener cs ∧ cs.getLast? ≠ some '\\' })
      (digits : { ds : List Char // ds ≠ [] ∧ ∀ d ∈ ds, Text.isDigit d = true }) (colon : Bool)
      (behind : Marked)

namespace Marked

/-- The text. -/
def text : Marked → List Char
  | last part => part.1
  | opener front digits colon behind =>
    front.1 ++ '$' :: (Opener.head ⟨digits.1, colon, behind.text⟩ ++ behind.text)

/-- The openers that are marked, in order. -/
def openers : Marked → List Opener
  | last _ => []
  | opener _ digits colon behind => ⟨digits.1, colon, behind.text⟩ :: behind.openers

/-- The digits of the final number. -/
def zero : { ds : List Char // ds ≠ [] ∧ ∀ d ∈ ds, Text.isDigit d = true } :=
  ⟨['0'], List.cons_ne_nil '0' [], fun d hd => by
    obtain rfl := List.mem_singleton.1 hd
    decide⟩

/-- Writes a zero for the digits of the openers with one number, and keeps everything else. -/
def renumber (n : Nat) : Marked → Marked
  | last part => last part
  | opener front digits colon behind =>
    opener front (if Nat.ofDigitChars 10 digits.1 0 = n then zero else digits) colon
      (behind.renumber n)

/-- All openers of the text are marked. -/
theorem openers_text (m : Marked) : Template.openers m.text = m.openers := by
  induction m with
  | last part => exact openers_eq_nil_iff.2 part.2
  | opener front digits colon behind ih =>
    have hfront : openersAfter false front.1 = [] := openers_eq_nil_iff.2 front.2.1
    rw [text, Template.openers, openersAfter_append (by simp) hfront,
      endsEscaped_eq_false_iff.2 front.2.2, openersAfter_head ⟨digits.2.1, digits.2.2⟩, openers,
      ← ih]
    rfl

/-- Renumbering a text changes the digits of the openers with one number. -/
theorem renumberAfter_text (n : Nat) (m : Marked) (h : ∀ o ∈ m.openers, o.IsShort) :
    renumberAfter n false m.text = (m.renumber n).text := by
  induction m with
  | last part =>
    have hpart : openersAfter false part.1 = [] := openers_eq_nil_iff.2 part.2
    have happend : renumberAfter n false (part.1 ++ []) =
        part.1 ++ renumberAfter n (endsEscaped false part.1) [] :=
      renumberAfter_append (by simp) hpart
    rw [List.append_nil, (keepsDollars_renumber n).nil, List.append_nil] at happend
    exact happend
  | opener front digits colon behind ih =>
    have hfront : openersAfter false front.1 = [] := openers_eq_nil_iff.2 front.2.1
    obtain ⟨hshort, hbehind⟩ := List.forall_mem_cons.1 h
    have hnum : Opener.IsNumbered ⟨digits.1, colon, behind.text⟩ := ⟨digits.2.1, digits.2.2⟩
    have hnumber := number?_eq_some hshort
    rw [text, renumberAfter_append (by simp) hfront, endsEscaped_eq_false_iff.2 front.2.2,
      renumber, text, ← ih hbehind]
    by_cases hn : Nat.ofDigitChars 10 digits.1 0 = n
    · rw [if_pos hn, renumberAfter_head hnum (hnumber.trans (congrArg some hn))]
      rfl
    · have hother : (stop? (Opener.head ⟨digits.1, colon, behind.text⟩ ++ behind.text)).map
          Stop.number ≠ some n := by
        rw [number_stop?, opener?_head_append hnum, Option.bind_some]
        exact fun hsome => hn (Option.some.inj (hnumber.symm.trans hsome))
      rw [if_neg hn, renumberAfter_cons fun hc => hother hc.2.2, beq_dollar,
        (keepsDollars_renumber n).head_append hnum]
      rfl

/-- **Every text can be cut at its openers.** -/
theorem exists_text_eq (cs : List Char) : ∃ m : Marked, m.text = cs := by
  induction hlength : cs.length using Nat.strong_induction_on generalizing cs with
  | _ k ih =>
    obtain h | ⟨front, o, rfl, hnum, hfront, hends⟩ := exists_first_opener false cs
    · exact ⟨last ⟨cs, openers_eq_nil_iff.1 h⟩, rfl⟩
    · have hlt : o.rest.length < k := by
        rw [← hlength, List.length_append, List.length_cons, List.length_append]
        omega
      obtain ⟨behind, hbehind⟩ := ih _ hlt o.rest rfl
      have hlast : front.getLast? ≠ some '\\' := endsEscaped_eq_false_iff.1 hends
      refine ⟨opener ⟨front, openers_eq_nil_iff.1 hfront, hlast⟩ ⟨o.digits, hnum.1, hnum.2⟩ o.colon
        behind, ?_⟩
      rw [text, hbehind]

end Marked

/-! ### The highest openers -/

/-- An opener of a text with the highest number. -/
def IsHighest (cs : List Char) (o : Opener) : Prop :=
  Opens cs o ∧ ∀ p, Opens cs p → p.value ≤ o.value

instance (cs : List Char) (o : Opener) : Decidable (IsHighest cs o) :=
  decidable_of_iff (Opens cs o ∧ ∀ p ∈ openers cs, p.value ≤ o.value) <|
    and_congr_right fun _ => forall_congr' fun _ => imp_congr_left mem_openers_iff

/-- A text needs no final tab stop or cannot get one: nothing opens in it, it has one already, or
one of the highest openers has a text that is written over. -/
def IsSettled (cs : List Char) : Prop :=
  NoOpener cs ∨ (∃ o, Opens cs o ∧ o.value = 0) ∨ ∃ o, IsHighest cs o ∧ o.hasText = true

instance (cs : List Char) : Decidable (IsSettled cs) :=
  decidable_of_iff (NoOpener cs ∨ (∃ o ∈ openers cs, o.value = 0) ∨
      ∃ o ∈ openers cs, IsHighest cs o ∧ o.hasText = true) <|
    or_congr_right <| or_congr
      (exists_congr fun _ => and_congr_left fun _ => mem_openers_iff)
      (exists_congr fun _ => ⟨And.right, fun h => ⟨mem_openers_iff.2 h.1.1, h⟩⟩)

theorem exists_isHighest (h : ¬ NoOpener cs) : ∃ o, IsHighest cs o := by
  obtain ⟨o, ho⟩ := not_forall_not.1 h
  obtain ⟨n, hn⟩ := Option.isSome_iff_exists.1
    (List.isSome_max?_of_mem (List.mem_map_of_mem (f := Opener.value) (mem_openers_iff.2 ho)))
  obtain ⟨hmem, hle⟩ := List.max?_eq_some_iff.1 hn
  obtain ⟨top, htop, rfl⟩ := List.mem_map.1 hmem
  exact ⟨top, mem_openers_iff.1 htop,
    fun p hp => hle _ (List.mem_map_of_mem (mem_openers_iff.2 hp))⟩

/-- The highest number is given up unless the text is settled. -/
theorem finalNumber?_eq_some_iff_isHighest (h : ∀ o, Opens cs o → o.IsShort) :
    finalNumber? (stopsAfter false cs) = some n ↔
      ¬ IsSettled cs ∧ ∃ o, IsHighest cs o ∧ o.value = n := by
  rw [stopsAfter_of_isShort h, finalNumber?_eq_some_iff]
  simp only [List.mem_map, mem_openers_iff, exists_exists_and_eq_and, forall_exists_index, and_imp,
    forall_apply_eq_imp_iff₂]
  constructor
  · rintro ⟨⟨o, ho, rfl⟩, hall⟩
    have hhighest : IsHighest cs o := ⟨ho, fun p hp => (hall p hp).1⟩
    refine ⟨?_, o, hhighest, rfl⟩
    rintro (hnone | ⟨p, hp, hzero⟩ | ⟨p, hp, htext⟩)
    · exact hnone o ho
    · exact (hall p hp).2.1 hzero
    · have heq : p.value = o.value := Nat.le_antisymm (hhighest.2 p hp.1) (hp.2 o ho)
      rw [(hall p hp.1).2.2 heq] at htext
      cases htext
  · rintro ⟨hopen, o, ho, rfl⟩
    refine ⟨⟨o, ho.1, rfl⟩, fun p hp => ⟨ho.2 p hp, ?_, ?_⟩⟩
    · exact fun hzero => hopen (.inr (.inl ⟨p, hp, hzero⟩))
    · intro heq
      have hhighest : IsHighest cs p := ⟨hp, fun q hq => heq ▸ ho.2 q hq⟩
      exact Bool.eq_false_iff.2 fun htext => hopen (.inr (.inr ⟨p, hhighest, htext⟩))

/-- **Just the digits of the highest openers become the final number.** In a text whose numbers have
64 bits nothing changes if it is settled; if not, a zero is written for the digits of each opener
with the highest number, and every other character stays in its place. -/
theorem promote_eq_renumber (text : String) (h : ∀ o, Opens text.toList o → o.IsShort) :
    (IsSettled text.toList → promote text = text) ∧
    (¬ IsSettled text.toList → ∃ top, IsHighest text.toList top ∧ ∃ m : Marked,
      m.text = text.toList ∧ (∀ o, o ∈ m.openers ↔ Opens text.toList o) ∧
        promote text = String.ofList (m.renumber top.value).text) := by
  constructor
  · intro hsettled
    have hnone : finalNumber? (stopsAfter false text.toList) = none :=
      Option.eq_none_iff_forall_ne_some.2 fun n hn =>
        ((finalNumber?_eq_some_iff_isHighest h).1 hn).1 hsettled
    rw [promote, promoteChars_eq_elim, hnone, Option.elim_none, String.ofList_toList]
  · intro hopen
    obtain ⟨top, htop⟩ := exists_isHighest fun hnone => hopen (.inl hnone)
    obtain ⟨m, hm⟩ := Marked.exists_text_eq text.toList
    have hmem : ∀ o, o ∈ m.openers ↔ Opens text.toList o := fun o => by
      rw [← m.openers_text, hm, mem_openers_iff]
    have hnumber := (finalNumber?_eq_some_iff_isHighest h).2 ⟨hopen, top, htop, rfl⟩
    refine ⟨top, htop, m, hm, hmem, ?_⟩
    rw [promote, promoteChars_eq_elim, hnumber, Option.elim_some, ← hm,
      Marked.renumberAfter_text _ m fun o ho => h o ((hmem o).1 ho)]

/-- Twelve is the highest number here, with a leading zero inside another marker and with an empty
text. It stays behind a backslash and where no marker opens. -/
theorem promote_eq_renumber_nested :
    let text := "$\x7b3:a $\x7b012\x7d\x7d$\x7b12:\x7d\\$\x7b12\x7d$\x7b2\x7d$\x7b12"
    (∀ o, Opens text.toList o → o.IsShort) ∧ ¬ IsSettled text.toList ∧
      (∃ top, IsHighest text.toList top ∧ ∃ m : Marked, m.text = text.toList ∧
        (∀ o, o ∈ m.openers ↔ Opens text.toList o) ∧
          promote text = String.ofList (m.renumber top.value).text) ∧
      promote text = "$\x7b3:a $\x7b0\x7d\x7d$\x7b0:\x7d\\$\x7b12\x7d$\x7b2\x7d$\x7b12" := by
  intro text
  have hshort : ∀ o ∈ openers text.toList, o.IsShort := by decide +kernel
  have hopen : ¬ IsSettled text.toList := by decide +kernel
  have h : ∀ o, Opens text.toList o → o.IsShort := fun o ho => hshort o (mem_openers_iff.2 ho)
  exact ⟨h, hopen, (promote_eq_renumber text h).2 hopen, by decide +kernel⟩

end Emmet.Template
