import Emmet.Proofs.Template.Openers

/-!
# Templates without a final tab stop

A marker is shown as a cursor with any digits, but it has a number only if the digits are those of
ASCII and their value has 64 bits. Markers without a number are passed over when the final tab stop
is chosen. This file says what that means for templates that have no text to write over.

* `number?_eq_some_iff` : which digits have a number, and which number they have;
* `mem_stops_iff` : the tab stops of a text are its openers with a number;
* `openersAfter_renumber` : what becomes of the openers when one number is given up;
* `hasFinalStop_promote_iff` : there is a final tab stop just if some marker has a number.
-/

namespace Emmet.Template

variable {o : Opener} {cs : List Char} {n : Nat}

/-! ### Digits with a number -/

theorem isDigit_of_mapM {digits : List Char} {ds : List Nat}
    (h : digits.mapM Text.asciiValue? = some ds) : ∀ d ∈ digits, d.isDigit = true := by
  induction digits generalizing ds with
  | nil => nofun
  | cons d digits ih =>
    rw [List.mapM_cons] at h
    obtain ⟨v, hv, hrest⟩ := Option.bind_eq_some_iff.1 h
    obtain ⟨vs, hvs, -⟩ := Option.bind_eq_some_iff.1 hrest
    have hd : d.isDigit = true := by
      by_contra hd
      rw [Text.asciiValue?, if_neg hd] at hv
      cases hv
    exact List.forall_mem_cons.2 ⟨hd, ih hvs⟩

/-- Digits have a number if they are short, and then it is their value. -/
theorem number?_eq_some_iff : number? o.digits = some n ↔ o.IsShort ∧ o.value = n := by
  constructor
  · intro h
    have hshort : o.IsShort := by
      unfold number? at h
      split at h
      · next ds hds =>
        have hdigits := isDigit_of_mapM hds
        obtain rfl := Option.some.inj ((mapM_asciiValue? hdigits).symm.trans hds)
        simp only [List.foldl_map] at h
        split at h
        · next hlt => exact ⟨hdigits, hlt⟩
        · cases h
      · cases h
    exact ⟨hshort, Option.some.inj ((number?_eq_some hshort).symm.trans h)⟩
  · rintro ⟨hshort, rfl⟩
    exact number?_eq_some hshort

/-- The tab stops of a text are its openers with a number. -/
theorem mem_stops_iff {s : Stop} : s ∈ stopsAfter false cs ↔
    ∃ o, Opens cs o ∧ o.IsShort ∧ s = ⟨o.value, o.hasText⟩ := by
  rw [stopsAfter_eq_filterMap, List.mem_filterMap]
  constructor
  · rintro ⟨o, ho, hstop⟩
    obtain ⟨n, hn, rfl⟩ := Option.map_eq_some_iff.1 hstop
    obtain ⟨hshort, rfl⟩ := number?_eq_some_iff.1 hn
    exact ⟨o, mem_openers_iff.1 ho, hshort, rfl⟩
  · rintro ⟨o, ho, hshort, rfl⟩
    exact ⟨o, mem_openers_iff.2 ho, by rw [Opener.stop?, number?_eq_some hshort]; rfl⟩

/-! ### Openers of a renumbered text -/

/-- The opener in a text in which a number has become the final one. -/
def Opener.renumber (n : Nat) (o : Opener) : Opener where
  digits := if number? o.digits = some n then ['0'] else o.digits
  colon := o.colon
  rest := renumberAfter n false o.rest

/-- Renumbering changes the digits of the openers with one number, and no others. -/
theorem openersAfter_renumber (n : Nat) (escaped : Bool) (cs : List Char) :
    openersAfter escaped (renumberAfter n escaped cs) =
      (openersAfter escaped cs).map (Opener.renumber n) := by
  induction escaped, cs using renumber_induction (n := n) with
  | nil escaped =>
    rw [(keepsDollars_renumber n).nil]
    rfl
  | head o h hn ih =>
    rw [renumberAfter_head h hn, openersAfter_head o.isNumbered_final, openersAfter_head h, ih,
      List.map_cons, Opener.renumber, if_pos hn]
    rfl
  | cons escaped c cs hc ih =>
    rw [renumberAfter_cons hc]
    by_cases hdollar : c = '$' ∧ escaped = false
    · obtain ⟨rfl, rfl⟩ := hdollar
      have hopener : (opener? (renumberAfter n false cs)).toList =
          (opener? cs).toList.map (Opener.renumber n) := by
        rw [(keepsDollars_renumber n).opener?_eq_map]
        cases ho : opener? cs with
        | none => rfl
        | some o =>
          have hother : number? o.digits ≠ some n := fun hn =>
            hc ⟨rfl, rfl, by rw [number_stop?, ho, Option.bind_some, hn]⟩
          rw [Option.map_some, Option.toList_some, Option.toList_some, List.map_singleton,
            Opener.renumber, if_neg hother]
          rfl
      rw [beq_dollar] at ih ⊢
      rw [openersAfter_dollar, openersAfter_dollar, ih, hopener, List.map_append]
    · rw [openersAfter_cons hdollar, openersAfter_cons hdollar, ih]

/-! ### Final tab stops -/

/-- A marker without text opens in a text, and its number is zero. -/
def HasFinalStop (text : String) : Prop :=
  ∃ o, Opens text.toList o ∧ o.colon = false ∧ o.IsShort ∧ o.value = 0

instance (text : String) : Decidable (HasFinalStop text) :=
  decidable_of_iff (∃ o ∈ openers text.toList, o.colon = false ∧ o.IsShort ∧ o.value = 0) <|
    exists_congr fun _ => and_congr_left fun _ => mem_openers_iff

theorem hasMarker_iff_opens {text : String} :
    HasMarker text ↔ ∃ o, Opens text.toList o ∧ o.colon = false := by
  rw [hasMarker_iff]
  refine exists_congr fun o => ?_
  rw [← mem_openers_iff, openers, mem_openersAfter_iff]
  constructor
  · rintro ⟨hnum, hcolon, hfree⟩
    exact ⟨⟨hnum, hfree⟩, hcolon⟩
  · rintro ⟨⟨hnum, hfree⟩, hcolon⟩
    exact ⟨hnum, hcolon, hfree⟩

instance (text : String) : Decidable (HasMarker text) :=
  decidable_of_iff (∃ o ∈ openers text.toList, o.colon = false) <|
    (exists_congr fun _ => and_congr_left fun _ => mem_openers_iff).trans hasMarker_iff_opens.symm

/-- A text in which only markers without text open. -/
def OpensBareOnly (text : String) : Prop := ∀ o, Opens text.toList o → o.colon = false

instance (text : String) : Decidable (OpensBareOnly text) :=
  decidable_of_iff (∀ o ∈ openers text.toList, o.colon = false) <|
    forall_congr' fun _ => imp_congr_left mem_openers_iff

/-- Where only markers without text open, a number is given up iff there are numbers and none of
them is zero. -/
theorem exists_finalNumber? {text : String} (hbare : OpensBareOnly text)
    (hshort : ∃ o, Opens text.toList o ∧ o.IsShort) (hfinal : ¬ HasFinalStop text) :
    ∃ n, finalNumber? (stopsAfter false text.toList) = some n := by
  obtain ⟨o, ho, hoShort⟩ := hshort
  have hstop : (⟨o.value, o.hasText⟩ : Stop) ∈ stopsAfter false text.toList :=
    mem_stops_iff.2 ⟨o, ho, hoShort, rfl⟩
  obtain ⟨n, hn⟩ := Option.isSome_iff_exists.1
    (List.isSome_max?_of_mem (List.mem_map_of_mem (f := Stop.number) hstop))
  obtain ⟨hmem, hle⟩ := List.max?_eq_some_iff.1 hn
  refine ⟨n, finalNumber?_eq_some_iff.2 ⟨List.mem_map.1 hmem, fun s hs => ?_⟩⟩
  obtain ⟨p, hp, hpShort, rfl⟩ := mem_stops_iff.1 hs
  refine ⟨hle _ (List.mem_map_of_mem (f := Stop.number) hs), ?_, fun _ => ?_⟩
  · exact fun hzero => hfinal ⟨p, hp, hbare p hp, hpShort, hzero⟩
  · rw [Opener.hasText, hbare p hp, Bool.false_and]

/-- Where a number is given up, the marker with it becomes final. -/
theorem hasFinalStop_of_finalNumber? {text : String} (hbare : OpensBareOnly text)
    (hn : finalNumber? (stopsAfter false text.toList) = some n) : HasFinalStop (promote text) := by
  obtain ⟨⟨s, hs, rfl⟩, -⟩ := finalNumber?_eq_some_iff.1 hn
  obtain ⟨top, htop, hshort, rfl⟩ := mem_stops_iff.1 hs
  refine ⟨top.renumber top.value, ?_, hbare top htop, ?_⟩
  · rw [promote, String.toList_ofList, promoteChars_eq_elim, hn, Option.elim_some,
      ← mem_openers_iff, openers, openersAfter_renumber]
    exact List.mem_map_of_mem (mem_openers_iff.2 htop)
  · refine number?_eq_some_iff.1 ?_
    rw [Opener.renumber, if_pos (number?_eq_some hshort)]
    exact number?_zero

/-- **A final tab stop needs a number.** Of a text in which only markers without text open, the
promoted one has a final tab stop just if the digits of some marker are those of ASCII and their
value has 64 bits; if not, nothing is changed. -/
theorem hasFinalStop_promote_iff {text : String} (hbare : OpensBareOnly text) :
    (HasFinalStop (promote text) ↔ ∃ o, Opens text.toList o ∧ o.IsShort) ∧
      ((∀ o, Opens text.toList o → ¬ o.IsShort) → promote text = text) := by
  have hnone (h : ∀ o, Opens text.toList o → ¬ o.IsShort) : promote text = text := by
    have hstops : stopsAfter false text.toList = [] :=
      List.eq_nil_iff_forall_not_mem.2 fun s hs => by
        obtain ⟨o, ho, hshort, -⟩ := mem_stops_iff.1 hs
        exact h o ho hshort
    rw [promote, promoteChars_eq_elim, hstops]
    exact String.ofList_toList
  refine ⟨⟨fun hfinal => ?_, fun hshort => ?_⟩, hnone⟩
  · by_contra h
    rw [not_exists] at h
    obtain ⟨o, ho, -, hshort, -⟩ := hnone (fun o ho hs => h o ⟨ho, hs⟩) ▸ hfinal
    exact h o ⟨ho, hshort⟩
  · by_cases hfinal : HasFinalStop text
    · obtain ⟨o, ho, -, hoShort, hzero⟩ := id hfinal
      have hsame : promote text = text := by
        rw [promote, promoteChars_of_final ⟨_, mem_stops_iff.2 ⟨o, ho, hoShort, rfl⟩, hzero⟩,
          String.ofList_toList]
      rwa [hsame]
    · obtain ⟨n, hn⟩ := exists_finalNumber? hbare hshort hfinal
      exact hasFinalStop_of_finalNumber? hbare hn

/-- With a number of more than 64 bits a marker stays as it is, and with a digit of another script
as well, though both are shown as a cursor. -/
theorem not_hasFinalStop_unnumbered :
    let long := "$\x7b18446744073709551616\x7d"
    let foreign := "$\x7b\u0661\x7d"
    (HasMarker long ∧ OpensBareOnly long ∧ ¬ HasFinalStop (promote long) ∧ preview long = "|") ∧
      HasMarker foreign ∧ OpensBareOnly foreign ∧ ¬ HasFinalStop (promote foreign) ∧
        preview foreign = "|" := by
  decide +kernel

/-- One number is enough: the marker beside the one with other digits becomes final. -/
theorem hasFinalStop_promote_iff_mixed :
    let mixed := "$\x7b\u0661\x7d$\x7b07\x7d"
    OpensBareOnly mixed ∧ (∃ o, Opens mixed.toList o ∧ o.IsShort) ∧
      HasFinalStop (promote mixed) := by
  intro mixed
  have hbare : OpensBareOnly mixed := by decide +kernel
  have hshort : ∃ o, Opens mixed.toList o ∧ o.IsShort :=
    ⟨⟨['0', '7'], false, []⟩, by decide +kernel, by decide +kernel⟩
  exact ⟨hbare, hshort, (hasFinalStop_promote_iff hbare).1.2 hshort⟩

end Emmet.Template
