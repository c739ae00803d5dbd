import Emmet.Completion.Assembly
import Emmet.Proofs.Template.Final

/-!
# Copies for vendors are finished templates

A style sheet expansion may be written several times, once for each vendor, a copy a line. The
template that is inserted is the finished text of all copies, and each of them is the finished
template of the one expansion: no marker reaches over the end of a line, and all copies have the
same tab stops.

* `KeepsLines` : a function on templates that goes over each line by itself;
* `mem_stops_copies` : copies have the tab stops of the one text;
* `finish_apply` : the copies of a finished template are the finished copies.
-/

namespace Emmet.Template

/-! ### The end of a line -/

theorem isPlain_newline : IsPlain '\n' := by
  constructor <;> decide

theorem Opener.IsNumbered.newline_not_mem {o : Opener} (h : o.IsNumbered) : '\n' ∉ o.head := by
  rw [Opener.head, List.mem_cons, List.mem_append, List.mem_singleton]
  rintro (hbrace | hdigit | hsign)
  · exact absurd hbrace (by decide)
  · exact absurd (h.isDigit _ hdigit) (by decide)
  · rcases o.sign_eq_or with hs | hs <;> rw [hs] at hsign <;> exact absurd hsign (by decide)

/-- No opener reaches over the end of a line. -/
theorem opener?_append_newline (cs rest : List Char) : opener? (cs ++ '\n' :: rest) =
    (opener? cs).map (Opener.mapRest (· ++ '\n' :: rest)) :=
  opener?_append_cons (fun _ h => h.newline_not_mem) cs rest

theorem stop?_append_newline (cs rest : List Char) : stop? (cs ++ '\n' :: rest) = stop? cs := by
  rw [stop?_eq_bind, stop?_eq_bind, opener?_append_newline, Option.bind_map]
  congr 1
  funext o
  have htext : (o.mapRest (· ++ '\n' :: rest)).hasText = o.hasText := by
    unfold Opener.hasText Opener.mapRest
    cases o.rest <;> rfl
  rw [Function.comp_apply, htext]
  rfl

theorem stopsAfter_append_newline (escaped : Bool) (cs rest : List Char) :
    stopsAfter escaped (cs ++ '\n' :: rest) = stopsAfter escaped cs ++ stopsAfter false rest := by
  induction cs generalizing escaped with
  | nil => simp [stopsAfter]
  | cons c cs ih =>
    rw [List.cons_append, stopsAfter, stopsAfter, stop?_append_newline, ih, ih]
    split
    · rw [List.append_assoc]
    · rfl

/-- A function that goes over each line of a text by itself. -/
structure KeepsLines (f : Bool → List Char → List Char) : Prop extends KeepsDollars f where
  newline : ∀ escaped cs rest,
    f escaped (cs ++ '\n' :: rest) = f escaped cs ++ '\n' :: f false rest

theorem keepsLines_escapeDollars : KeepsLines escapeDollarsAfter where
  toKeepsDollars := keepsDollars_escapeDollars
  newline escaped cs rest := by
    induction cs generalizing escaped with
    | nil => exact keepsDollars_escapeDollars.plain_cons isPlain_newline escaped rest
    | cons c cs ih =>
      have hhead : (cs ++ '\n' :: rest).head? = some '\x7b' ↔ cs.head? = some '\x7b' := by
        cases cs <;> simp
      rw [List.cons_append, escapeDollarsAfter, escapeDollarsAfter, ih, ih]
      simp only [ne_eq, hhead]
      split <;> rfl

theorem keepsLines_renumber (n : Nat) : KeepsLines (renumberAfter n) where
  toKeepsDollars := keepsDollars_renumber n
  newline escaped cs rest := by
    induction escaped, cs using renumber_induction (n := n) with
    | nil escaped =>
      rw [(keepsDollars_renumber n).nil]
      exact (keepsDollars_renumber n).plain_cons isPlain_newline escaped rest
    | head o h hn ih =>
      rw [List.cons_append, List.append_assoc, renumberAfter_head h hn, renumberAfter_head h hn, ih,
        List.cons_append, List.append_assoc]
    | cons escaped c cs hc ih =>
      rw [List.cons_append, renumberAfter_cons (by rwa [stop?_append_newline]),
        renumberAfter_cons hc, ih, List.cons_append]

/-! ### Copies -/

/-- A text with a copy of it for each of some vendors before it. -/
def copies (vendors : List Vendor) (cs : List Char) : List Char :=
  (vendors.flatMap fun v => v.copy cs) ++ cs

theorem applyChars_eq_copies (lead expansion : List Char) (preferences : Table Json) :
    Vendor.applyChars lead expansion preferences =
      copies (Vendor.asked lead expansion preferences) expansion := rfl

/-- What stands before a copy. -/
def copyHead (v : Vendor) : List Char := '-' :: (v.name.toList ++ ['-'])

theorem isPlain_copyHead (v : Vendor) : ∀ c ∈ copyHead v, IsPlain c := by
  cases v <;> simp [copyHead, Vendor.name, IsPlain]

theorem copies_cons (v : Vendor) (vendors : List Vendor) (cs : List Char) :
    copies (v :: vendors) cs = copyHead v ++ (cs ++ '\n' :: copies vendors cs) := by
  simp [copies, copyHead, Vendor.copy]

/-- A function that goes over each line by itself does to each copy what it does to the text. -/
theorem KeepsLines.copies {f : Bool → List Char → List Char} (hf : KeepsLines f)
    (vendors : List Vendor) (cs : List Char) :
    f false (Template.copies vendors cs) = Template.copies vendors (f false cs) := by
  induction vendors with
  | nil => rfl
  | cons v vendors ih =>
    rw [copies_cons, copies_cons, hf.append (isPlain_copyHead v), hf.newline, ih]

theorem mem_stops_copies {vendors : List Vendor} {cs : List Char} {s : Stop} :
    s ∈ stopsAfter false (copies vendors cs) ↔ s ∈ stopsAfter false cs := by
  induction vendors with
  | nil => rfl
  | cons v vendors ih =>
    rw [copies_cons, stopsAfter_append (isPlain_copyHead v), stopsAfter_append_newline,
      List.mem_append, ih, or_self]

/-! ### The final tab stop of all copies -/

theorem promoteChars_copies (vendors : List Vendor) (cs : List Char) :
    promoteChars (copies vendors cs) = copies vendors (promoteChars cs) := by
  rw [promoteChars_eq_elim, promoteChars_eq_elim, finalNumber?_congr fun _ => mem_stops_copies]
  cases finalNumber? (stopsAfter false cs) with
  | none => rfl
  | some n => exact (keepsLines_renumber n).copies vendors cs

/-! ### The vendors that are asked for -/

theorem CopiesText.exists_append {f : Bool → List Char → List Char} (hf : CopiesText f)
    {p : List Char} (hp : '$' ∉ p) (cs : List Char) :
    ∃ escaped, f false (p ++ cs) = p ++ f escaped cs := by
  suffices h : ∀ b, ∃ escaped, f b (p ++ cs) = p ++ f escaped cs from h false
  induction p with
  | nil => exact fun b => ⟨b, rfl⟩
  | cons c p ih =>
    intro b
    obtain ⟨hc, hp⟩ := List.ne_and_not_mem_of_not_mem_cons hp
    obtain ⟨escaped, h⟩ := ih hp (c == '\\')
    exact ⟨escaped, by rw [List.cons_append, hf.cons b c _ (Ne.symm hc), h, List.cons_append]⟩

/-- A function that copies what is no dollar sign and writes no colon that was not there. -/
structure KeepsColons (f : Bool → List Char → List Char) : Prop extends CopiesText f where
  of_mem : ∀ escaped cs, ':' ∈ f escaped cs → ':' ∈ cs

theorem keepsColons_escapeDollars : KeepsColons escapeDollarsAfter where
  toCopiesText := keepsDollars_escapeDollars.toCopiesText
  of_mem escaped cs h := by
    fun_induction escapeDollarsAfter escaped cs with
    | case1 => exact h
    | case2 escaped c cs hc ih =>
      have hdollar : ':' ≠ c := fun h => absurd (h.trans hc.1) (by decide)
      simpa [hdollar] using ih (by simpa [hdollar] using h)
    | case3 escaped c cs hc ih =>
      obtain rfl | h := List.mem_cons.1 h
      · exact List.mem_cons_self
      · exact List.mem_cons_of_mem _ (ih h)

theorem Opener.mem_head_of_final {o : Opener} {c : Char} (h : c ∈ o.final.head) :
    c = '0' ∨ c ∈ o.head := by
  obtain rfl | h := List.mem_cons.1 h
  · exact .inr List.mem_cons_self
  · obtain h | h := List.mem_append.1 h
    · exact .inl (List.mem_singleton.1 h)
    · exact .inr (List.mem_cons_of_mem _ (List.mem_append_right _ h))

theorem keepsColons_renumber (n : Nat) : KeepsColons (renumberAfter n) where
  toCopiesText := (keepsDollars_renumber n).toCopiesText
  of_mem escaped cs h := by
    induction escaped, cs using renumber_induction (n := n) with
    | nil escaped => rwa [(keepsDollars_renumber n).nil] at h
    | head o hnum hn ih =>
      rw [renumberAfter_head hnum hn] at h
      obtain h | h := List.mem_cons.1 h
      · exact absurd h (by decide)
      · refine List.mem_cons_of_mem _ (List.mem_append.2 ?_)
        obtain h | h := List.mem_append.1 h
        · exact .inl ((Opener.mem_head_of_final h).resolve_left (by decide))
        · exact .inr (ih h)
    | cons escaped c cs hc ih =>
      rw [renumberAfter_cons hc] at h
      obtain rfl | h := List.mem_cons.1 h
      · exact List.mem_cons_self
      · exact List.mem_cons_of_mem _ (ih h)

/-- The text before the first colon, if there is one. -/
def property? (cs : List Char) : Option (List Char) := (Text.splitOnce ':' cs).map Prod.fst

theorem KeepsColons.property?_eq {f : Bool → List Char → List Char} (hf : KeepsColons f)
    {cs : List Char} (h : ∀ p ∈ property? cs, '$' ∉ p) :
    property? (f false cs) = property? cs := by
  unfold property? at *
  cases hcs : Text.splitOnce ':' cs with
  | none =>
    have hmem : ':' ∉ f false cs := fun h => Text.splitOnce_eq_none_iff.1 hcs (hf.of_mem _ _ h)
    rw [Text.splitOnce_eq_none_iff.2 hmem]
  | some p =>
    obtain ⟨property, rest⟩ := p
    have hdollar : '$' ∉ property := h property (by rw [hcs]; rfl)
    obtain ⟨rfl, hcolon⟩ := Text.splitOnce_eq_some hcs
    obtain ⟨escaped, hkeep⟩ := hf.exists_append hdollar (':' :: rest)
    rw [hkeep, hf.cons _ _ _ (by decide), Text.splitOnce_append hcolon]
    rfl

theorem property?_promoteChars {cs : List Char} (h : ∀ p ∈ property? cs, '$' ∉ p) :
    property? (promoteChars cs) = property? cs := by
  rw [promoteChars_eq_elim]
  cases finalNumber? (stopsAfter false cs) with
  | none => rfl
  | some n => exact (keepsColons_renumber n).property?_eq h

/-- Which vendors are asked for depends on the property, and that only without letters for them. -/
theorem asked_congr {lead cs ds : List Char} (h : lead = ['-'] → property? cs = property? ds)
    (preferences : Table Json) :
    Vendor.asked lead cs preferences = Vendor.asked lead ds preferences := by
  have hproperty : ∀ es, Vendor.asked ['-'] es preferences = (property? es).elim []
      fun property => if property = [] then [] else Vendor.forProperty property preferences := by
    intro es
    simp only [Vendor.asked, property?]
    cases Text.splitOnce ':' es with
    | none => rfl
    | some p =>
      obtain ⟨property, rest⟩ := p
      cases property <;> rfl
  by_cases hlead : lead = ['-']
  · rw [hlead, hproperty, hproperty, h hlead]
  · unfold Vendor.asked
    split
    · exact absurd rfl hlead
    · rfl
    · rfl

/-! ### Finished copies -/

/-- The template that is inserted for an expansion, on lists of characters. -/
def finishChars (cs : List Char) : List Char := escapeDollarsAfter false (promoteChars cs)

theorem finish_eq_ofList (expansion : String) :
    finish expansion = String.ofList (finishChars expansion.toList) := by
  rw [finish, escapeDollars, promote, String.toList_ofList, finishChars]

theorem finishChars_copies (vendors : List Vendor) (cs : List Char) :
    finishChars (copies vendors cs) = copies vendors (finishChars cs) := by
  rw [finishChars, promoteChars_copies, keepsLines_escapeDollars.copies, finishChars]

theorem property?_finishChars {cs : List Char} (h : ∀ p ∈ property? cs, '$' ∉ p) :
    property? (finishChars cs) = property? cs := by
  have hpromote := property?_promoteChars h
  rw [finishChars, keepsColons_escapeDollars.property?_eq (hpromote ▸ h), hpromote]

/-- **Copies for vendors carry the same tab stops.** The finished copies of an expansion are the
copies of its finished template, if the vendors are given by their letters, or if there is no dollar
sign in the property by which they are chosen. So what a style sheet inserts is the finished
template of the expansion with its copies before it. -/
theorem finish_apply (expansion lead : String) (preferences : Table Json)
    (h : lead = "-" → ∀ p ∈ property? expansion.toList, '$' ∉ p) :
    finish (Vendor.apply expansion lead preferences) =
      Vendor.apply (finish expansion) lead preferences ∧
    (∃ vendors, (Vendor.apply expansion lead preferences).toList =
        copies vendors expansion.toList ∧
      (finish (Vendor.apply expansion lead preferences)).toList =
        copies vendors (finish expansion).toList) ∧
    ∀ x : Completion.Context, x.settings.preferences = preferences →
      (x.stylesheetPrimary lead expansion).template =
        Vendor.apply (finish expansion) lead preferences := by
  -- the vendors are chosen by the property, and finishing leaves the property as it is
  have hasked : Vendor.asked lead.toList (finishChars expansion.toList) preferences =
      Vendor.asked lead.toList expansion.toList preferences := by
    refine asked_congr (fun hlead => property?_finishChars (h ?_)) preferences
    rw [← String.ofList_toList (s := lead), hlead]
  have hcopies : finish (Vendor.apply expansion lead preferences) = String.ofList
      (copies (Vendor.asked lead.toList expansion.toList preferences)
        (finishChars expansion.toList)) := by
    rw [finish_eq_ofList, Vendor.apply, String.toList_ofList, applyChars_eq_copies,
      finishChars_copies]
  have happly : finish (Vendor.apply expansion lead preferences) =
      Vendor.apply (finish expansion) lead preferences := by
    rw [hcopies, finish_eq_ofList expansion, Vendor.apply, String.toList_ofList,
      applyChars_eq_copies, hasked]
  refine ⟨happly, ⟨Vendor.asked lead.toList expansion.toList preferences, ?_, ?_⟩, ?_⟩
  · rw [Vendor.apply, String.toList_ofList, applyChars_eq_copies]
  · rw [hcopies, String.toList_ofList, finish_eq_ofList, String.toList_ofList]
  · rintro x rfl
    exact happly

/-- Two vendors that list the property `transform`. -/
def transformPreferences : Table Json :=
  [("css.webkitProperties", .string "filter, transform"),
    ("css.msProperties", .strings ["transform"])]

/-- An expansion with a price and two tab stops. -/
def transformExpansion : String := "transform: $5 $\x7b1:a\x7d $\x7b2\x7d;"

/-- In all three lines the price is protected and the second tab stop is the final one. -/
theorem finish_apply_transform :
    (∀ p ∈ property? transformExpansion.toList, '$' ∉ p) ∧
    finish (Vendor.apply transformExpansion "-" transformPreferences) =
      Vendor.apply (finish transformExpansion) "-" transformPreferences ∧
    finish (Vendor.apply transformExpansion "-" transformPreferences) =
      "-webkit-transform: \\$5 $\x7b1:a\x7d $\x7b0\x7d;\n-ms-transform: \\$5 $\x7b1:a\x7d " ++
      "$\x7b0\x7d;\ntransform: \\$5 $\x7b1:a\x7d $\x7b0\x7d;" := by
  have hproperty : ∀ p ∈ property? transformExpansion.toList, '$' ∉ p := by decide +kernel
  have happly := (finish_apply transformExpansion "-" transformPreferences fun _ => hproperty).1
  exact ⟨hproperty, happly, happly.trans (by decide +kernel)⟩

end Emmet.Template
