import Mathlib.Data.List.Sort
import Mathlib.Data.List.TakeWhile
import Emmet.Vendor

/-!
# Vendor prefixes and the copies they ask for

A lead is what an abbreviation can say about vendors: nothing, a hyphen, or letters between two
hyphens. The text of a lead is all that splitting and copying share.

* `Lead.Opens` : an abbreviation starts with a lead;
* `Lead.Asks` : the vendors that a lead asks for, given the expansion and the preferences;
* `split_apply_exact` : `split` takes off the lead that opens the abbreviation and `apply` writes
  one line for each vendor that the lead asks for.
-/

namespace Emmet.Vendor

/-! ### Letters -/

theorem ofLetter?_letter (v : Vendor) : ofLetter? v.letter = some v := by
  cases v <;> rfl

theorem letter_injective : Function.Injective letter := fun u v h =>
  Option.some.inj ((ofLetter?_letter u).symm.trans (h ▸ ofLetter?_letter v))

theorem isLetter_iff {c : Char} : isLetter c = true ↔ ∃ v : Vendor, v.letter = c := by
  constructor
  · intro h
    obtain ⟨v, hv⟩ := Option.isSome_iff_exists.1 h
    exact ⟨v, by simpa using List.find?_some hv⟩
  · rintro ⟨v, rfl⟩
    rw [isLetter, ofLetter?_letter]
    rfl

theorem isLetter_of_mem_map {vendors : List Vendor} {c : Char} (h : c ∈ vendors.map letter) :
    isLetter c = true := by
  obtain ⟨v, -, hv⟩ := List.mem_map.1 h
  exact isLetter_iff.2 ⟨v, hv⟩

theorem exists_map_letter {cs : List Char} (h : ∀ c ∈ cs, isLetter c = true) :
    ∃ vendors : List Vendor, cs = vendors.map letter := by
  induction cs with
  | nil => exact ⟨[], rfl⟩
  | cons c cs ih =>
    obtain ⟨hc, hcs⟩ := List.forall_mem_cons.1 h
    obtain ⟨v, rfl⟩ := isLetter_iff.1 hc
    obtain ⟨vendors, rfl⟩ := ih hcs
    exact ⟨v :: vendors, rfl⟩

theorem filterMap_ofLetter? (vendors : List Vendor) :
    (vendors.map letter ++ ['-']).filterMap ofLetter? = vendors := by
  induction vendors with
  | nil => rfl
  | cons v vendors ih =>
    rw [List.map_cons, List.cons_append, List.filterMap_cons_some (ofLetter?_letter v), ih]

/-! ### Leads -/

/-- What an abbreviation can say about vendors. -/
inductive Lead where
  /-- No copies are asked for. -/
  | plain
  /-- Copies for the vendors that list the property. -/
  | listed
  /-- Copies for the vendors of some letters. -/
  | lettered (vendors : List Vendor)
  deriving DecidableEq, Repr

namespace Lead

/-- How a lead is written. -/
def text : Lead → List Char
  | plain => []
  | listed => ['-']
  | lettered vendors => '-' :: (vendors.map letter ++ ['-'])

/-- The text starts with letters between two hyphens, and its line goes on after them. -/
def OpensLettered (vendors : List Vendor) (cs : List Char) : Prop :=
  ∃ c rest, cs = text (lettered vendors) ++ c :: rest ∧ c ≠ '\n'

/-- The text starts with the lead. A hyphen is a lead of its own only where it does not start a
longer one. -/
def Opens : Lead → List Char → Prop
  | plain, cs => cs.head? ≠ some '-'
  | listed, cs => cs.head? = some '-' ∧ ∀ vendors, ¬OpensLettered vendors cs
  | lettered vendors, cs => OpensLettered vendors cs

theorem text_injective : Function.Injective text := by
  rintro (_ | _ | vendors) (_ | _ | others) h
  case lettered.lettered =>
    have hmap : vendors.map letter = others.map letter := by simpa [text] using h
    rw [List.map_injective_iff.2 letter_injective hmap]
  all_goals first | rfl | simp [text] at h

theorem exists_opens (cs : List Char) : ∃ l : Lead, l.Opens cs := by
  by_cases hhead : cs.head? = some '-'
  · by_cases hlettered : ∃ vendors, OpensLettered vendors cs
    · obtain ⟨vendors, h⟩ := hlettered
      exact ⟨lettered vendors, h⟩
    · exact ⟨listed, hhead, not_exists.1 hlettered⟩
  · exact ⟨plain, hhead⟩

theorem Opens.split_eq {l : Lead} {cs : List Char} (h : l.Opens cs) : (split cs).1 = l.text := by
  cases l with
  | plain =>
    unfold split
    split
    · exact absurd rfl h
    · rfl
  | listed =>
    obtain ⟨hhead, hlettered⟩ := h
    obtain ⟨rest, rfl⟩ := List.head?_eq_some_iff.1 hhead
    simp only [split]
    split
    · next c tail hdrop =>
      split
      · rfl
      · next hc =>
        -- the letters in front of the second hyphen would open the text
        obtain ⟨vendors, hvendors⟩ :=
          exists_map_letter fun d (hd : d ∈ rest.takeWhile isLetter) => List.mem_takeWhile_imp hd
        refine absurd ⟨c, tail, ?_, hc⟩ (hlettered vendors)
        rw [text, ← hvendors, List.cons_append, List.append_assoc, List.singleton_append, ← hdrop,
          List.takeWhile_append_dropWhile]
    · rfl
  | lettered vendors =>
    obtain ⟨c, rest, rfl, hc⟩ := h
    have hletters : ∀ d ∈ vendors.map letter, isLetter d = true := fun d => isLetter_of_mem_map
    have htake : (vendors.map letter ++ '-' :: c :: rest).takeWhile isLetter =
        vendors.map letter := by
      rw [List.takeWhile_append_of_pos hletters, List.takeWhile_cons_of_neg (by decide),
        List.append_nil]
    have hdrop : (vendors.map letter ++ '-' :: c :: rest).dropWhile isLetter =
        '-' :: c :: rest := by
      rw [List.dropWhile_append_of_pos hletters, List.dropWhile_cons_of_neg (by decide)]
    simp only [text, List.cons_append, List.append_assoc, List.nil_append, split, hdrop, htake,
      if_neg hc]

/-- What `split` takes off is the text of the one lead that opens the abbreviation. -/
theorem split_eq_text_iff {l : Lead} {cs : List Char} : (split cs).1 = l.text ↔ l.Opens cs := by
  constructor
  · intro h
    obtain ⟨m, hm⟩ := exists_opens cs
    rwa [text_injective (h.symm.trans hm.split_eq)]
  · exact Opens.split_eq

end Lead

/-! ### Preferences -/

/-- A preference names a property: blanks around the name in a list do not count. -/
inductive Names : Json → List Char → Prop where
  /-- An entry of a comma list, from one comma or end of the list to the next. -/
  | field {names : String} {before entry after : List Char}
      (hnames : names.toList = before ++ (entry ++ after)) (hentry : ',' ∉ entry)
      (hbefore : ∀ c ∈ before.getLast?, c = ',') (hafter : ∀ c ∈ after.head?, c = ',') :
      Names (.string names) (Text.trim entry)
  /-- A text in an array, whatever else the array holds. -/
  | item {items : List Json} {entry : String} (hentry : .string entry ∈ items) :
      Names (.array items) (Text.trim entry.toList)

/-- A vendor lists a property in its preference. -/
def Lists (v : Vendor) (property : List Char) (preferences : Table Json) : Prop :=
  ∃ preference, Table.find? preferences ("css." ++ v.name ++ "Properties") = some preference ∧
    Names preference property

theorem lists_iff {preference : Json} {property : List Char} :
    lists preference property = true ↔ Names preference property := by
  constructor
  · intro h
    unfold lists at h
    split at h
    · obtain ⟨entry, hentry, rfl⟩ := List.mem_map.1 (List.contains_iff_mem.1 h)
      obtain ⟨hcomma, before, after, hnames, hbefore, hafter⟩ := Text.mem_splitOn_iff.1 hentry
      exact .field hnames hcomma hbefore hafter
    · obtain ⟨entry, hentry, htrim⟩ := List.any_eq_true.1 h
      obtain ⟨item, hitem, hstring⟩ := List.mem_filterMap.1 hentry
      cases item with
      | string s =>
        obtain rfl := Option.some.inj hstring
        exact eq_of_beq htrim ▸ .item hitem
      | _ => simp [Json.string?] at hstring
    · simp at h
  · rintro (⟨hnames, hcomma, hbefore, hafter⟩ | hitem)
    · exact List.contains_iff_mem.2
        (List.mem_map_of_mem (Text.mem_splitOn_iff.2 ⟨hcomma, _, _, hnames, hbefore, hafter⟩))
    · exact List.any_eq_true.2
        ⟨_, List.mem_filterMap.2 ⟨_, hitem, rfl⟩, beq_self_eq_true _⟩

/-! ### Vendors that are asked for -/

/-- The property of an expansion: the text before the first colon, if there is any. -/
def IsProperty (expansion property : List Char) : Prop :=
  property ≠ [] ∧ ':' ∉ property ∧ ∃ value, expansion = property ++ ':' :: value

/-- The vendors for which a lead asks for copies, in the order of the copies. -/
inductive Lead.Asks (expansion : List Char) (preferences : Table Json) :
    Lead → List Vendor → Prop where
  | plain : Asks expansion preferences .plain []
  | lettered (vendors : List Vendor) : Asks expansion preferences (.lettered vendors) vendors
  /-- Without a property there is nothing to list. -/
  | unnamed (h : ∀ property, ¬IsProperty expansion property) : Asks expansion preferences .listed []
  /-- The vendors that list the property, in the order of `all`. -/
  | listed {property : List Char} {vendors : List Vendor}
      (hproperty : IsProperty expansion property) (hsub : vendors.Sublist all)
      (hmem : ∀ v, v ∈ vendors ↔ Lists v property preferences) (hvendors : vendors ≠ []) :
      Asks expansion preferences .listed vendors
  /-- A property that no vendor lists is copied for all. -/
  | unlisted {property : List Char} (hproperty : IsProperty expansion property)
      (h : ∀ v, ¬Lists v property preferences) : Asks expansion preferences .listed all

theorem IsProperty.splitOnce_eq {expansion property : List Char}
    (h : IsProperty expansion property) :
    ∃ value, Text.splitOnce ':' expansion = some (property, value) := by
  obtain ⟨-, hcolon, value, rfl⟩ := h
  exact ⟨value, Text.splitOnce_append hcolon value⟩

theorem exists_forProperty_eq (property : List Char) (preferences : Table Json) :
    ∃ vendors : List Vendor,
      forProperty property preferences = (if vendors.isEmpty then all else vendors) ∧
      vendors.Sublist all ∧ ∀ v, v ∈ vendors ↔ Lists v property preferences := by
  refine ⟨_, rfl, List.filter_sublist, fun v => ?_⟩
  have hall : v ∈ all := by cases v <;> decide
  rw [List.mem_filter, and_iff_right hall, Lists]
  split
  · next preference h => simp [h, lists_iff]
  · next h => simp [h]

/-- Vendors in the order of `all` are given by which vendors are among them. -/
theorem eq_of_sublist_all {us vs : List Vendor} (hus : us.Sublist all) (hvs : vs.Sublist all)
    (h : ∀ v, v ∈ us ↔ v ∈ vs) : us = vs := by
  have hpairwise : all.Pairwise fun u v => all.idxOf u < all.idxOf v := by decide
  have hirrefl : Std.Irrefl fun u v : Vendor => all.idxOf u < all.idxOf v := ⟨fun _ => lt_irrefl _⟩
  have hantisymm : Std.Antisymm fun u v : Vendor => all.idxOf u < all.idxOf v :=
    ⟨fun _ _ huv hvu => absurd huv hvu.asymm⟩
  exact List.Pairwise.eq_of_mem_iff (hpairwise.sublist hus) (hpairwise.sublist hvs) h

variable {expansion : List Char} {preferences : Table Json}

/-- There is at most one property. -/
theorem IsProperty.unique {property other : List Char} (h : IsProperty expansion property)
    (h' : IsProperty expansion other) : property = other := by
  obtain ⟨value, hvalue⟩ := h.splitOnce_eq
  obtain ⟨value', hvalue'⟩ := h'.splitOnce_eq
  rw [hvalue, Option.some.injEq, Prod.mk.injEq] at hvalue'
  exact hvalue'.1

theorem asks_forProperty {property : List Char} (h : IsProperty expansion property) :
    Lead.listed.Asks expansion preferences (forProperty property preferences) := by
  obtain ⟨vendors, hvendors, hsub, hmem⟩ := exists_forProperty_eq property preferences
  rw [hvendors]
  split
  · next hempty =>
    rw [List.isEmpty_iff] at hempty
    exact .unlisted h fun v hv => List.not_mem_nil (hempty ▸ (hmem v).2 hv)
  · next hne => exact .listed h hsub hmem fun hempty => hne (List.isEmpty_iff.2 hempty)

/-- A lead asks for the vendors for which copies are written. -/
theorem Lead.asks_asked (l : Lead) :
    l.Asks expansion preferences (asked l.text expansion preferences) := by
  cases l with
  | plain => exact .plain
  | lettered vendors =>
    have hasked : asked (lettered vendors).text expansion preferences = vendors := by
      unfold asked
      split
      · next h => simp [text] at h
      · next letters _ h =>
        rw [← List.cons.inj h |>.2, filterMap_ofLetter?]
      · next h => exact absurd rfl (h _)
    rw [hasked]
    exact .lettered vendors
  | listed =>
    simp only [text, asked]
    split
    · next value hvalue =>
      refine .unnamed fun property hproperty => hproperty.1 ?_
      obtain ⟨other, hother⟩ := hproperty.splitOnce_eq
      rw [hvalue, Option.some.injEq, Prod.mk.injEq] at hother
      exact hother.1.symm
    · next property value hne hvalue =>
      obtain ⟨rfl, hcolon⟩ := Text.splitOnce_eq_some hvalue
      exact asks_forProperty ⟨hne, hcolon, value, rfl⟩
    · next hnone =>
      refine .unnamed fun property hproperty => ?_
      obtain ⟨value, hvalue⟩ := hproperty.splitOnce_eq
      simp [hnone] at hvalue

theorem Lead.Asks.unique {l : Lead} {us vs : List Vendor} (hus : l.Asks expansion preferences us)
    (hvs : l.Asks expansion preferences vs) : us = vs := by
  cases hus with
  | plain => cases hvs; rfl
  | lettered => cases hvs; rfl
  | unnamed h =>
    cases hvs with
    | unnamed => rfl
    | listed hproperty => exact absurd hproperty (h _)
    | unlisted hproperty => exact absurd hproperty (h _)
  | listed hproperty hsub hmem hne =>
    cases hvs with
    | unnamed h => exact absurd hproperty (h _)
    | listed hother hsub' hmem' =>
      obtain rfl := hproperty.unique hother
      exact eq_of_sublist_all hsub hsub' fun v => (hmem v).trans (hmem' v).symm
    | unlisted hother hnone =>
      obtain rfl := hproperty.unique hother
      obtain ⟨v, hv⟩ := List.exists_mem_of_ne_nil _ hne
      exact absurd ((hmem v).1 hv) (hnone v)
  | unlisted hproperty hnone =>
    cases hvs with
    | unnamed h => exact absurd hproperty (h _)
    | listed hother hsub hmem hne =>
      obtain rfl := hproperty.unique hother
      obtain ⟨v, hv⟩ := List.exists_mem_of_ne_nil _ hne
      exact absurd ((hmem v).1 hv) (hnone v)
    | unlisted => rfl

/-! ### Copies -/

/-- An expansion as the last of some lines, after one line for each vendor. -/
def withCopies (vendors : List Vendor) (expansion : String) : String :=
  "\n".intercalate (vendors.map (fun v => "-" ++ v.name ++ "-" ++ expansion) ++ [expansion])

theorem ofList_copies (vendors : List Vendor) (expansion : String) :
    String.ofList ((vendors.flatMap fun v => v.copy expansion.toList) ++ expansion.toList) =
      withCopies vendors expansion := by
  induction vendors with
  | nil => simp [withCopies]
  | cons v vendors ih =>
    have hline : String.ofList (v.copy expansion.toList) =
        "-" ++ v.name ++ "-" ++ expansion ++ "\n" := by
      apply String.toList_injective
      simp [copy]
    have hjoin : withCopies (v :: vendors) expansion =
        "-" ++ v.name ++ "-" ++ expansion ++ "\n" ++ withCopies vendors expansion := by
      rw [withCopies, List.map_cons, List.cons_append, String.intercalate_cons_of_ne_nil]
      · rfl
      · simp
    rw [List.flatMap_cons, List.append_assoc, String.ofList_append, ih, hline, hjoin]

/-- **Vendor prefixes split and apply.** Splitting loses nothing and takes off the one lead that
opens the abbreviation. Whatever the preferences are, a lead asks for exactly one list of vendors,
and its copies are one line for each of them, with the expansion itself as the last line. -/
theorem split_apply_exact :
    (∀ cs, (split cs).1 ++ (split cs).2 = cs ∧ (∃ l : Lead, (split cs).1 = l.text) ∧
      ∀ l : Lead, (split cs).1 = l.text ↔ l.Opens cs) ∧
    ∀ (l : Lead) (expansion : String) (preferences : Table Json), ∃ vendors,
      (∀ us, l.Asks expansion.toList preferences us ↔ us = vendors) ∧
      apply expansion (String.ofList l.text) preferences = withCopies vendors expansion := by
  refine ⟨fun cs => ⟨split_append cs, ?_, fun l => Lead.split_eq_text_iff⟩, ?_⟩
  · obtain ⟨l, hl⟩ := Lead.exists_opens cs
    exact ⟨l, hl.split_eq⟩
  · intro l expansion preferences
    have hasked := @Lead.asks_asked expansion.toList preferences l
    refine ⟨asked l.text expansion.toList preferences, fun us => ?_, ?_⟩
    · constructor
      · exact fun h => h.unique hasked
      · rintro rfl
        exact hasked
    · rw [apply, applyChars, String.toList_ofList, ofList_copies]

/-- A prefix without letters is a prefix, and one without an abbreviation behind it is none. -/
example : ["--x", "-w-", "-abc-d", "-oo-x"].map (fun s => split s.toList) =
    [(['-', '-'], ['x']), (['-'], ['w', '-']), (['-'], ['a', 'b', 'c', '-', 'd']),
      (['-', 'o', 'o', '-'], ['x'])] := by
  decide

end Emmet.Vendor
