import Emmet.Expansion.Options
import Emmet.Proofs.Table.Repeated

/-!
# Short forms of units

The short forms of units are a preference that is written as an object, or as a comma list such as
`e:em, p:%`. This file says that the two spellings mean the same.

* `UnitAlias` : a short form and its unit, as a comma list can have them;
* `filterMap_splitOn_listText` : the list is read back, entry by entry;
* `units_listText` : both spellings give the same short forms, and these are, in this order, the
  four that are known anyway and the new ones.

A unit may have colons in it, since a field ends its short form at the first one. What a list cannot
have is a comma, blanks at the ends of a field, and the empty short form.
-/

namespace Emmet.ExpansionOptions

/-- A short form and its unit, as a comma list can have them. -/
structure UnitAlias where
  short : String
  unit : String
  short_ne_empty : short.toList ≠ [] := by decide
  trim_short : Text.trim short.toList = short.toList := by decide
  comma_not_mem_short : ',' ∉ short.toList := by decide
  colon_not_mem_short : ':' ∉ short.toList := by decide
  trim_unit : Text.trim unit.toList = unit.toList := by decide
  comma_not_mem_unit : ',' ∉ unit.toList := by decide

/-- A short form and its unit as a field of a list. -/
def UnitAlias.text (a : UnitAlias) : String := a.short ++ ":" ++ a.unit

/-- A short form and its unit as an entry of an object. -/
def UnitAlias.entry (a : UnitAlias) : String × Json := (a.short, .string a.unit)

/-- The comma list of some short forms. -/
def listText (aliases : List UnitAlias) : String :=
  ", ".intercalate (aliases.map UnitAlias.text)

/-! ### Reading a list -/

variable {lead : List Char} {a : UnitAlias}

theorem toList_text (a : UnitAlias) : a.text.toList = a.short.toList ++ ':' :: a.unit.toList := by
  rw [UnitAlias.text, String.toList_append, String.toList_append, List.append_assoc]
  rfl

theorem not_mem_of_isBlank {c : Char} (hlead : ∀ c ∈ lead, Text.isBlank c = true)
    (hc : Text.isBlank c = false) : c ∉ lead := by
  intro hmem
  rw [hlead c hmem] at hc
  cases hc

theorem comma_not_mem_field (hlead : ∀ c ∈ lead, Text.isBlank c = true) (a : UnitAlias) :
    ',' ∉ lead ++ a.text.toList := by
  have hcolon : ',' ≠ ':' := by decide
  rw [toList_text, List.mem_append, List.mem_append, List.mem_cons]
  rintro (hmem | hmem | heq | hmem)
  · exact not_mem_of_isBlank hlead (by decide) hmem
  · exact a.comma_not_mem_short hmem
  · exact hcolon heq
  · exact a.comma_not_mem_unit hmem

/-- A field is read back, with blanks before it. -/
theorem unitOf?_text (hlead : ∀ c ∈ lead, Text.isBlank c = true) (a : UnitAlias) :
    unitOf? (lead ++ a.text.toList) = some a.entry := by
  have hcolon : ':' ∉ lead ++ a.short.toList := by
    rw [List.mem_append]
    rintro (hmem | hmem)
    · exact not_mem_of_isBlank hlead (by decide) hmem
    · exact a.colon_not_mem_short hmem
  have hsplit := Text.splitOnce_append hcolon a.unit.toList
  rw [List.append_assoc, ← toList_text] at hsplit
  unfold unitOf?
  rw [hsplit]
  simp only
  rw [Text.trim_append hlead, a.trim_short, if_neg a.short_ne_empty, a.trim_unit,
    String.ofList_toList, String.ofList_toList, UnitAlias.entry]

/-- Blanks alone are no field. -/
theorem unitOf?_of_isBlank (hlead : ∀ c ∈ lead, Text.isBlank c = true) : unitOf? lead = none := by
  have hcolon : ':' ∉ lead := not_mem_of_isBlank hlead (by decide)
  unfold unitOf?
  rw [Text.splitOnce_eq_none_iff.2 hcolon]

/-- The fields of a list are its short forms, whatever blanks stand before it. -/
theorem filterMap_splitOn_listText (hlead : ∀ c ∈ lead, Text.isBlank c = true)
    (aliases : List UnitAlias) :
    ((lead ++ (listText aliases).toList).splitOn ',').filterMap unitOf? =
      aliases.map UnitAlias.entry := by
  induction aliases generalizing lead with
  | nil =>
    have hnil : (listText []).toList = [] := rfl
    have hcomma : ',' ∉ lead := not_mem_of_isBlank hlead (by decide)
    rw [hnil, List.append_nil, List.splitOn_eq_singleton hcomma,
      List.filterMap_cons_none (unitOf?_of_isBlank hlead)]
    rfl
  | cons a aliases ih =>
    have hfield := comma_not_mem_field hlead a
    cases aliases with
    | nil =>
      have hsingle : listText [a] = a.text := rfl
      rw [hsingle, List.splitOn_eq_singleton hfield,
        List.filterMap_cons_some (unitOf?_text hlead a)]
      rfl
    | cons b aliases =>
      -- behind the comma the rest of the list comes, with a blank before it
      have hblank : ∀ c ∈ [' '], Text.isBlank c = true :=
        List.forall_mem_cons.2 ⟨rfl, List.forall_mem_nil _⟩
      have hmore : (listText (a :: b :: aliases)).toList =
          a.text.toList ++ ',' :: ([' '] ++ (listText (b :: aliases)).toList) := by
        have hjoin : listText (a :: b :: aliases) = a.text ++ ", " ++ listText (b :: aliases) :=
          String.intercalate_cons_cons
        rw [hjoin, String.toList_append, String.toList_append, List.append_assoc]
        rfl
      rw [hmore, ← List.append_assoc, List.splitOn_append_cons_self_of_not_mem hfield,
        List.filterMap_cons_some (unitOf?_text hlead a), ih hblank]
      rfl

/-! ### Both spellings -/

theorem find?_map_entry (aliases : List UnitAlias) (name : String) :
    Table.find? (aliases.map UnitAlias.entry) name =
      (aliases.find? fun a => a.short = name).map fun a => Json.string a.unit := by
  induction aliases with
  | nil => rfl
  | cons a aliases ih =>
    rw [List.map_cons, List.find?_cons, UnitAlias.entry, Table.find?, ih]
    by_cases hname : a.short = name
    · rw [if_pos hname, decide_eq_true hname]
      rfl
    · rw [if_neg hname, decide_eq_false hname]

/-- **Both spellings mean the same.** The comma list of any short forms gives what an object with
the same entries gives. First come the four short forms that are known anyway, then the others in
the order in which they first came; each stands for the last unit that is written for it, else for
the unit that is known. -/
theorem units_listText (aliases : List UnitAlias) :
    let entries := Table.ofEntries (aliases.map UnitAlias.entry)
    units (some (.string (listText aliases))) = units (some (.object entries)) ∧
    ∃ table, units (some (.string (listText aliases))) = .object table ∧
      Table.keys table = ["e", "p", "x", "r"] ++
        ((aliases.map UnitAlias.short).filter fun short => short ∉ ["e", "p", "x", "r"]).eraseDups ∧
      ∀ short, Table.find? table short =
        ((aliases.reverse.find? fun a => a.short = short).map fun a => Json.string a.unit).or
          (Table.find? defaultUnits short) := by
  intro entries
  have hknown : (Table.keys defaultUnits).Nodup := by decide
  have hlist : units (some (.string (listText aliases))) =
      .object (Table.overlay defaultUnits (aliases.map UnitAlias.entry)) := by
    have hread := filterMap_splitOn_listText (List.forall_mem_nil _) aliases
    rw [List.nil_append] at hread
    rw [units, hread]
  have hobject : units (some (.object entries)) =
      .object (Table.overlay defaultUnits (aliases.map UnitAlias.entry)) := by
    rw [units, Table.overlay_ofEntries hknown]
  refine ⟨hlist.trans hobject.symm, _, hlist, ?_, fun short => ?_⟩
  · have hkeys : Table.keys (aliases.map UnitAlias.entry) = aliases.map UnitAlias.short := by
      rw [Table.keys, List.map_map]
      rfl
    rw [Table.keys_overlay_eraseDups, hkeys]
    rfl
  · rw [Table.find?_overlay_reverse, ← List.map_reverse, find?_map_entry]

/-- A short form that is known is written over in its place, and so is a repeated one. -/
example : units (some (.string (listText [{ short := "v", unit := "vh" },
    { short := "p", unit := "pt" }, { short := "v", unit := "a:b" }]))) =
      .object [("e", .string "em"), ("p", .string "pt"), ("x", .string "ex"), ("r", .string "rem"),
        ("v", .string "a:b")] := rfl

end Emmet.ExpansionOptions
