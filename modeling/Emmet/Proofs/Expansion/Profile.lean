import Emmet.Proofs.Table.Repeated
import Emmet.Settings.Profile

/-!
# Profiles have current names

An option of a profile may be written under the name that it has or under the one that it had, and
under both, in any order. This file says what becomes of the entries of a profile.

* `renamings` : the names that options had, with those that they have;
* `Modernizes` : an option has the current value of its last entry, at the place of the first one,
  and what is no option stays as it is;
* `modernize_eq_self` : a profile that has current names only is kept;
* `modernize_normal` : every profile gets current names, and giving them again changes nothing.

No name is both a former and a current one, so no entry is renamed twice, and the values under
current names are never looked into.
-/

namespace Emmet.Profile

variable {key name : String} {entry : String × Json}

/-! ### Names -/

/-- The names that options had, with those that they have. -/
def renamings : Table String :=
  [("tag_case", "tagCase"), ("attr_case", "attributeCase"), ("attr_quotes", "attributeQuotes"),
   ("tag_nl", "format"), ("inline_break", "inlineBreak"), ("self_closing_tag", "selfClosingStyle"),
   ("compact_bool", "compactBooleanAttributes")]

/-- The names that options had. -/
def formerNames : List String := Table.keys renamings

/-- A name that no option has or had. -/
def isUnknown (name : String) : Bool :=
  !(formerNames.contains name || (renamings.map Prod.snd).contains name)

theorem currentName?_eq_find? (key : String) : currentName? key = Table.find? renamings key := by
  simp only [renamings, Table.find?_cons, Table.find?_nil]
  rfl

theorem currentName?_isSome_iff : (currentName? key).isSome = true ↔ key ∈ formerNames := by
  rw [currentName?_eq_find?, Table.find?_isSome_iff, formerNames]

theorem currentName?_eq_none (h : key ∉ formerNames) : currentName? key = none := by
  rwa [← Option.not_isSome_iff_eq_none, currentName?_isSome_iff]

/-- An option that has a new name never had it before. -/
theorem not_mem_formerNames (h : currentName? key = some name) :
    name ∉ formerNames ∧ name ∈ renamings.map Prod.snd := by
  have hnodup : (Table.keys renamings).Nodup := by decide
  have hall : ∀ e ∈ renamings, e.2 ∉ formerNames := by decide
  rw [currentName?_eq_find?, Table.find?_eq_some_iff hnodup] at h
  exact ⟨hall _ h, List.mem_map.2 ⟨_, h, rfl⟩⟩

/-! ### Entries -/

/-- The value under a current name is kept. -/
theorem currentValue_eq_self (h : key ∉ formerNames) (value : Json) :
    currentValue key value = value := by
  have hne : ∀ former ∈ formerNames, key ≠ former := fun _ hformer heq => h (heq ▸ hformer)
  have htag : ¬ (key = "tag_case" ∨ key = "attr_case") :=
    not_or.2 ⟨hne _ (by decide), hne _ (by decide)⟩
  unfold currentValue
  rw [if_neg htag, if_neg (hne _ (by decide)), if_neg (hne _ (by decide))]

theorem currentEntry_eq_self (h : entry.1 ∉ formerNames) : currentEntry entry = entry := by
  rw [currentEntry, currentName?_eq_none h, currentValue_eq_self h]
  rfl

/-- An entry stays as it is, or it gets a name that no option had before. -/
theorem currentEntry_cases (entry : String × Json) :
    (entry.1 ∉ formerNames ∧ currentName? entry.1 = none ∧ currentEntry entry = entry) ∨
    ∃ current, entry.1 ∈ formerNames ∧ currentName? entry.1 = some current ∧
      (currentEntry entry).1 = current ∧ current ∉ formerNames ∧
        current ∈ renamings.map Prod.snd := by
  by_cases hkey : entry.1 ∈ formerNames
  · obtain ⟨current, hname⟩ := Option.isSome_iff_exists.1 (currentName?_isSome_iff.2 hkey)
    have hfst : (currentEntry entry).1 = current := by
      rw [currentEntry, hname]
      rfl
    exact .inr ⟨current, hkey, hname, hfst, not_mem_formerNames hname⟩
  · exact .inl ⟨hkey, currentName?_eq_none hkey, currentEntry_eq_self hkey⟩

theorem fst_currentEntry_not_mem (entry : String × Json) :
    (currentEntry entry).1 ∉ formerNames := by
  obtain ⟨hkey, -, hsame⟩ | ⟨current, -, -, hfst, hcurrent, -⟩ := currentEntry_cases entry
  · rwa [hsame]
  · rwa [hfst]

/-- An entry is one for an option if it is written under its name or under the one that it had. -/
theorem fst_currentEntry_eq_iff (h : name ∉ formerNames) :
    (currentEntry entry).1 = name ↔ entry.1 = name ∨ currentName? entry.1 = some name := by
  obtain ⟨-, hname, hsame⟩ | ⟨current, hkey, hname, hfst, -⟩ := currentEntry_cases entry
  · simp [hname, hsame]
  · have hne : entry.1 ≠ name := fun heq => h (heq ▸ hkey)
    simp [hname, hfst, hne]

theorem isUnknown_eq_false (h : name ∈ formerNames ∨ name ∈ renamings.map Prod.snd) :
    isUnknown name = false := by
  rw [isUnknown, Bool.not_eq_false', Bool.or_eq_true, List.contains_iff_mem,
    List.contains_iff_mem]
  exact h

theorem isUnknown_currentEntry (entry : String × Json) :
    isUnknown (currentEntry entry).1 = isUnknown entry.1 := by
  obtain ⟨-, -, hsame⟩ | ⟨current, hkey, -, hfst, -, hcurrent⟩ := currentEntry_cases entry
  · rw [hsame]
  · rw [hfst, isUnknown_eq_false (.inl hkey), isUnknown_eq_false (.inr hcurrent)]

/-! ### Profiles -/

/-- The last entry for an option. -/
def lastFor? (entries : Table Json) (name : String) : Option (String × Json) :=
  entries.reverse.find? fun e => e.1 = name ∨ currentName? e.1 = some name

/-- What a profile with current names has of the entries as they are written. -/
structure Modernizes (entries modern : Table Json) : Prop where
  /-- An option has the current value of its last entry. -/
  find?_eq : ∀ name ∉ formerNames, Table.find? modern name =
    (lastFor? entries name).map fun e => currentValue e.1 e.2
  /-- The options stand in the order of their first entries. -/
  keys_eq : Table.keys modern = (entries.map fun e => (currentName? e.1).getD e.1).eraseDups
  /-- What is no option stays as it is, and in its order. -/
  filter_eq : (Table.keys entries).Nodup →
    modern.filter (isUnknown ·.1) = entries.filter (isUnknown ·.1)

theorem find?_map_currentEntry (h : name ∉ formerNames) (entries : List (String × Json)) :
    Table.find? (entries.map currentEntry) name =
      (entries.find? fun e => e.1 = name ∨ currentName? e.1 = some name).map
        fun e => currentValue e.1 e.2 := by
  induction entries with
  | nil => rfl
  | cons e entries ih =>
    rw [List.map_cons, List.find?_cons, Table.find?, ih]
    by_cases hkey : e.1 = name ∨ currentName? e.1 = some name
    · rw [if_pos ((fst_currentEntry_eq_iff h).2 hkey), decide_eq_true hkey]
      rfl
    · rw [if_neg fun hcurrent => hkey ((fst_currentEntry_eq_iff h).1 hcurrent),
        decide_eq_false hkey]

theorem filter_map_currentEntry (entries : List (String × Json)) :
    (entries.map currentEntry).filter (isUnknown ·.1) = entries.filter (isUnknown ·.1) := by
  induction entries with
  | nil => rfl
  | cons e entries ih =>
    rw [List.map_cons, List.filter_cons, List.filter_cons, isUnknown_currentEntry, ih]
    split
    · next hunknown =>
      have hkey : e.1 ∉ formerNames := by
        intro hmem
        rw [isUnknown_eq_false (.inl hmem)] at hunknown
        cases hunknown
      rw [currentEntry_eq_self hkey]
    · rfl

theorem modernizes_ofEntries (entries : Table Json) :
    Modernizes entries (Table.ofEntries (entries.map currentEntry)) where
  find?_eq name hname := by
    rw [Table.ofEntries, Table.find?_overlay_reverse, Table.find?_nil, Option.or_none,
      ← List.map_reverse, find?_map_currentEntry hname, lastFor?]
  keys_eq := by
    rw [Table.keys_ofEntries, Table.keys, List.map_map]
    rfl
  filter_eq hnodup := by
    have hsublist : (entries.filter (isUnknown ·.1)).Sublist entries := List.filter_sublist
    have hkeys : (Table.keys (entries.filter (isUnknown ·.1))).Nodup :=
      hnodup.sublist (hsublist.map Prod.fst)
    rw [Table.ofEntries, Table.filter_overlay, filter_map_currentEntry]
    exact Table.ofEntries_eq_self hkeys

/-- What is no option is found as it is written. -/
theorem find?_ofEntries_currentEntry (h : isUnknown name = true) (entries : Table Json) :
    Table.find? (Table.ofEntries (entries.map currentEntry)) name =
      Table.find? (Table.ofEntries entries) name := by
  have hunknown (t : Table Json) : Table.find? (t.filter (isUnknown ·.1)) name =
      Table.find? t name := by rw [Table.find?_filter, if_pos h]
  rw [← hunknown, ← hunknown (Table.ofEntries entries), Table.ofEntries, Table.ofEntries,
    Table.filter_overlay, Table.filter_overlay, filter_map_currentEntry]

/-- A profile that has current names only, each once, is kept. -/
theorem modernize_eq_self {modern : Table Json} (hnodup : (Table.keys modern).Nodup)
    (hcurrent : ∀ name ∈ Table.keys modern, name ∉ formerNames) :
    modernize (.object modern) = pure modern := by
  have hsame : ∀ e ∈ modern, currentEntry e = id e := fun e he =>
    currentEntry_eq_self (hcurrent e.1 (List.mem_map_of_mem he))
  have hmap : modern.map currentEntry = modern := by
    rw [List.map_congr_left hsame, List.map_id]
  rw [modernize, hmap, Table.ofEntries_eq_self hnodup]

/-- The names of a profile are current ones, and each comes once. -/
theorem keys_modernize (profile : Json) :
    (Table.keys (modernize profile).value).Nodup ∧
      ∀ name ∈ Table.keys (modernize profile).value, name ∉ formerNames := by
  have hnil : (Table.keys ([] : Table Json)).Nodup ∧
      ∀ name ∈ Table.keys ([] : Table Json), name ∉ formerNames := ⟨List.nodup_nil, nofun⟩
  unfold modernize
  split
  · next entries =>
    refine ⟨Table.keys_ofEntries_nodup _, fun name hname => ?_⟩
    rw [Traced.value_pure, Table.keys_ofEntries, List.mem_eraseDups, Table.keys,
      List.map_map] at hname
    obtain ⟨entry, -, rfl⟩ := List.mem_map.1 hname
    exact fst_currentEntry_not_mem entry
  · split
    · exact ⟨by decide, by decide⟩
    · exact hnil
  · exact hnil

/-- **Profiles get current names.** Whatever a profile holds, no option has a former name afterwards.
Of an object each option has the current value of its last entry, at the place of its first one, and
nothing else is lost, changed or moved. Once a profile has current names, giving them again changes
nothing and has nothing to report. -/
theorem modernize_normal (profile : Json) :
    let modern := (modernize profile).value
    (∀ name ∈ ["tag_case", "attr_case", "attr_quotes", "tag_nl", "inline_break",
      "self_closing_tag", "compact_bool"], name ∉ Table.keys modern) ∧
    (∀ entries, profile = .object entries → Modernizes entries modern) ∧
    modernize (.object modern) = pure modern := by
  intro modern
  obtain ⟨hnodup, hcurrent⟩ := keys_modernize profile
  refine ⟨fun name hname hmem => hcurrent name hmem hname, ?_, modernize_eq_self hnodup hcurrent⟩
  rintro entries rfl
  exact modernizes_ofEntries entries

/-- The last one of two entries for an option counts, under whichever name, and the first one has
the place. -/
example : (modernize (.object [("tagCase", .string "lower"), ("filters", .string "c"),
    ("tag_case", .string "upper")])).value =
      [("tagCase", .string "upper"), ("filters", .string "c")] := rfl

end Emmet.Profile
