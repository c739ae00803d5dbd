import Emmet.Proofs.Json.Compact
import Emmet.Settings.Basic

/-!
# Settings survive a round trip

Settings that are written and read again are the same in every field, with the same order of their
entries. What is read fits into what a reader accepts, so a document that is read once can be
written and read again.

* `NamesOnce` : no table of the settings has two entries of one name;
* `Field.toJson`, `Field.copy` : a field as it is written, and what reading it changes;
* `runs_readMember` : reading the members of written settings copies one field after another;
* `ofJson_toJson` : written settings are read back;
* `Fits`, `fits_of_parse` : settings that are read name their entries once, are not nested too
  deeply, and have whole numbers in range;
* `roundTrip` : both together, for the value that is written and for every text that spells it.
-/

namespace Emmet

theorem Offer.ofName?_name (o : Offer) : ofName? o.name = some o := by
  cases o with
  | always => rfl
  | never => rfl
  | inMarkupAndStylesheets => rfl

namespace Settings

open Json (Fault Reader Spells Token)
open Json.Reader (Reads Runs Gives)

variable {s t : Settings} {limit : Nat}

/-- The tables of settings name each of their entries once. -/
structure NamesOnce (s : Settings) : Prop where
  profiles : (Json.object s.profiles).NamesOnce
  preferences : (Json.object s.preferences).NamesOnce
  bindings : (Table.keys s.bindings).Nodup

/-! ### Fields -/

/-- The written value of a field. -/
def Field.toJson (s : Settings) : Field → Json
  | offer => .string s.offer.name
  | suggestions => .bool s.suggestions
  | asSnippets => .bool s.asSnippets
  | profiles => .object s.profiles
  | preferences => .object s.preferences
  | bindings => .object (s.bindings.map fun e => (e.1, .string e.2))
  | excluded => Json.strings s.excluded
  | paths => Json.strings s.paths

/-- Settings with the value of one field from others. -/
def Field.copy (source target : Settings) : Field → Settings
  | offer => { target with offer := source.offer }
  | suggestions => { target with suggestions := source.suggestions }
  | asSnippets => { target with asSnippets := source.asSnippets }
  | profiles => { target with profiles := source.profiles }
  | preferences => { target with preferences := source.preferences }
  | bindings => { target with bindings := source.bindings }
  | excluded => { target with excluded := source.excluded }
  | paths => { target with paths := source.paths }

theorem Field.ofName?_name (f : Field) : ofName? f.name = some f := by
  cases f <;> decide

theorem toJson_eq (s : Settings) :
    s.toJson = .object (Field.all.map fun f => (f.name, f.toJson s)) := by
  simp only [toJson, Field.all, Field.toJson, Field.name, List.map_cons, List.map_nil]

/-- Whatever settings it starts from, copying all fields gives the source. -/
theorem foldl_copy (s t : Settings) : Field.all.foldl (fun t f => f.copy s t) t = s := by
  simp only [Field.all, List.foldl_cons, List.foldl_nil, Field.copy]

/-! ### Reading a field -/

theorem reads_store {α : Type} {read : Reader α} {write : α → Settings} {ts : List Token} {x : α}
    (h : read.Reads ts x) : (store read write).Reads ts (write x) := by
  intro rest
  rw [store, h]
  rfl

theorem reads_offer (o : Offer) : (readOffer limit).Reads (Json.tokens (.string o.name)) o := by
  intro rest
  change offerNamed (o.name, rest) = _
  rw [offerNamed, Offer.ofName?_name]

theorem reads_string (text : String) :
    Reader.string.Reads (Json.tokens (.string text)) text := fun _ => rfl

theorem reads_boolean (b : Bool) : Reader.boolean.Reads (Json.tokens (.bool b)) b := fun _ => rfl

theorem namesOnce_strings (texts : List String) : (Json.strings texts).NamesOnce := by
  refine .array fun x hx => ?_
  obtain ⟨text, -, rfl⟩ := List.mem_map.1 hx
  exact .string text

theorem pathsOf_strings (paths : List String) : pathsOf (Json.strings paths) = .ok paths := by
  have hpaths : (paths.map Json.string).mapM Json.string? = some paths := by
    induction paths with
    | nil => rfl
    | cons path paths ih => rw [List.map_cons, List.mapM_cons, ih]; rfl
  rw [Json.strings, pathsOf, hpaths]

theorem reads_paths {paths : List String} (hdepth : (Json.strings paths).depth ≤ limit) :
    (readPaths limit).Reads (Json.strings paths).tokens paths := by
  intro rest
  have hvalue := Json.Reader.reads_value (namesOnce_strings paths) hdepth rest
  simp only [readPaths, hvalue, ok_bind, pathsOf_strings]
  rfl

theorem reads_bindings {bindings : Table String} (h : (Table.keys bindings).Nodup)
    (hdepth : (Json.object (bindings.map fun e => (e.1, .string e.2))).depth ≤ limit) :
    (Reader.table (fun _ => Reader.string) limit).Reads
      (Json.tokens (.object (bindings.map fun e => (e.1, .string e.2)))) bindings := by
  obtain ⟨limit, rfl⟩ := Nat.exists_eq_add_of_le' (Nat.le_trans (Nat.le_add_left 1 _) hdepth)
  exact Json.Reader.reads_table h fun e _ => reads_string e.2

theorem reads_excluded {texts : List String} (hdepth : (Json.strings texts).depth ≤ limit) :
    (Reader.list (fun _ => Reader.string) limit).Reads (Json.strings texts).tokens texts := by
  obtain ⟨limit, rfl⟩ := Nat.exists_eq_add_of_le' (Nat.le_trans (Nat.le_add_left 1 _) hdepth)
  exact Json.Reader.reads_list fun text _ => reads_string text

/-- Reading a written field copies it. -/
theorem reads_readField (h : s.NamesOnce) {f : Field} (hdepth : (f.toJson s).depth ≤ limit) :
    (readField limit t f).Reads (f.toJson s).tokens (f.copy s t) := by
  cases f
  all_goals unfold readField
  case offer => exact reads_store (reads_offer s.offer)
  case suggestions => exact reads_store (reads_boolean s.suggestions)
  case asSnippets => exact reads_store (reads_boolean s.asSnippets)
  case profiles => exact reads_store (Json.Reader.reads_table_value h.profiles hdepth)
  case preferences => exact reads_store (Json.Reader.reads_table_value h.preferences hdepth)
  case bindings => exact reads_store (reads_bindings h.bindings hdepth)
  case excluded => exact reads_store (reads_excluded hdepth)
  case paths => exact reads_store (reads_paths hdepth)

/-! ### Reading settings -/

/-- Reading the members of written settings copies their fields, each of which comes once. -/
theorem runs_readMember (h : s.NamesOnce) (hdepth : ∀ f : Field, (f.toJson s).depth ≤ limit)
    {fields : List Field} (hfields : fields.Nodup) (t : Settings) {seen : List Field}
    (hseen : ∀ f ∈ fields, f ∉ seen) :
    Runs (readMember limit) (t, seen) (fields.map fun f => (f.name, f.toJson s))
      (fields.foldl (fun t f => f.copy s t) t, fields.reverse ++ seen) := by
  induction fields generalizing t seen with
  | nil => exact .nil (t, seen)
  | cons f fields ih =>
    obtain ⟨hf, hfields⟩ := List.nodup_cons.1 hfields
    obtain ⟨hnew, hseen⟩ := List.forall_mem_cons.1 hseen
    have hlater : ∀ g ∈ fields, g ∉ f :: seen := by
      intro g hg hmem
      obtain rfl | hmem := List.mem_cons.1 hmem
      · exact hf hg
      · exact hseen g hg hmem
    have hmore := ih hfields (f.copy s t) hlater
    rw [List.map_cons, List.foldl_cons, List.reverse_cons, List.append_assoc]
    refine .cons (fun rest => ?_) hmore
    have hread := reads_readField (t := t) h (hdepth f) rest
    rw [List.cons_append]
    simp only [readMember, Field.ofName?_name, if_neg hnew, Reader.mark, if_true, ok_bind,
      hread]
    rfl

theorem depth_toJson_le_iff :
    s.toJson.depth ≤ limit + 1 ↔ ∀ f ∈ Field.all, (f.toJson s).depth ≤ limit := by
  rw [toJson_eq, Json.depth, Nat.add_le_add_iff_right, Json.memberDepth_le_iff, List.forall_mem_map]

theorem Field.mem_all (f : Field) : f ∈ all := by
  cases f <;> decide

theorem reads_read (h : s.NamesOnce) (hdepth : s.toJson.depth ≤ limit) :
    (read limit).Reads s.toJson.tokens s := by
  intro rest
  obtain ⟨limit, rfl⟩ := Nat.exists_eq_add_of_le' (Nat.le_trans (Nat.le_add_left 1 _) hdepth)
  have hfields := depth_toJson_le_iff.1 hdepth
  have hseen : ∀ f ∈ Field.all, f ∉ ([] : List Field) := fun _ _ => List.not_mem_nil
  have hrun := runs_readMember h (fun f => hfields f f.mem_all) (by decide) {} hseen
  rw [foldl_copy] at hrun
  have hread := hrun.reads_members rest
  rw [toJson_eq, Json.tokens_object, List.cons_append]
  simp only [read, hread]
  rfl

/-- Written settings are read back. -/
theorem ofJson_toJson (h : s.NamesOnce) : ofJson s.toJson = .ok s := by
  have hread := reads_read h (Nat.le_refl _) []
  rw [List.append_nil] at hread
  rw [ofJson, hread]
  rfl

/-! ### Settings that are read -/

/-- Settings whose tables are those of a document with a limit on its nesting. -/
structure Fits (limit : Nat) (s : Settings) : Prop where
  profiles : (Json.object s.profiles).Given limit
  preferences : (Json.object s.preferences).Given limit
  bindings : (Table.keys s.bindings).Nodup

theorem Fits.namesOnce (h : Fits limit s) : s.NamesOnce where
  profiles := h.profiles.namesOnce
  preferences := h.preferences.namesOnce
  bindings := h.bindings

theorem depth_strings_le (texts : List String) : (Json.strings texts).depth ≤ 1 := by
  refine Nat.succ_le_succ (Json.itemDepth_le_iff.2 fun x hx => ?_)
  obtain ⟨text, -, rfl⟩ := List.mem_map.1 hx
  exact Nat.le_refl 0

theorem depth_bindings_le (bindings : Table String) :
    (Json.object (bindings.map fun e => (e.1, .string e.2))).depth ≤ 1 := by
  refine Nat.succ_le_succ (Json.memberDepth_le_iff.2 fun e he => ?_)
  obtain ⟨binding, -, rfl⟩ := List.mem_map.1 he
  exact Nat.le_refl 0

theorem Fits.depth_toJson_le (h : Fits (limit + 1) s) : s.toJson.depth ≤ limit + 2 := by
  refine depth_toJson_le_iff.2 fun f _ => ?_
  have hone : 1 ≤ limit + 1 := Nat.le_add_left 1 limit
  cases f with
  | profiles => exact h.profiles.depth_le
  | preferences => exact h.preferences.depth_le
  | bindings => exact Nat.le_trans (depth_bindings_le s.bindings) hone
  | excluded => exact Nat.le_trans (depth_strings_le s.excluded) hone
  | paths => exact Nat.le_trans (depth_strings_le s.paths) hone
  | offer => exact Nat.zero_le _
  | suggestions => exact Nat.zero_le _
  | asSnippets => exact Nat.zero_le _

/-- Apart from its tables, the written value of settings has texts and truth values only. -/
theorem each_toJson {P : Json → Prop} (htext : ∀ text, P (.string text)) (hbool : ∀ b, P (.bool b))
    (hprofiles : (Json.object s.profiles).Each P)
    (hpreferences : (Json.object s.preferences).Each P) : s.toJson.Each P := by
  have hstrings (texts : List String) : (Json.strings texts).Each P := by
    refine .array fun x hx => ?_
    obtain ⟨text, -, rfl⟩ := List.mem_map.1 hx
    exact .scalar rfl (htext text)
  rw [toJson_eq]
  refine .object (List.forall_mem_map.2 fun f _ => ?_)
  cases f with
  | profiles => exact hprofiles
  | preferences => exact hpreferences
  | bindings =>
    refine .object fun e he => ?_
    obtain ⟨binding, -, rfl⟩ := List.mem_map.1 he
    exact .scalar rfl (htext binding.2)
  | excluded => exact hstrings s.excluded
  | paths => exact hstrings s.paths
  | offer => exact .scalar rfl (htext s.offer.name)
  | suggestions => exact .scalar rfl (hbool s.suggestions)
  | asSnippets => exact .scalar rfl (hbool s.asSnippets)

theorem fits_default (limit : Nat) : Fits (limit + 1) {} where
  profiles := .object List.nodup_nil nofun
  preferences := .object List.nodup_nil nofun
  bindings := List.nodup_nil

theorem gives_store {α : Type} {P : α → Prop} {Q : Settings → Prop} {read : Reader α}
    {write : α → Settings} (hread : Gives P read) (hwrite : ∀ x, P x → Q (write x)) :
    Gives Q (store read write) := by
  intro ts t rest hts h
  obtain ⟨⟨x, us⟩, hx, h⟩ := exists_of_map h
  cases h
  obtain ⟨hP, hus⟩ := hread _ _ _ hts hx
  exact ⟨hwrite x hP, hus⟩

theorem gives_boolean : Gives (fun _ => True) Reader.boolean := by
  intro ts b rest hts h
  unfold Reader.boolean at h
  split at h
  · cases h
    exact ⟨trivial, (List.forall_mem_cons.1 hts).2⟩
  · cases h

theorem gives_string : Gives (fun _ => True) Reader.string := by
  intro ts text rest hts h
  unfold Reader.string at h
  split at h
  · cases h
    exact ⟨trivial, (List.forall_mem_cons.1 hts).2⟩
  · cases h

theorem gives_nothing : Gives (fun _ => True) Reader.nothing := by
  intro ts u rest hts h
  unfold Reader.nothing at h
  split at h
  · cases h
    exact ⟨trivial, (List.forall_mem_cons.1 hts).2⟩
  · cases h

theorem sound_of_offerNamed {name : String} {o : Offer} {ts rest : List Token}
    (hts : ∀ t ∈ ts, t.IsSound) (h : offerNamed (name, ts) = .ok (o, rest)) :
    ∀ t ∈ rest, t.IsSound := by
  unfold offerNamed at h
  split at h
  · cases h
    exact hts
  · cases h

theorem gives_offer : Gives (fun _ => True) (readOffer limit) := by
  intro ts o rest hts h
  unfold readOffer at h
  -- an object with the name, or the name; everything else is refused
  split at h
  · split at h
    · cases h
    · have hts := (List.forall_mem_cons.1 hts).2
      obtain ⟨⟨o', us⟩, hoffer, h⟩ := exists_of_bind h
      obtain ⟨⟨name, us'⟩, hname, hoffer⟩ := exists_of_bind hoffer
      obtain ⟨vs, hcolon, h⟩ := exists_of_bind h
      obtain ⟨⟨u, vs'⟩, hnothing, h⟩ := exists_of_bind h
      obtain ⟨ws, hbrace, h⟩ := exists_of_bind h
      cases h
      have hus := sound_of_offerNamed (Json.Reader.sound_of_name hts hname) hoffer
      have hvs := (gives_nothing _ _ _ (Json.Reader.sound_of_mark hus hcolon) hnothing).2
      exact ⟨trivial, Json.Reader.sound_of_mark hvs hbrace⟩
  · exact ⟨trivial, sound_of_offerNamed (List.forall_mem_cons.1 hts).2 h⟩
  · cases h
  · cases h
  · cases h

theorem gives_paths : Gives (fun _ => True) (readPaths limit) := by
  intro ts paths rest hts h
  obtain ⟨⟨v, us⟩, hv, h⟩ := exists_of_bind h
  obtain ⟨read, -, h⟩ := exists_of_bind h
  cases h
  exact ⟨trivial, (Json.Reader.gives_value limit _ _ _ hts hv).2⟩

theorem gives_tableOfValues (limit : Nat) :
    Gives (fun t => (Json.object t).Given (limit + 1)) (Reader.table Reader.value (limit + 1)) := by
  intro ts t rest hts h
  obtain ⟨⟨hkeys, hvalues⟩, hrest⟩ :=
    Json.Reader.gives_table limit (Json.Reader.gives_value limit) _ _ _ hts h
  exact ⟨.object hkeys hvalues, hrest⟩

theorem gives_readField (h : Fits (limit + 1) s) (f : Field) :
    Gives (Fits (limit + 1)) (readField (limit + 1) s f) := by
  cases f
  all_goals unfold readField
  case offer => exact gives_store gives_offer fun _ _ => { h with }
  case suggestions => exact gives_store gives_boolean fun _ _ => { h with }
  case asSnippets => exact gives_store gives_boolean fun _ _ => { h with }
  case profiles =>
    exact gives_store (gives_tableOfValues limit) fun t ht =>
      { h with profiles := ht }
  case preferences =>
    exact gives_store (gives_tableOfValues limit) fun t ht =>
      { h with preferences := ht }
  case bindings =>
    exact gives_store (Json.Reader.gives_table limit gives_string) fun t ht =>
      { h with bindings := ht.1 }
  case excluded =>
    exact gives_store (Json.Reader.gives_list limit gives_string) fun _ _ => { h with }
  case paths => exact gives_store gives_paths fun _ _ => { h with }

theorem gives_readMember (state : Settings × List Field) (name : String)
    (h : Fits (limit + 1) state.1) :
    Gives (fun state => Fits (limit + 1) state.1) (readMember (limit + 1) state name) := by
  intro ts state' rest hts hread
  unfold readMember at hread
  -- a field that came before, a new one, or a name that is passed over
  split at hread
  · split at hread
    · cases hread
    · obtain ⟨us, hcolon, hread⟩ := exists_of_bind hread
      obtain ⟨⟨t, vs⟩, ht, hread⟩ := exists_of_bind hread
      cases hread
      exact gives_readField h _ _ _ _ (Json.Reader.sound_of_mark hts hcolon) ht
  · obtain ⟨us, hcolon, hread⟩ := exists_of_bind hread
    obtain ⟨⟨u, vs⟩, hskip, hread⟩ := exists_of_bind hread
    cases hread
    exact ⟨h, Json.Reader.sound_of_skip (Json.Reader.sound_of_mark hts hcolon) hskip⟩

theorem gives_readItems (first : Bool) (fields : List Field) (h : Fits (limit + 1) s) :
    Gives (Fits (limit + 1)) (readItems (limit + 1) first fields s) := by
  induction fields generalizing first s with
  | nil =>
    intro ts t rest hts hread
    obtain ⟨us, hbracket, hread⟩ := exists_of_bind hread
    cases hread
    exact ⟨h, Json.Reader.sound_of_mark hts hbracket⟩
  | cons f fields ih =>
    intro ts t rest hts hread
    unfold readItems at hread
    -- the array ends here, or a field comes, behind a comma if it is not the first
    split at hread
    · next heq => cases heq
    · cases hread
      exact ⟨h, (List.forall_mem_cons.1 hts).2⟩
    · next heq _ =>
      cases heq
      obtain ⟨⟨t', us⟩, ht', hread⟩ := exists_of_bind hread
      obtain ⟨hfits, hus⟩ := gives_readField h _ _ _ _ hts ht'
      exact ih _ hfits _ _ _ hus hread
    · next heq _ =>
      cases heq
      obtain ⟨us, hcomma, hread⟩ := exists_of_bind hread
      obtain ⟨⟨t', vs⟩, ht', hread⟩ := exists_of_bind hread
      obtain ⟨hfits, hvs⟩ :=
        gives_readField h _ _ _ _ (Json.Reader.sound_of_mark hts hcomma) ht'
      exact ih _ hfits _ _ _ hvs hread

/-- Both forms of settings give settings that fit. -/
theorem gives_read (limit : Nat) : Gives (Fits (limit + 1)) (read (limit + 2)) := by
  intro ts s rest hts h
  have hdefault := fits_default limit
  unfold read at h
  split at h
  · obtain ⟨⟨⟨t, seen⟩, us⟩, hmembers, h⟩ := exists_of_map h
    cases h
    have hgives : Gives (fun state => Fits (limit + 1) state.1)
        (Reader.members (readMember (limit + 1)) ({}, [])) :=
      Json.Reader.gives_members gives_readMember hdefault
    exact hgives _ _ _ (List.forall_mem_cons.1 hts).2 hmembers
  · exact gives_readItems true Field.all hdefault _ _ _ (List.forall_mem_cons.1 hts).2 h
  · cases h

/-- The nesting of a document leaves room for the settings that it holds: their tables stand in an
object or in an array. -/
theorem fits_of_parse {text : String} (h : parse text = .ok s) :
    Fits 126 s :=
  Json.Reader.gives_document (gives_read 125) h

/-! ### Writing and reading again -/

theorem parse_of_spells {text : String} (h : s.NamesOnce)
    (hdepth : s.toJson.depth ≤ Json.nestingLimit) (htext : Spells text s.toJson) :
    parse text = .ok s := by
  have hread := reads_read h hdepth []
  rw [List.append_nil] at hread
  rw [parse, Reader.document, htext, hread]
  rfl

theorem Fits.spells_compact (h : Fits limit s) (hfloat : s.toJson.Each Json.ReadsBack) :
    Spells s.toJson.compact s.toJson := by
  have hrange := each_toJson (fun _ => trivial) (fun _ => trivial) h.profiles.inRange
    h.preferences.inRange
  exact Json.spells_compact hrange hfloat

/-- **Settings survive a round trip.** Settings are read back from the value that they are written
as; and settings that a text holds are read back from that value and from every text that spells
it. The text that they are written as does, as far as its floats are read back. -/
theorem roundTrip :
    (∀ s : Settings, s.NamesOnce → ofJson s.toJson = .ok s) ∧
    ∀ text s, parse text = .ok s → ofJson s.toJson = .ok s ∧
      (∀ again, Spells again s.toJson → parse again = .ok s) ∧
      (s.toJson.Each Json.ReadsBack → parse s.toJson.compact = .ok s) := by
  refine ⟨fun s h => ofJson_toJson h, fun text s hs => ?_⟩
  have hfits := fits_of_parse hs
  have hagain (again : String) (htext : Spells again s.toJson) : parse again = .ok s :=
    parse_of_spells hfits.namesOnce hfits.depth_toJson_le htext
  refine ⟨ofJson_toJson hfits.namesOnce, hagain, fun hfloat => ?_⟩
  exact hagain _ (hfits.spells_compact hfloat)

/-- A variable comes twice, and a directory stands for the list of it. -/
def repeatedVariable : String :=
  "\x7b\"variables\": \x7b\"lang\": \"de\", \"x\": \"1\", \"lang\": \"en\"\x7d, " ++
    "\"extensionsPath\": \"conf\"\x7d"

theorem roundTrip_repeatedVariable :
    (∃ s, parse repeatedVariable = .ok s ∧ s.bindings = [("lang", "en"), ("x", "1")] ∧
      s.paths = ["conf"] ∧ ofJson s.toJson = .ok s ∧ parse s.toJson.compact = .ok s) ∧
    ofJson (toJson { bindings := [("x", "1"), ("lang", "en")], paths := [" "] }) =
      .ok { bindings := [("x", "1"), ("lang", "en")], paths := [" "] } := by
  have hempty : (Json.object []).NamesOnce := .object List.nodup_nil nofun
  refine ⟨?_, roundTrip.1 _ ⟨hempty, hempty, by decide⟩⟩
  cases hparse : parse repeatedVariable with
  | error e =>
    have hok : (parse repeatedVariable).isOk = true := by decide +kernel
    rw [hparse] at hok
    cases hok
  | ok s =>
    have hfields : (parse repeatedVariable).toOption.map
        (fun s => (s.bindings, s.paths, s.profiles.isEmpty, s.preferences.isEmpty)) =
        some ([("lang", "en"), ("x", "1")], ["conf"], true, true) := by decide +kernel
    rw [hparse] at hfields
    have hfields := Option.some.inj hfields
    have hbindings : s.bindings = [("lang", "en"), ("x", "1")] := congrArg (·.1) hfields
    have hpaths : s.paths = ["conf"] := congrArg (·.2.1) hfields
    have hprofiles : s.profiles = [] := List.isEmpty_iff.1 (congrArg (·.2.2.1) hfields)
    have hpreferences : s.preferences = [] := List.isEmpty_iff.1 (congrArg (·.2.2.2) hfields)
    have hfloat : s.toJson.Each Json.ReadsBack := by
      refine each_toJson (fun _ => trivial) (fun _ => trivial) ?_ ?_
      · rw [hprofiles]
        exact .object nofun
      · rw [hpreferences]
        exact .object nofun
    obtain ⟨hvalue, -, htext⟩ := roundTrip.2 _ s hparse
    exact ⟨s, rfl, hbindings, hpaths, hvalue, htext hfloat⟩

end Settings

end Emmet
