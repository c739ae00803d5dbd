import Emmet.Library.Basic
import Emmet.Proofs.Json.Names

/-!
# Snippets of the base dialect

A document writes snippets for each dialect, and a dialect has those of the base dialect of its
family, too. This file says what a library finds under a key, by the document alone.

* `textAt?`, `textKeys` : the texts that a document writes for a dialect;
* `inherited_eq_map`, `find?_inherited`, `keys_inherited` : what a dialect has with those of the
  base dialect;
* `snippetsFor?_ofDocuments` : what a dialect finds, in which order it lists its keys, and that the
  order in which dialects are visited does not matter.

The documents name every entry once, which is so for every text that is read
(`Json.namesOnce_of_parse`).
-/

namespace Emmet.Library

/-- The snippets as a document writes them for a dialect. -/
def writtenFor? (root : Table Json) (dialect : String) : Option (Table Json) :=
  (Table.find? root dialect).bind fun entry => objectAt? entry "snippets"

/-- The texts among some entries. -/
def textsOf (entries : Table Json) : Table String :=
  entries.filterMap fun e => e.2.string?.map (e.1, ·)

/-- The text that a document writes under a key for a dialect. -/
def textAt? (root : Table Json) (dialect key : String) : Option String :=
  (writtenFor? root dialect).bind fun entries => (Table.find? entries key).bind Json.string?

/-- The keys under which a document writes texts for a dialect, in order. -/
def textKeys (root : Table Json) (dialect : String) : List String :=
  Table.keys (((writtenFor? root dialect).map textsOf).getD [])

/-- What a text stands for in a dialect: in markup, a text in angle brackets becomes a text node. -/
def readIn (dialect text : String) : String :=
  if Dialect.isStylesheet dialect = false ∧ text.toList.head? = some '<' ∧
      text.toList.getLast? = some '>' then
    "\x7b" ++ text ++ "\x7d"
  else text

variable {root : Table Json} {own : Table (Table String)} {snippets : Table String}
  {dialect key : String}

theorem namesOnce_of_objectAt? {value : Json} {entries : Table Json} (h : value.NamesOnce)
    (hentries : objectAt? value key = some entries) : (Json.object entries).NamesOnce := by
  obtain ⟨inner, hinner, hobject⟩ := Option.bind_eq_some_iff.1 hentries
  obtain ⟨outer, houter, hfind⟩ := Option.bind_eq_some_iff.1 hinner
  cases value <;> cases houter
  have hinner := h.of_find? hfind
  cases inner <;> cases hobject
  exact hinner

theorem namesOnce_of_writtenFor? (h : (Json.object root).NamesOnce) {entries : Table Json}
    (hentries : writtenFor? root dialect = some entries) : (Json.object entries).NamesOnce := by
  obtain ⟨entry, hentry, hobject⟩ := Option.bind_eq_some_iff.1 hentries
  exact namesOnce_of_objectAt? (h.of_find? hentry) hobject

/-! ### What each dialect has of its own -/

theorem value_textEntries (part : String) (entries : Table Json) :
    (textEntries part entries).value = textsOf entries := by
  rw [textEntries, Traced.value_filterMap, textsOf]
  congr 1
  funext e
  cases e.2 <;> rfl

theorem value_ownSnippets (root : Table Json) : (ownSnippets root).value =
    root.filterMap fun e => ((objectAt? e.2 "snippets").map textsOf).map (e.1, ·) := by
  rw [ownSnippets, Traced.value_filterMap]
  congr 1
  funext e
  cases objectAt? e.2 "snippets" with
  | none => rfl
  | some entries => simp [value_textEntries]

theorem find?_ownSnippets (h : (Table.keys root).Nodup) (dialect : String) :
    Table.find? (ownSnippets root).value dialect = (writtenFor? root dialect).map textsOf := by
  rw [value_ownSnippets,
    Table.find?_filterMap h fun value => (objectAt? value "snippets").map textsOf, writtenFor?,
    Option.map_bind]
  rfl

theorem keys_ownSnippets_nodup (h : (Table.keys root).Nodup) :
    (Table.keys (ownSnippets root).value).Nodup := by
  rw [value_ownSnippets]
  exact (Table.keys_filterMap_sublist root
    fun value => (objectAt? value "snippets").map textsOf).nodup h

theorem keys_textsOf_nodup {entries : Table Json} (h : (Table.keys entries).Nodup) :
    (Table.keys (textsOf entries)).Nodup :=
  (Table.keys_filterMap_sublist entries Json.string?).nodup h

theorem keys_own_nodup (h : (Json.object root).NamesOnce)
    (hsnippets : Table.find? (ownSnippets root).value dialect = some snippets) :
    (Table.keys snippets).Nodup := by
  rw [find?_ownSnippets h.keys_nodup] at hsnippets
  obtain ⟨entries, hentries, rfl⟩ := Option.map_eq_some_iff.1 hsnippets
  exact keys_textsOf_nodup (namesOnce_of_writtenFor? h hentries).keys_nodup

theorem textAt?_eq_bind (h : (Json.object root).NamesOnce) (dialect key : String) :
    textAt? root dialect key =
      (Table.find? (ownSnippets root).value dialect).bind (Table.find? · key) := by
  rw [find?_ownSnippets h.keys_nodup, textAt?]
  cases hentries : writtenFor? root dialect with
  | none => rfl
  | some entries =>
    have hkeys := (namesOnce_of_writtenFor? h hentries).keys_nodup
    exact (Table.find?_filterMap hkeys Json.string? key).symm

theorem textKeys_eq (h : (Table.keys root).Nodup) (dialect : String) : textKeys root dialect =
    Table.keys ((Table.find? (ownSnippets root).value dialect).getD []) := by
  rw [find?_ownSnippets h, textKeys]

/-! ### What a dialect inherits -/

theorem readIn_eq (dialect text : String) : readIn dialect text =
    if Dialect.isStylesheet dialect then text else asAbbreviation text := by
  unfold readIn asAbbreviation isMarkup
  cases Dialect.isStylesheet dialect <;> simp

theorem readIn_base (dialect : String) : readIn (Dialect.base dialect) = readIn dialect := by
  have hkind : Dialect.isStylesheet (Dialect.base dialect) = Dialect.isStylesheet dialect := by
    unfold Dialect.base
    split
    · next h => rw [h]; rfl
    · next h => rw [Bool.eq_false_iff.2 h]; rfl
  funext text
  rw [readIn, readIn, hkind]

/-- The snippets of a dialect before they are read, over those of the base dialect. -/
def together (own : Table (Table String)) (dialect : String) (snippets : Table String) :
    Table String :=
  if Dialect.base dialect = dialect then snippets
  else match Table.find? own (Dialect.base dialect) with
    | some shared => Table.overlay shared snippets
    | none => snippets

theorem inherited_eq_map (own : Table (Table String)) (dialect : String)
    (snippets : Table String) : inherited own dialect snippets =
      (together own dialect snippets).map fun e => (e.1, readIn dialect e.2) := by
  unfold inherited together
  simp only [readIn_eq]
  cases Dialect.isStylesheet dialect with
  | false => rfl
  | true => exact (List.map_id' _).symm

theorem find?_inherited (h : Table.find? own dialect = some snippets)
    (hkeys : (Table.keys snippets).Nodup) (key : String) :
    Table.find? (inherited own dialect snippets) key =
      ((Table.find? snippets key).or
        ((Table.find? own (Dialect.base dialect)).bind (Table.find? · key))).map
          (readIn dialect) := by
  rw [inherited_eq_map, Table.find?_map _ fun _ => readIn dialect]
  congr 1
  unfold together
  split
  · next hbase => rw [hbase, h, Option.bind_some, Option.or_self]
  · split
    · next shared hshared => rw [Table.find?_overlay shared hkeys, hshared, Option.bind_some]
    · next hnone => rw [hnone, Option.bind_none, Option.or_none]

theorem keys_inherited (h : Table.find? own dialect = some snippets)
    (hkeys : (Table.keys snippets).Nodup) :
    let shared := Table.keys ((Table.find? own (Dialect.base dialect)).getD [])
    Table.keys (inherited own dialect snippets) =
      shared ++ (Table.keys snippets).filter fun k => k ∉ shared := by
  rw [inherited_eq_map, Table.keys_map _ fun _ => readIn dialect]
  unfold together
  split
  · next hbase => simp [hbase, h]
  · split
    · next shared hshared => rw [Table.keys_overlay shared hkeys, hshared, Option.getD_some]
    · next hnone =>
      rw [hnone]
      exact (List.filter_eq_self.2 fun _ _ => by simp [Table.keys]).symm

/-! ### What a library finds -/

/-- The snippets of all dialects, written into a table one dialect after the other. -/
def snippetTable (own visited : Table (Table String)) : Table (Table String) :=
  Table.ofEntries (visited.map fun e => (e.1, inherited own e.1 e.2))

/-- A library with other snippets, and with the keys of these. -/
def withSnippets (l : Library) (snippets : Table (Table String)) : Library :=
  { l with snippets, stylesheetKeyTable := sheetKeys snippets, stylesheetKeyTable_eq := rfl }

/-- The order in which the dialects are visited does not matter. -/
theorem find?_snippetTable {visited : Table (Table String)} (h : visited.Perm own)
    (hown : (Table.keys own).Nodup) (dialect : String) :
    Table.find? (snippetTable own visited) dialect =
      (Table.find? own dialect).map (inherited own dialect) := by
  have hvisited : (Table.keys visited).Nodup := (h.map Prod.fst).nodup_iff.2 hown
  have hkeys := Table.keys_map visited (inherited own)
  rw [snippetTable, Table.ofEntries, Table.find?_overlay [] (hkeys ▸ hvisited), Table.find?_nil,
    Option.or_none, Table.find?_map visited (inherited own), Table.find?_perm h hvisited]

/-- What a dialect finds under a key, given what each dialect has of its own. -/
theorem find?_orBase (own : Table (Table String))
    (hkeys : ∀ dialect snippets, Table.find? own dialect = some snippets →
      (Table.keys snippets).Nodup) (dialect key : String) :
    (((Table.find? own dialect).map (inherited own dialect)).or
      ((Table.find? own (Dialect.base dialect)).map
        (inherited own (Dialect.base dialect)))).bind (Table.find? · key) =
      (((Table.find? own dialect).bind (Table.find? · key)).or
        ((Table.find? own (Dialect.base dialect)).bind (Table.find? · key))).map
          (readIn dialect) := by
  cases hown : Table.find? own dialect with
  | some snippets =>
    simp only [Option.map_some, Option.some_or, Option.bind_some]
    exact find?_inherited hown (hkeys _ _ hown) key
  | none =>
    -- the snippets of the base dialect were read for that dialect, which is no different
    simp only [Option.map_none, Option.none_or, Option.bind_none]
    cases hbase : Table.find? own (Dialect.base dialect) with
    | none => rfl
    | some shared =>
      simp only [Option.map_some, Option.bind_some]
      rw [find?_inherited hbase (hkeys _ _ hbase), Dialect.base_base, hbase, Option.bind_some,
        Option.or_self, readIn_base]

theorem keys_orBase (own : Table (Table String))
    (hkeys : ∀ dialect snippets, Table.find? own dialect = some snippets →
      (Table.keys snippets).Nodup) (dialect : String) :
    let shared := Table.keys ((Table.find? own (Dialect.base dialect)).getD [])
    ((((Table.find? own dialect).map (inherited own dialect)).or
      ((Table.find? own (Dialect.base dialect)).map
        (inherited own (Dialect.base dialect)))).map Table.keys).getD [] =
      shared ++ (Table.keys ((Table.find? own dialect).getD [])).filter fun k => k ∉ shared := by
  cases hown : Table.find? own dialect with
  | some snippets => exact keys_inherited hown (hkeys _ _ hown)
  | none =>
    cases hbase : Table.find? own (Dialect.base dialect) with
    | none => rfl
    | some shared =>
      -- the base dialect lists its own keys, and the dialect has none to add
      simp only [Option.map_none, Option.none_or, Option.map_some, Option.getD_some]
      rw [inherited_eq_map, Table.keys_map _ fun _ => readIn (Dialect.base dialect), together,
        if_pos (Dialect.base_base dialect)]
      exact (List.append_nil _).symm

/-- **Snippets are inherited from the base dialect.** Every dialect finds the text that the document
writes for it under a key, else the one for the base dialect, and lists the keys of the base dialect
before those that it adds. In which order the dialects are visited does not matter. -/
theorem snippetsFor?_ofDocuments {root : Table Json} (h : (Json.object root).NamesOnce)
    (profiles : Option Json) : ∃ l, (ofDocuments (.object root) profiles).value = .ok l ∧
      (∀ dialect key, (l.snippetsFor? dialect).bind (Table.find? · key) =
        ((textAt? root dialect key).or (textAt? root (Dialect.base dialect) key)).map
          (readIn dialect)) ∧
      (∀ dialect, (l.snippetsFor? dialect).isSome = ((writtenFor? root dialect).isSome ||
        (writtenFor? root (Dialect.base dialect)).isSome)) ∧
      (∀ dialect, ((l.snippetsFor? dialect).map Table.keys).getD [] =
        textKeys root (Dialect.base dialect) ++ (textKeys root dialect).filter
          fun k => k ∉ textKeys root (Dialect.base dialect)) ∧
      ∀ visited, visited.Perm (ownSnippets root).value → ∀ dialect,
        (l.withSnippets (snippetTable (ownSnippets root).value visited)).snippetsFor? dialect =
          l.snippetsFor? dialect := by
  have hown := fun dialect => find?_ownSnippets h.keys_nodup dialect
  have hkeys : ∀ dialect snippets, Table.find? (ownSnippets root).value dialect = some snippets →
      (Table.keys snippets).Nodup := fun _ _ => keys_own_nodup h
  refine ⟨_, rfl, ?_⟩
  -- of the library only the table of snippets matters from here on
  generalize hl : Library.mk _ _ _ _ _ _ _ = l
  have hfind : ∀ dialect, Table.find? l.snippets dialect =
      (Table.find? (ownSnippets root).value dialect).map
        (inherited (ownSnippets root).value dialect) := by
    intro dialect
    rw [← hl]
    exact Table.find?_map _ (inherited (ownSnippets root).value) dialect
  have hlookup : ∀ dialect, l.snippetsFor? dialect =
      (Table.find? l.snippets dialect).or (Table.find? l.snippets (Dialect.base dialect)) := by
    intro dialect
    unfold snippetsFor?
    cases Table.find? l.snippets dialect <;> rfl
  refine ⟨fun dialect key => ?_, fun dialect => ?_, fun dialect => ?_,
    fun visited hvisited dialect => ?_⟩
  · rw [hlookup, hfind, hfind, find?_orBase _ hkeys, textAt?_eq_bind h, textAt?_eq_bind h]
  · rw [hlookup, hfind, hfind, Option.isSome_or, hown, hown]
    simp
  · rw [hlookup, hfind, hfind, keys_orBase _ hkeys, textKeys_eq h.keys_nodup,
      textKeys_eq h.keys_nodup]
  · have hnodup := keys_ownSnippets_nodup h.keys_nodup
    simp only [snippetsFor?, withSnippets, hfind, find?_snippetTable hvisited hnodup]

/-- Snippets for two dialects of markup and one of style sheets; one entry is no text, one dialect
has no snippets. -/
def layeredDocument : Table Json := [
  ("variables", .object [("lang", .string "de")]),
  ("jsx", .object [("snippets", .object [
    ("nav", .string "Nav"), ("hdr", .string "<Header>"), ("rule", .integer 3)])]),
  ("html", .object [("snippets", .object [
    ("hdr", .string "header>h1"), ("rule", .string "<hr><br>")])]),
  ("css", .object [("snippets", .object [("raw", .string "<weird>")])]),
  ("pug", .object [("profile", .null)])]

theorem namesOnce_layeredDocument : (Json.object layeredDocument).NamesOnce := by
  have hjsx : (Json.object [("nav", .string "Nav"), ("hdr", .string "<Header>"),
      ("rule", .integer 3)]).NamesOnce :=
    .object (by decide) (by simpa using ⟨.string _, .string _, .integer _⟩)
  have hhtml : (Json.object [("hdr", .string "header>h1"),
      ("rule", .string "<hr><br>")]).NamesOnce :=
    .object (by decide) (by simpa using ⟨.string _, .string _⟩)
  have hsingle : ∀ name value, Json.NamesOnce value →
      (Json.object [(name, value)]).NamesOnce := fun name value h =>
    .object (List.nodup_cons.2 ⟨List.not_mem_nil, List.nodup_nil⟩) (by simpa using h)
  refine .object (by decide) ?_
  simp only [layeredDocument, List.forall_mem_cons]
  exact ⟨hsingle _ _ (.string _), hsingle _ _ hjsx, hsingle _ _ hhtml,
    hsingle _ _ (hsingle _ _ (.string _)), hsingle _ _ .null, nofun⟩

/-- The number under `rule` is no snippet of `jsx`, so the text of `html` stands there; in both
dialects texts in angle brackets are wrapped, in `scss` they are not. -/
theorem snippetsFor?_ofDocuments_layered : (Json.object layeredDocument).NamesOnce ∧
    ∃ l, (ofDocuments (.object layeredDocument) none).value = .ok l ∧
      (l.snippetsFor? "jsx").bind (Table.find? · "hdr") = some "\x7b<Header>\x7d" ∧
      (l.snippetsFor? "jsx").bind (Table.find? · "rule") = some "\x7b<hr><br>\x7d" ∧
      (l.snippetsFor? "pug").bind (Table.find? · "hdr") = some "header>h1" ∧
      (l.snippetsFor? "scss").bind (Table.find? · "raw") = some "<weird>" ∧
      ((l.snippetsFor? "jsx").map Table.keys).getD [] = ["hdr", "rule", "nav"] := by
  have h := namesOnce_layeredDocument
  obtain ⟨l, hl, hfind, -, hkeys, -⟩ := snippetsFor?_ofDocuments h none
  refine ⟨h, l, hl, ?_, ?_, ?_, ?_, ?_⟩
  · rw [hfind]
    decide
  · rw [hfind]
    decide
  · rw [hfind]
    decide
  · rw [hfind]
    decide
  · rw [hkeys]
    decide

end Emmet.Library
