import Emmet.Expansion.Options
import Emmet.Proofs.Table.Repeated

/-!
# Offered keys

A library lists the snippet keys of style sheet dialects in a table of their own, and those of
markup dialects with the snippets themselves. Each of the two has its own way to the base dialect.
This file says that they come to the same: what is offered in a dialect is what can be expanded
there.

* `find?_stylesheetKeyTable` : the table lists the keys of each style sheet dialect that has
  snippets, and of no other dialect;
* `stylesheetKeys_eq`, `snippetKeys_eq` : the keys of a dialect are those of its snippets, whether
  they are its own or those of the base dialect;
* `snippetKeys_expandable` : so they are the keys of the snippets that an engine is given.
-/

namespace Emmet.Library

variable {dialect : String}

theorem find?_stylesheetKeyTable (l : Library) (dialect : String) :
    Table.find? l.stylesheetKeyTable dialect =
      if Dialect.isStylesheet dialect then (Table.find? l.snippets dialect).map Table.keys
      else none := by
  have hkeys := Table.find?_map (l.snippets.filter (Dialect.isStylesheet ·.1))
    (fun _ => Table.keys) dialect
  rw [l.stylesheetKeyTable_eq, sheetKeys, hkeys, Table.find?_filter]
  split
  · rfl
  · rfl

theorem snippetsFor?_eq_or (l : Library) (dialect : String) : l.snippetsFor? dialect =
    (Table.find? l.snippets dialect).or (Table.find? l.snippets (Dialect.base dialect)) := by
  unfold snippetsFor?
  cases Table.find? l.snippets dialect with
  | some snippets => rfl
  | none => rfl

/-- Both ways to the base dialect of style sheets lead to `css`. -/
theorem stylesheetKeys_eq (l : Library) (h : Dialect.isStylesheet dialect = true) :
    l.stylesheetKeys dialect = ((l.snippetsFor? dialect).map Table.keys).getD [] := by
  have hbase : Dialect.base dialect = "css" := if_pos h
  have hcss : Dialect.isStylesheet "css" = true := by decide
  rw [snippetsFor?_eq_or, hbase]
  unfold stylesheetKeys
  rw [find?_stylesheetKeyTable, find?_stylesheetKeyTable, if_pos h, if_pos hcss]
  cases Table.find? l.snippets dialect with
  | some snippets => rfl
  | none => rfl

theorem snippetKeys_eq (l : Library) (dialect : String) :
    l.snippetKeys dialect = ((l.snippetsFor? dialect).map Table.keys).getD [] := by
  unfold snippetKeys
  split
  · next h => exact stylesheetKeys_eq l h
  · rfl

/-- A key is listed if something is found under it. -/
theorem mem_keys_getD_iff {snippets : Option (Table String)} {key : String} :
    key ∈ (snippets.map Table.keys).getD [] ↔
      ∃ text, snippets.bind (Table.find? · key) = some text := by
  cases snippets with
  | none => simp
  | some t =>
    rw [Option.map_some, Option.getD_some, Option.bind_some, ← Table.find?_isSome_iff,
      Option.isSome_iff_exists]

/-- **Offered keys are the keys that can be expanded.** Whatever library is installed, a dialect
lists in order the keys of the snippets that an engine is given for it with any settings and
filters, and the keys listed for a style sheet dialect are the same. So a key is offered just if
the engine finds a text under it. -/
theorem snippetKeys_expandable (l : Library) (dialect : String) (settings : Settings)
    (filters : Option String) :
    let snippets := (ExpansionOptions.resolve dialect settings filters l).value.snippets
    l.snippetKeys dialect = (snippets.map Table.keys).getD [] ∧
    (Dialect.isStylesheet dialect = true →
      l.stylesheetKeys dialect = (snippets.map Table.keys).getD []) ∧
    ∀ key, key ∈ l.snippetKeys dialect ↔
      ∃ text, snippets.bind (Table.find? · key) = some text := by
  intro snippets
  have hsnippets : snippets = l.snippetsFor? dialect := rfl
  rw [hsnippets, snippetKeys_eq]
  exact ⟨rfl, stylesheetKeys_eq l, fun key => mem_keys_getD_iff⟩

/-- Snippets for two style sheet dialects; `less` has those of `css`, and no dialect of markup has
any. -/
def twoSheets : Library where
  snippets := [("scss", [("bxs", "box-shadow"), ("mix", "@mixin")]), ("css", [("bxs", "none")])]

theorem snippetKeys_expandable_less : Dialect.isStylesheet "less" = true ∧
    twoSheets.stylesheetKeys "less" = ["bxs"] ∧ twoSheets.stylesheetKeys "scss" = ["bxs", "mix"] ∧
    twoSheets.snippetKeys "html" = [] := by
  have hless : Dialect.isStylesheet "less" = true := by decide
  have hscss : Dialect.isStylesheet "scss" = true := by decide
  obtain ⟨-, hlessKeys, -⟩ := snippetKeys_expandable twoSheets "less" {} none
  obtain ⟨-, hscssKeys, -⟩ := snippetKeys_expandable twoSheets "scss" {} none
  obtain ⟨hhtmlKeys, -, -⟩ := snippetKeys_expandable twoSheets "html" {} none
  exact ⟨hless, hlessKeys hless, hscssKeys hscss, hhtmlKeys⟩

end Emmet.Library
