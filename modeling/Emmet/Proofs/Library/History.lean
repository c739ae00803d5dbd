import Emmet.FileTree
import Emmet.Library.Store
import Mathlib.Data.List.TakeWhile

/-!
# The history of a store

Every call on a store comes down to installing libraries one after another, so what a store shows
follows from the libraries that it was given.

* `Library.LoadedFrom` : a library that says what the two files of a directory say;
* `Store.reload_cases` : the three ways in which a reload ends;
* `Store.exists_reload_eq_ok_iff` : which reloads succeed; the file with profiles has no part in it;
* `Store.ReloadsAfresh` : what a reload leaves in a store;
* `Store.Call.libraries` : what a call installs; a reload installs the empty library first;
* `Store.snapshots` : what a store shows after each installation;
* `Store.next_run`, `Store.version_lt_size` : versions count the installations;
* `Store.run_snapshots` : after any calls, the installed libraries are numbered without a gap, the
  last one is shown, and the next reload leaves nothing of it.
-/

namespace Emmet

namespace Library

variable {fs : FileSystem} {folders paths : List String} {directory : String} {l : Library}

/-- The library with a version and nothing in it. -/
def blank (version : Nat) : Library :=
  { empty with version }

/-! ### The directory that is searched for -/

/-- The first directory among the candidates of some paths. -/
def firstDirectory? (fs : FileSystem) (folders paths : List String) : Option String :=
  (paths.flatMap (candidates fs folders)).find? fun c => fs.kind c == .directory

/-- Which candidate is to blame for a failure does not matter for where the search succeeds. -/
theorem search_eq_ok_iff (blocked : Option String) :
    (search fs folders blocked paths).value = .ok directory ↔
      firstDirectory? fs folders paths = some directory := by
  unfold firstDirectory?
  induction paths generalizing blocked with
  | nil => simp [search]
  | cons path paths ih =>
    simp only [search, List.flatMap_cons, List.find?_append]
    cases (candidates fs folders path).find? fun c => fs.kind c == .directory with
    | some found => split <;> simp
    | none =>
      rw [Option.none_or]
      -- that a path has no candidates is reported, and the search goes on all the same
      split
      · exact ih _
      · exact ih _

theorem resolve_eq_ok_iff : (resolve fs folders paths).value = .ok directory ↔
    firstDirectory? fs folders paths = some directory := by
  rw [← search_eq_ok_iff none]
  simp only [resolve, Traced.value_bind, Traced.value_pure]
  split <;> simp_all

/-! ### What a directory holds -/

/-- The value in a file, if the file can be read and its text is JSON. -/
def valueAt? (fs : FileSystem) (path : String) : Option Json :=
  (fs.read path).toOption.bind document?

/-- The library says what the two files of a directory say. The one with the snippets must hold an
object; without a value in the other one there are no profiles. -/
def LoadedFrom (fs : FileSystem) (directory : String) (l : Library) : Prop :=
  ∃ snippets written, valueAt? fs (Path.join directory snippetsFile) = some snippets ∧
    (ofDocuments snippets (valueAt? fs (Path.join directory profilesFile))).value = .ok written ∧
    l = { written with source := some directory, version := l.version }

theorem value_loadProfiles :
    (loadProfiles fs directory).value = valueAt? fs (Path.join directory profilesFile) := by
  simp only [loadProfiles, valueAt?]
  cases fs.read (Path.join directory profilesFile) with
  | error reason => rfl
  | ok text =>
    change _ = document? text
    cases hdocument : document? text with
    | none => simp [hdocument]
    | some profiles => simp [hdocument]

theorem loadedFrom_of_load (h : (load fs directory).value = .ok l) : LoadedFrom fs directory l := by
  unfold load at h
  cases hread : fs.read (Path.join directory snippetsFile) with
  | error reason => simp [hread] at h
  | ok text =>
    cases hdocument : document? text with
    | none => simp [hread, hdocument] at h
    | some snippets =>
      simp only [hread, hdocument, Traced.value_bind, Traced.value_pure, value_loadProfiles] at h
      split at h
      · next written hwritten =>
        obtain rfl := Except.ok.inj h
        exact ⟨snippets, written, by simp [valueAt?, hread, hdocument, Except.toOption], hwritten,
          rfl⟩
      · cases h

/-- Only the file with the snippets can make loading fail. -/
theorem exists_load_eq_ok_iff : (∃ l, (load fs directory).value = .ok l) ↔
    ∃ root, valueAt? fs (Path.join directory snippetsFile) = some (.object root) := by
  simp only [load, valueAt?]
  cases fs.read (Path.join directory snippetsFile) with
  | error reason => simp [Except.toOption]
  | ok text =>
    change _ ↔ ∃ root, document? text = some (.object root)
    cases hdocument : document? text with
    | none => simp [hdocument]
    | some snippets => cases snippets <;> simp [hdocument, ofDocuments]

/-- The version is no part of what the files say. -/
theorem LoadedFrom.withVersion (h : LoadedFrom fs directory l) (version : Nat) :
    LoadedFrom fs directory { l with version } := by
  obtain ⟨snippets, written, hsnippets, hwritten, hl⟩ := h
  exact ⟨snippets, written, hsnippets, hwritten, by rw [hl]⟩

end Library

namespace Store

variable {fs : FileSystem} {folders paths : List String} {l : Library} {s : Store}

/-! ### Searching and reloading -/

theorem usablePaths_eq_nil_iff :
    usablePaths paths = [] ↔ ∀ p ∈ paths, ∀ c ∈ p.toList, Text.isBlank c = true := by
  simp only [usablePaths, List.filter_eq_nil_iff, List.mem_map, forall_exists_index, and_imp,
    forall_apply_eq_imp_iff₂, ← Text.trim_eq_nil_iff]
  simp

theorem find_eq_ok_iff : (find fs folders paths).value = .ok l ↔
    ∃ d, Library.firstDirectory? fs folders paths = some d ∧ (Library.load fs d).value = .ok l := by
  simp only [find, Traced.value_bind, ← Library.resolve_eq_ok_iff]
  cases (Library.resolve fs folders paths).value with
  | error e => simp
  | ok d => simp

/-- Something is found if the first directory has an object in its file with the snippets. -/
theorem exists_find_eq_ok_iff : (∃ l, (find fs folders paths).value = .ok l) ↔ ∃ d root,
    Library.firstDirectory? fs folders paths = some d ∧
    Library.valueAt? fs (Path.join d Library.snippetsFile) = some (.object root) := by
  simp only [find_eq_ok_iff, exists_and_left, ← Library.exists_load_eq_ok_iff]
  rw [exists_comm]
  simp only [exists_and_left]

/-- The three ways in which a reload ends. -/
theorem reload_cases (s : Store) (fs : FileSystem) (paths folders : List String) :
    (usablePaths paths = [] ∧
      (s.reload fs paths folders).value = (s.reset, .ok s.reset.current)) ∨
    (usablePaths paths ≠ [] ∧ ∃ e, (find fs folders (usablePaths paths)).value = .error e ∧
      (s.reload fs paths folders).value = (s.reset, .error e)) ∨
    (usablePaths paths ≠ [] ∧ ∃ l, (find fs folders (usablePaths paths)).value = .ok l ∧
      (s.reload fs paths folders).value =
        (s.reset.install l, .ok (s.reset.install l).current)) := by
  unfold reload
  by_cases hp : usablePaths paths = []
  · exact .inl ⟨hp, by simp [hp]⟩
  · cases hfind : (find fs folders (usablePaths paths)).value with
    | error e => exact .inr (.inl ⟨hp, e, rfl, by simp [hp, hfind]⟩)
    | ok l => exact .inr (.inr ⟨hp, l, rfl, by simp [hp, hfind]⟩)

/-- A reload fails only for want of a directory or of an object in its file with the snippets. -/
theorem exists_reload_eq_ok_iff : (∃ l, (s.reload fs paths folders).value.2 = .ok l) ↔
    usablePaths paths = [] ∨ ∃ d root,
      Library.firstDirectory? fs folders (usablePaths paths) = some d ∧
      Library.valueAt? fs (Path.join d Library.snippetsFile) = some (.object root) := by
  rw [← exists_find_eq_ok_iff]
  obtain ⟨hp, hreload⟩ | ⟨hp, e, he, hreload⟩ | ⟨hp, l, hl, hreload⟩ :=
    reload_cases s fs paths folders
  · simp [hreload, hp]
  · simp [hreload, hp, he]
  · simp [hreload, hp, hl]

/-- A reload leaves nothing of the library before it: there is nothing then, or what the files in a
directory say. -/
structure ReloadsAfresh (s : Store) (fs : FileSystem) (paths folders : List String) : Prop where
  /-- A reload that fails leaves nothing. -/
  error : ∀ e, (s.reload fs paths folders).value.2 = .error e →
    (s.reload fs paths folders).value.1.current = .blank s.next
  /-- Blank paths are no failure, but they leave nothing either. -/
  blank : (∀ p ∈ paths, ∀ c ∈ p.toList, Text.isBlank c = true) →
    (s.reload fs paths folders).value.2 = .ok (.blank s.next) ∧
    (s.reload fs paths folders).value.1.current = .blank s.next
  /-- The library that was found follows the empty one. -/
  ok : ∀ l, (s.reload fs paths folders).value.2 = .ok l →
    (∃ p ∈ paths, ∃ c ∈ p.toList, Text.isBlank c = false) →
    (s.reload fs paths folders).value.1.current = l ∧ l.version = s.next + 1 ∧
    ∃ d, Library.firstDirectory? fs folders (usablePaths paths) = some d ∧
      Library.LoadedFrom fs d l

theorem reloadsAfresh (s : Store) (fs : FileSystem) (paths folders : List String) :
    s.ReloadsAfresh fs paths folders := by
  have hblank : (∃ p ∈ paths, ∃ c ∈ p.toList, Text.isBlank c = false) ↔
      usablePaths paths ≠ [] := by
    rw [Ne, usablePaths_eq_nil_iff]
    simp
  obtain ⟨hp, h⟩ | ⟨hp, e, -, h⟩ | ⟨hp, l, hfind, h⟩ := reload_cases s fs paths folders
  all_goals
    constructor
    all_goals rw [h]
  case inl.error => nofun
  case inl.blank => exact fun _ => ⟨rfl, rfl⟩
  case inl.ok => exact fun l _ hne => absurd hp (hblank.1 hne)
  case inr.inl.error => exact fun _ _ => rfl
  case inr.inl.blank => exact fun hnil => absurd (usablePaths_eq_nil_iff.2 hnil) hp
  case inr.inl.ok => nofun
  case inr.inr.error => nofun
  case inr.inr.blank => exact fun hnil => absurd (usablePaths_eq_nil_iff.2 hnil) hp
  case inr.inr.ok =>
    intro shown hshown _
    obtain rfl := Except.ok.inj hshown
    obtain ⟨d, hd, hload⟩ := find_eq_ok_iff.1 hfind
    exact ⟨rfl, rfl, d, hd, (Library.loadedFrom_of_load hload).withVersion _⟩

/-! ### Installing one library after another -/

/-- What a store shows after each of some installations. -/
def snapshots : Store → List Library → List Library
  | _, [] => []
  | s, l :: ls => (s.install l).current :: snapshots (s.install l) ls

theorem map_version_snapshots (s : Store) (ls : List Library) :
    (snapshots s ls).map Library.version = List.range' s.next ls.length := by
  induction ls generalizing s with
  | nil => rfl
  | cons l ls ih =>
    rw [snapshots, List.map_cons, ih, List.length_cons, List.range'_succ]
    rfl

theorem current_foldl_install (s : Store) (ls : List Library) :
    (ls.foldl install s).current = (snapshots s ls).getLastD s.current := by
  induction ls generalizing s with
  | nil => rfl
  | cons l ls ih => rw [List.foldl_cons, ih, snapshots, List.getLastD_cons]

/-! ### Calls -/

/-- A call on a store. A reload reads the file system as it is at that moment. -/
inductive Call where
  | install (l : Library)
  | reset
  | reload (fs : FileSystem) (paths folders : List String)

/-- The store after a call. -/
def Call.apply (s : Store) : Call → Store
  | install l => s.install l
  | reset => s.reset
  | reload fs paths folders => (s.reload fs paths folders).value.1

/-- The library that a reload finds. -/
def found? (fs : FileSystem) (paths folders : List String) : Option Library :=
  if usablePaths paths = [] then none
  else (find fs folders (usablePaths paths)).value.toOption

/-- The libraries that a call installs, in order. A reload installs the empty one first, and then
the one that it finds. -/
def Call.libraries : Call → List Library
  | install l => [l]
  | reset => [.empty]
  | reload fs paths folders => .empty :: (found? fs paths folders).toList

/-- The store after some calls on a new one. -/
def run (calls : List Call) : Store := calls.foldl Call.apply {}

/-- The libraries that some calls install, in order. -/
def libraries (calls : List Call) : List Library := calls.flatMap Call.libraries

theorem Call.apply_eq_foldl (s : Store) (c : Call) :
    c.apply s = c.libraries.foldl Store.install s := by
  cases c with
  | install l => rfl
  | reset => rfl
  | reload fs paths folders =>
    change (s.reload fs paths folders).value.1 =
      (.empty :: (found? fs paths folders).toList).foldl Store.install s
    unfold found?
    obtain ⟨hp, hreload⟩ | ⟨hp, e, he, hreload⟩ | ⟨hp, l, hl, hreload⟩ :=
      reload_cases s fs paths folders
    · rw [hreload, if_pos hp]
      rfl
    · rw [hreload, if_neg hp, he]
      rfl
    · rw [hreload, if_neg hp, hl]
      rfl

theorem foldl_apply (s : Store) (calls : List Call) :
    calls.foldl Call.apply s = (libraries calls).foldl install s := by
  induction calls generalizing s with
  | nil => rfl
  | cons c calls ih =>
    rw [List.foldl_cons, ih, c.apply_eq_foldl, ← List.foldl_append]
    rfl

/-! ### Versions -/

theorem next_foldl_install (s : Store) (ls : List Library) :
    (ls.foldl install s).next = s.next + ls.length := by
  induction ls generalizing s with
  | nil => rfl
  | cons l ls ih =>
    rw [List.foldl_cons, ih, List.length_cons, Nat.add_comm ls.length, ← Nat.add_assoc]
    rfl

/-- The next version is one more than there were installations. -/
theorem next_run (calls : List Call) : (run calls).next = (libraries calls).length + 1 := by
  rw [run, foldl_apply, next_foldl_install, Nat.add_comm]

/-- All versions fit into 64 bits for as long as the number of installations does. -/
theorem version_lt_size {calls : List Call} {l : Library}
    (h : (libraries calls).length < UInt64.size) (hl : l ∈ snapshots {} (libraries calls)) :
    l.version < UInt64.size := by
  have hversion := List.mem_map_of_mem (f := Library.version) hl
  rw [map_version_snapshots, List.mem_range'_1] at hversion
  have hlt : l.version < 1 + (libraries calls).length := hversion.2
  omega

/-- **After any calls on a new store** the libraries that it was given are numbered from one on,
and it shows the last of them. Whatever that is, the next reload leaves nothing of it. -/
theorem run_snapshots (calls : List Call) :
    run calls = (libraries calls).foldl install {} ∧
    (snapshots {} (libraries calls)).map Library.version =
      List.range' 1 (libraries calls).length ∧
    (run calls).current = (snapshots {} (libraries calls)).getLastD {} ∧
    ∀ fs paths folders, (run calls).ReloadsAfresh fs paths folders := by
  refine ⟨foldl_apply _ _, map_version_snapshots _ _, ?_, (run calls).reloadsAfresh⟩
  rw [run, foldl_apply, current_foldl_install]
  rfl

/-- A directory with a variable, whose file with profiles is broken. -/
def germanFiles : FileSystem :=
  ((FileTree.addFile {} "/ext/snippets.json"
    (some "\x7b\"variables\": \x7b\"lang\": \"de\"\x7d\x7d")).addFile
    "/ext/syntaxProfiles.json" (some "\x7b")).system "/home"

/-- A library is installed, the directory is loaded, the store is reset. -/
def germanCalls : List Call :=
  [.install { Library.empty with bindings := [("lang", "en")] }, .reload germanFiles ["/ext"] [],
    .reset]

/-- A path that leads nowhere, a blank one and the directory, each tried after the calls. -/
theorem run_snapshots_german :
    (run germanCalls).next = 5 ∧
    ((run germanCalls).reload germanFiles ["/nowhere"] []).value.1.current =
      .blank (run germanCalls).next ∧
    ((run germanCalls).reload germanFiles [" "] []).value.1.current =
      .blank (run germanCalls).next ∧
    ∃ l, ((run germanCalls).reload germanFiles ["/ext"] []).value.1.current = l ∧
      l.version = (run germanCalls).next + 1 ∧ l.bindings = [("lang", "de")] ∧
      Library.LoadedFrom germanFiles "/ext" l := by
  obtain ⟨-, -, -, h⟩ := run_snapshots germanCalls
  have hnowhere := h germanFiles ["/nowhere"] []
  have hspace := h germanFiles [" "] []
  have hext := h germanFiles ["/ext"] []
  refine ⟨by decide +kernel, ?_, (hspace.blank (usablePaths_eq_nil_iff.1 (by decide))).2, ?_⟩
  · have hfail : ((run germanCalls).reload germanFiles ["/nowhere"] []).value.2.isOk = false := by
      decide +kernel
    cases herror : ((run germanCalls).reload germanFiles ["/nowhere"] []).value.2 with
    | error e => exact hnowhere.error e herror
    | ok l => simp [herror, Except.isOk, Except.toBool] at hfail
  · have hok : ((run germanCalls).reload germanFiles ["/ext"] []).value.2.isOk = true := by
      decide +kernel
    have hfirst : Library.firstDirectory? germanFiles [] (usablePaths ["/ext"]) =
        some "/ext" := by decide +kernel
    have hbindings : ((run germanCalls).reload germanFiles ["/ext"] []).value.1.current.bindings =
        [("lang", "de")] := by decide +kernel
    cases hl : ((run germanCalls).reload germanFiles ["/ext"] []).value.2 with
    | error e => simp [hl, Except.isOk, Except.toBool] at hok
    | ok l =>
      obtain ⟨hcurrent, hversion, d, hd, hloaded⟩ :=
        hext.ok l hl ⟨"/ext", List.mem_singleton_self _, '/', by decide, by decide⟩
      obtain rfl := Option.some.inj (hfirst.symm.trans hd)
      exact ⟨l, hcurrent, hversion, by rw [← hcurrent]; exact hbindings, hloaded⟩

end Store

end Emmet
