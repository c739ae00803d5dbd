import Emmet.Proofs.Library.History
import Mathlib.Data.List.Forall2

/-!
# The directory of a library

A library is looked for under some configured paths. Each path leads to some candidates, and the
candidates of all paths stand in one row: a directory is used wherever it stands in it, whatever
else was met before.

* `LeadsTo` : the candidates of a path, by its form;
* `Picks` : the directory that is picked out of a row of candidates, or what is to blame if there is
  none;
* `value_search` : the search finds the first directory, and remembers what else was met first;
* `resolve_eq_iff` : resolving paths picks from the candidates that they lead to.
-/

namespace Emmet.Library

variable {fs : FileSystem} {folders paths found : List String} {path : String}

/-! ### Candidates of a path -/

/-- A path below the home directory: a tilde and either nothing else, or slashes of either kind and
then `rest`. -/
def IsBelowHome (path rest : List Char) : Prop :=
  ∃ slashes, path = '~' :: (slashes ++ rest) ∧ (∀ c ∈ slashes, c = '/' ∨ c = '\\') ∧
    (∀ c ∈ rest.head?, c ≠ '/' ∧ c ≠ '\\') ∧ (slashes = [] → rest = [])

/-- The directories that a path may lead to, in order. A path below the home directory is a relative
one if that directory is not known. -/
inductive LeadsTo (fs : FileSystem) (folders : List String) (path : String) : List String → Prop
  | home {home : String} {rest : List Char} (hhome : fs.home = some home)
      (hrest : IsBelowHome path.toList rest) :
      LeadsTo fs folders path [Path.join home (String.ofList rest)]
  | absolute (h : path.toList.head? = some '/') : LeadsTo fs folders path [path]
  | relative (hhome : ∀ home rest, fs.home = some home → ¬ IsBelowHome path.toList rest)
      (h : path.toList.head? ≠ some '/') :
      LeadsTo fs folders path (folders.map fun folder => Path.join folder path)

theorem isSlash_iff {c : Char} : isSlash c = true ↔ c = '/' ∨ c = '\\' := by
  simp [isSlash]

/-- Behind the slashes a path stands as it is. -/
theorem dropWhile_isSlash_append {slashes rest : List Char}
    (hslashes : ∀ c ∈ slashes, c = '/' ∨ c = '\\') (hrest : ∀ c ∈ rest.head?, c ≠ '/' ∧ c ≠ '\\') :
    (slashes ++ rest).dropWhile isSlash = rest := by
  rw [List.dropWhile_append_of_pos fun c hc => isSlash_iff.2 (hslashes c hc)]
  cases rest with
  | nil => rfl
  | cons c rest =>
    have hc := hrest c rfl
    exact List.dropWhile_cons_of_neg fun hslash => (isSlash_iff.1 hslash).elim hc.1 hc.2

theorem isBelowHome_iff {rest : List Char} : IsBelowHome path.toList rest ↔
    ∃ behind, path.toList = '~' :: behind ∧ behind.head?.all isSlash = true ∧
      rest = behind.dropWhile isSlash := by
  constructor
  · rintro ⟨slashes, hpath, hslashes, hrest, hnil⟩
    refine ⟨_, hpath, ?_, (dropWhile_isSlash_append hslashes hrest).symm⟩
    cases slashes with
    | nil => rw [hnil rfl]; rfl
    | cons c slashes => exact isSlash_iff.2 (hslashes c List.mem_cons_self)
  · rintro ⟨behind, hpath, hhead, rfl⟩
    refine ⟨behind.takeWhile isSlash, ?_, ?_, ?_, ?_⟩
    · rw [List.takeWhile_append_dropWhile, hpath]
    · exact fun c hc => isSlash_iff.1 (List.mem_takeWhile_imp hc)
    · intro c hc
      have hslash := List.head?_dropWhile_not isSlash behind
      rw [Option.mem_def.1 hc] at hslash
      exact not_or.1 fun h => Bool.noConfusion (hslash.symm.trans (isSlash_iff.2 h))
    · intro hnil
      cases behind with
      | nil => rfl
      | cons c behind =>
        have hc : isSlash c = true := hhead
        simp [hc] at hnil

theorem homePath?_eq_some_iff {place : String} : homePath? fs path = some place ↔
    ∃ home rest, fs.home = some home ∧ IsBelowHome path.toList rest ∧
      place = Path.join home (String.ofList rest) := by
  simp only [isBelowHome_iff]
  unfold homePath?
  split
  · next behind hpath =>
    rw [hpath]
    split
    · next hhead =>
      rw [Option.map_eq_some_iff]
      constructor
      · rintro ⟨home, hhome, rfl⟩
        exact ⟨home, _, hhome, ⟨behind, rfl, hhead, rfl⟩, rfl⟩
      · rintro ⟨home, _, hhome, ⟨_, hbehind, -, rfl⟩, rfl⟩
        obtain rfl := (List.cons.inj hbehind).2
        exact ⟨home, hhome, rfl⟩
    · next hhead =>
      refine iff_of_false nofun ?_
      rintro ⟨_, _, -, ⟨_, hbehind, hall, -⟩, -⟩
      obtain rfl := (List.cons.inj hbehind).2
      exact hhead hall
  · next hpath =>
    refine iff_of_false nofun ?_
    rintro ⟨_, _, -, ⟨behind, hbehind, -⟩, -⟩
    exact hpath behind hbehind

theorem leadsTo_candidates (fs : FileSystem) (folders : List String) (path : String) :
    LeadsTo fs folders path (candidates fs folders path) := by
  unfold candidates
  cases hplace : homePath? fs path with
  | some place =>
    obtain ⟨home, rest, hhome, hrest, rfl⟩ := homePath?_eq_some_iff.1 hplace
    exact .home hhome hrest
  | none =>
    simp only [Path.isAbsolute, beq_iff_eq]
    split
    · next habsolute => exact .absolute habsolute
    · next hrelative =>
      refine .relative (fun home rest hhome hrest => ?_) hrelative
      have hsome := homePath?_eq_some_iff.2 ⟨home, rest, hhome, hrest, rfl⟩
      rw [hplace] at hsome
      cases hsome

/-- A path leads to no other candidates. -/
theorem LeadsTo.eq_candidates (h : LeadsTo fs folders path found) :
    found = candidates fs folders path := by
  unfold candidates
  cases h with
  | home hhome hrest => rw [homePath?_eq_some_iff.2 ⟨_, _, hhome, hrest, rfl⟩]
  | absolute h =>
    have hnone : homePath? fs path = none := by
      refine Option.eq_none_iff_forall_ne_some.2 fun place hplace => ?_
      obtain ⟨_, _, -, ⟨_, htilde, -⟩, -⟩ := homePath?_eq_some_iff.1 hplace
      rw [htilde] at h
      cases h
    rw [hnone]
    exact (if_pos (beq_iff_eq.2 h)).symm
  | relative hhome h =>
    have hnone : homePath? fs path = none := by
      refine Option.eq_none_iff_forall_ne_some.2 fun place hplace => ?_
      obtain ⟨home, rest, hknown, hrest, -⟩ := homePath?_eq_some_iff.1 hplace
      exact hhome home rest hknown hrest
    rw [hnone]
    exact (if_neg (mt beq_iff_eq.1 h)).symm

theorem forall₂_leadsTo_iff {rows : List (List String)} :
    List.Forall₂ (LeadsTo fs folders) paths rows ↔ rows = paths.map (candidates fs folders) := by
  constructor
  · intro h
    induction h with
    | nil => rfl
    | cons hpath _ ih => rw [hpath.eq_candidates, ih, List.map_cons]
  · rintro rfl
    induction paths with
    | nil => exact .nil
    | cons path paths ih => exact .cons (leadsTo_candidates fs folders path) ih

/-! ### Picking a directory -/

/-- What is picked for some paths out of the candidates that they lead to: the first directory; if
there is none, the first candidate that exists is to blame, and if none exists, all paths are. -/
inductive Picks (fs : FileSystem) (paths found : List String) : Except LoadError String → Prop
  | directory {before after : List String} {place : String}
      (hfound : found = before ++ place :: after) (hplace : fs.kind place = .directory)
      (hbefore : ∀ c ∈ before, fs.kind c ≠ .directory) :
      Picks fs paths found (.ok place)
  | blocked {before after : List String} {place : String}
      (hfound : found = before ++ place :: after)
      (hnone : ∀ c ∈ found, fs.kind c ≠ .directory) (hplace : fs.kind place ≠ .missing)
      (hbefore : ∀ c ∈ before, fs.kind c = .missing) :
      Picks fs paths found (.error (.notADirectory place))
  | nothing (hnone : ∀ c ∈ found, fs.kind c = .missing) :
      Picks fs paths found (.error (.notFound paths))

/-- What the first directory and the first other entry among some candidates come to. -/
def outcome (fs : FileSystem) (paths found : List String) : Except LoadError String :=
  match found.find? fun c => fs.kind c == .directory, found.find? fun c => fs.kind c == .other with
  | some place, _ => .ok place
  | none, some place => .error (.notADirectory place)
  | none, none => .error (.notFound paths)

theorem missing_of_find?_eq_none {row : List String} (hrow : row ⊆ found)
    (hdirectory : found.find? (fun c => fs.kind c == .directory) = none)
    (hother : ∀ c ∈ row, fs.kind c ≠ .other) : ∀ c ∈ row, fs.kind c = .missing := by
  intro c hc
  have hnone := List.find?_eq_none.1 hdirectory c (hrow hc)
  cases hkind : fs.kind c with
  | directory => simp [hkind] at hnone
  | other => exact absurd hkind (hother c hc)
  | missing => rfl

theorem picks_outcome (fs : FileSystem) (paths found : List String) :
    Picks fs paths found (outcome fs paths found) := by
  unfold outcome
  cases hdirectory : found.find? fun c => fs.kind c == .directory with
  | some place =>
    obtain ⟨hplace, before, after, hfound, hbefore⟩ := List.find?_eq_some_iff_append.1 hdirectory
    exact .directory hfound (beq_iff_eq.1 hplace) fun c hc => by simpa using hbefore c hc
  | none =>
    have hnone : ∀ c ∈ found, fs.kind c ≠ .directory := by
      simpa using List.find?_eq_none.1 hdirectory
    cases hother : found.find? fun c => fs.kind c == .other with
    | some place =>
      obtain ⟨hplace, before, after, hfound, hbefore⟩ := List.find?_eq_some_iff_append.1 hother
      have hkind : fs.kind place = .other := beq_iff_eq.1 hplace
      refine .blocked hfound hnone (by simp [hkind]) ?_
      refine missing_of_find?_eq_none ?_ hdirectory fun c hc => by simpa using hbefore c hc
      rw [hfound]
      exact List.subset_append_left _ _
    | none =>
      have hothers : ∀ c ∈ found, fs.kind c ≠ .other := by
        simpa using List.find?_eq_none.1 hother
      exact .nothing (missing_of_find?_eq_none (List.Subset.refl _) hdirectory hothers)

/-- Nothing else is picked. -/
theorem Picks.eq_outcome {picked : Except LoadError String} (h : Picks fs paths found picked) :
    picked = outcome fs paths found := by
  unfold outcome
  cases h with
  | directory hfound hplace hbefore =>
    have hdirectory : found.find? (fun c => fs.kind c == .directory) = some _ :=
      List.find?_eq_some_iff_append.2
        ⟨beq_iff_eq.2 hplace, _, _, hfound, fun c hc => by simpa using hbefore c hc⟩
    rw [hdirectory]
  | @blocked before _ place hfound hnone hplace hbefore =>
    have hdirectory : found.find? (fun c => fs.kind c == .directory) = none := by
      simpa [List.find?_eq_none] using hnone
    have hmem : place ∈ found := by simp [hfound]
    have hkind : fs.kind place = .other := by
      cases hkind : fs.kind place with
      | directory => exact absurd hkind (hnone place hmem)
      | other => rfl
      | missing => exact absurd hkind hplace
    have hother : found.find? (fun c => fs.kind c == .other) = some place :=
      List.find?_eq_some_iff_append.2
        ⟨beq_iff_eq.2 hkind, _, _, hfound, fun c hc => by simp [hbefore c hc]⟩
    rw [hdirectory, hother]
  | nothing hnone =>
    have hdirectory : found.find? (fun c => fs.kind c == .directory) = none :=
      List.find?_eq_none.2 fun c hc => by simp [hnone c hc]
    have hother : found.find? (fun c => fs.kind c == .other) = none :=
      List.find?_eq_none.2 fun c hc => by simp [hnone c hc]
    rw [hdirectory, hother]

/-! ### Resolving -/

/-- The search goes through all candidates and remembers the first one that is no directory. -/
theorem value_search (blocked : Option String) : (search fs folders blocked paths).value =
    match firstDirectory? fs folders paths with
    | some place => .ok place
    | none => .error (blocked.or
        ((paths.flatMap (candidates fs folders)).find? fun c => fs.kind c == .other)) := by
  have hor : ∀ a b : Option String, (a <|> b) = a.or b := fun a b => by cases a <;> rfl
  unfold firstDirectory?
  induction paths generalizing blocked with
  | nil => simp [search]
  | cons path paths ih =>
    simp only [search, List.flatMap_cons, List.find?_append]
    cases (candidates fs folders path).find? fun c => fs.kind c == .directory with
    | some place =>
      split
      · rfl
      · rfl
    | none =>
      have hrest := ih (blocked <|> (candidates fs folders path).find? fun c => fs.kind c == .other)
      rw [hor, Option.or_assoc, ← hor blocked] at hrest
      rw [Option.none_or]
      -- that a path has no candidates is reported, and the search goes on all the same
      split
      · exact hrest
      · exact hrest

theorem value_resolve (fs : FileSystem) (folders paths : List String) :
    (resolve fs folders paths).value =
      outcome fs paths (paths.flatMap (candidates fs folders)) := by
  simp only [resolve, Traced.value_bind, Traced.value_pure, value_search, firstDirectory?, outcome,
    Option.none_or]
  cases (paths.flatMap (candidates fs folders)).find? fun c => fs.kind c == .directory with
  | some place => rfl
  | none =>
    cases (paths.flatMap (candidates fs folders)).find? fun c => fs.kind c == .other with
    | some place => rfl
    | none => rfl

/-- **The first directory is used.** What some paths are resolved to is what is picked from the row
of all candidates that they lead to, path by path: the first directory, even behind an entry that is
none; else the first entry of any kind is to blame, and else all paths are, which the error names
with commas between them. -/
theorem resolve_eq_iff (fs : FileSystem) (folders paths : List String)
    (picked : Except LoadError String) :
    ((resolve fs folders paths).value = picked ↔
      ∃ rows, List.Forall₂ (LeadsTo fs folders) paths rows ∧ Picks fs paths rows.flatten picked) ∧
    (LoadError.notFound paths).message = "The directory " ++ ", ".intercalate paths ++
      " doesn't exist. Update the emmet.extensionsPath setting" := by
  refine ⟨⟨?_, ?_⟩, ?_⟩
  · rintro rfl
    refine ⟨_, forall₂_leadsTo_iff.2 rfl, ?_⟩
    rw [value_resolve]
    exact picks_outcome fs paths _
  · rintro ⟨rows, hrows, hpicked⟩
    rw [forall₂_leadsTo_iff.1 hrows] at hpicked
    rw [hpicked.eq_outcome, value_resolve]
    rfl
  · rfl

/-- A file stands before the directory that is used; below the home directory is nothing. -/
example : (resolve
    (((FileTree.addFile {} "/work/emmet" none).addDirectory "/ext").system "/home")
    ["/work", "/else"] ["~/emmet", "emmet", "/ext"]).value = .ok "/ext" := by decide +kernel

end Emmet.Library
