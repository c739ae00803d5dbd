/-!
# Ordered tables

A table maps names to values and remembers the order in which the names came. Writing to a name that
is already there keeps its place and changes its value, so a repeated name has its first place and
its last value.
-/

namespace Emmet

/-- A mapping with named entries in order. -/
abbrev Table (α : Type) := List (String × α)

namespace Table

variable {α β : Type}

/-- The value under a name. -/
def find? : Table α → String → Option α
  | [], _ => none
  | (k, v) :: t, key => if k = key then some v else find? t key

/-- Writes a value under a name. -/
def put : Table α → String → α → Table α
  | [], key, value => [(key, value)]
  | (k, v) :: t, key, value => if k = key then (k, value) :: t else (k, v) :: put t key value

/-- Writes all entries of the second table over the first, in order. -/
def overlay (base upper : Table α) : Table α :=
  upper.foldl (fun t e => put t e.1 e.2) base

/-- The table that writing a list of entries one after the other gives. -/
def ofEntries (entries : List (String × α)) : Table α := overlay [] entries

/-- The names of a table, in order. -/
def keys (t : Table α) : List String := t.map Prod.fst

/-- Whether a name has an entry. -/
def has (t : Table α) (key : String) : Bool := (find? t key).isSome

@[simp] theorem find?_nil (key : String) : find? ([] : Table α) key = none := rfl

theorem find?_put (t : Table α) (key name : String) (value : α) :
    find? (put t key value) name = if key = name then some value else find? t name := by
  induction t with
  | nil => simp [put, find?]
  | cons e t ih =>
    obtain ⟨k, v⟩ := e
    by_cases hk : k = key
    · subst hk
      by_cases hn : k = name <;> simp [put, find?, hn]
    · by_cases hn : k = name
      · subst hn
        simp [put, find?, hk, Ne.symm hk]
      · simp [put, find?, hk, hn, ih]

theorem find?_isSome_iff {t : Table α} {key : String} :
    (find? t key).isSome = true ↔ key ∈ keys t := by
  induction t with
  | nil => simp [find?, keys]
  | cons e t ih =>
    obtain ⟨k, v⟩ := e
    by_cases hk : k = key
    · simp [find?, keys, hk]
    · simp only [find?, hk, if_false, ih]
      simp [keys, Ne.symm hk]

theorem keys_put (t : Table α) (key : String) (value : α) :
    keys (put t key value) = if key ∈ keys t then keys t else keys t ++ [key] := by
  induction t with
  | nil => simp [put, keys]
  | cons e t ih =>
    obtain ⟨k, v⟩ := e
    by_cases hk : k = key
    · simp [put, keys, hk]
    · simp only [keys] at ih
      simp only [put, hk, if_false, keys, List.map_cons, List.mem_cons, Ne.symm hk, false_or, ih]
      split <;> simp_all

theorem keys_put_nodup {t : Table α} (h : (keys t).Nodup) (key : String) (value : α) :
    (keys (put t key value)).Nodup := by
  rw [keys_put]
  split
  · exact h
  · next hkey =>
    refine List.nodup_append.2 ⟨h, List.nodup_cons.2 ⟨List.not_mem_nil, .nil⟩, ?_⟩
    intro a ha b hb hab
    exact hkey (List.mem_singleton.1 hb ▸ hab ▸ ha)

theorem mem_put {t : Table α} {key : String} {value : α} {e : String × α}
    (h : e ∈ put t key value) : e.2 = value ∨ e ∈ t := by
  induction t with
  | nil => exact .inl (congrArg Prod.snd (List.mem_singleton.1 h))
  | cons i t ih =>
    obtain ⟨k, v⟩ := i
    rw [put] at h
    split at h
    · obtain rfl | h := List.mem_cons.1 h
      · exact .inl rfl
      · exact .inr (List.mem_cons_of_mem _ h)
    · obtain rfl | h := List.mem_cons.1 h
      · exact .inr List.mem_cons_self
      · exact (ih h).imp_right (List.mem_cons_of_mem _)

theorem find?_eq_none {t : Table α} {key : String} (h : key ∉ keys t) : find? t key = none := by
  rw [← Option.not_isSome_iff_eq_none, find?_isSome_iff]
  exact h

/-- What is written over a table is found first. -/
theorem find?_overlay (base : Table α) {upper : Table α} (h : (keys upper).Nodup) (name : String) :
    find? (overlay base upper) name = (find? upper name).or (find? base name) := by
  induction upper generalizing base with
  | nil => rfl
  | cons e upper ih =>
    obtain ⟨k, v⟩ := e
    obtain ⟨hk, hupper⟩ := List.nodup_cons.1 h
    rw [overlay, List.foldl_cons, ← overlay, ih _ hupper, find?_put, find?]
    split
    · next hname => rw [find?_eq_none (hname ▸ hk), Option.none_or, Option.some_or]
    · rfl

/-- New names come after the old ones. -/
theorem keys_overlay (base : Table α) {upper : Table α} (h : (keys upper).Nodup) :
    keys (overlay base upper) = keys base ++ (keys upper).filter fun k => k ∉ keys base := by
  induction upper generalizing base with
  | nil => exact (List.append_nil _).symm
  | cons e upper ih =>
    obtain ⟨k, v⟩ := e
    obtain ⟨hk, hupper⟩ := List.nodup_cons.1 h
    rw [overlay, List.foldl_cons, ← overlay, ih _ hupper, keys_put]
    change _ = keys base ++ (k :: keys upper).filter _
    split
    · next hmem => rw [List.filter_cons_of_neg (by simpa using hmem)]
    · next hmem =>
      rw [List.filter_cons_of_pos (by simpa using hmem), List.append_assoc, List.singleton_append]
      congr 2
      refine List.filter_congr fun j hj => ?_
      have hne : j ≠ k := fun h => hk (h ▸ hj)
      simp [hne]

/-- Writing over a table removes no name. -/
theorem keys_subset_overlay (base upper : Table α) : keys base ⊆ keys (overlay base upper) := by
  induction upper generalizing base with
  | nil => exact List.Subset.refl _
  | cons e upper ih =>
    refine List.Subset.trans ?_ (ih (put base e.1 e.2))
    rw [keys_put]
    split
    · exact List.Subset.refl _
    · exact List.subset_append_left _ _

theorem find?_eq_some_iff {t : Table α} (h : (keys t).Nodup) {key : String} {value : α} :
    find? t key = some value ↔ (key, value) ∈ t := by
  induction t with
  | nil => simp
  | cons e t ih =>
    obtain ⟨k, v⟩ := e
    obtain ⟨hk, ht⟩ := List.nodup_cons.1 h
    rw [find?, List.mem_cons]
    split
    · next hkey =>
      have hnot : (key, value) ∉ t := fun hmem => hk (List.mem_map.2 ⟨_, hmem, hkey.symm⟩)
      simp [hkey, hnot, eq_comm]
    · next hkey => simp [ih ht, Ne.symm hkey]

/-- The order of the entries does not matter for what is found. -/
theorem find?_perm {t u : Table α} (h : t.Perm u) (ht : (keys t).Nodup) (key : String) :
    find? t key = find? u key := by
  have hu : (keys u).Nodup := (h.map Prod.fst).nodup_iff.1 ht
  refine Option.ext fun value => ?_
  rw [find?_eq_some_iff ht, find?_eq_some_iff hu, h.mem_iff]

theorem find?_map (t : Table α) (f : String → α → β) (key : String) :
    find? (t.map fun e => (e.1, f e.1 e.2)) key = (find? t key).map (f key) := by
  induction t with
  | nil => rfl
  | cons e t ih =>
    obtain ⟨k, v⟩ := e
    rw [List.map_cons, find?, find?, ih]
    split
    · next hkey => rw [hkey]; rfl
    · rfl

theorem keys_map (t : Table α) (f : String → α → β) :
    keys (t.map fun e => (e.1, f e.1 e.2)) = keys t := by
  rw [keys, List.map_map]
  rfl

theorem keys_filterMap_sublist (t : Table α) (f : α → Option β) :
    (keys (t.filterMap fun e => (f e.2).map (e.1, ·))).Sublist (keys t) := by
  induction t with
  | nil => exact .slnil
  | cons e t ih =>
    rw [List.filterMap_cons]
    cases f e.2 with
    | none => exact ih.cons _
    | some b => exact ih.cons_cons _

theorem find?_filterMap {t : Table α} (h : (keys t).Nodup) (f : α → Option β) (key : String) :
    find? (t.filterMap fun e => (f e.2).map (e.1, ·)) key = (find? t key).bind f := by
  induction t with
  | nil => rfl
  | cons e t ih =>
    obtain ⟨k, v⟩ := e
    obtain ⟨hk, ht⟩ := List.nodup_cons.1 h
    rw [List.filterMap_cons, find?]
    cases hv : f v with
    | none =>
      rw [Option.map_none, ih ht]
      split
      · next hkey =>
        rw [find?_eq_none (hkey ▸ hk), Option.bind_some, hv, Option.bind_none]
      · rfl
    | some b =>
      simp only [Option.map_some, find?]
      rw [ih ht]
      split
      · rw [Option.bind_some, hv]
      · rfl

end Table

end Emmet
