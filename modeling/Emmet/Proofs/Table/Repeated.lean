import Emmet.Table

/-!
# First place, last value

Entries that are written one after the other may repeat a name, which then has its first place and
its last value. This file says so for entries that are written over a table.

* `find?_overlay_reverse` : under a name stands what was written last;
* `keys_overlay_eraseDups` : new names stand in the order in which they first came;
* `ext` : a table that has every name once is known by its names and by what is found under them;
* `overlay_overlay` : entries that are first put into a table of their own come to the same;
* `filter_overlay` : writing under some names does not touch the entries under others;
* `find?_filter` : nor does it matter for what is found under these.
-/

namespace Emmet.Table

variable {α : Type}

/-! ### What is found -/

theorem find?_cons (key : String) (value : α) (t : Table α) (name : String) :
    find? ((key, value) :: t) name = if name = key then some value else find? t name := by
  by_cases h : name = key
  · rw [find?, if_pos h.symm, if_pos h]
  · rw [find?, if_neg (Ne.symm h), if_neg h]

theorem find?_append (t u : Table α) (name : String) :
    find? (t ++ u) name = (find? t name).or (find? u name) := by
  induction t with
  | nil => rfl
  | cons e t ih =>
    obtain ⟨k, v⟩ := e
    rw [List.cons_append, find?, find?, ih]
    split
    · rfl
    · rfl

/-- Under a name stands what was written last. -/
theorem find?_overlay_reverse (base upper : Table α) (name : String) :
    find? (overlay base upper) name = (find? upper.reverse name).or (find? base name) := by
  induction upper generalizing base with
  | nil => rfl
  | cons e upper ih =>
    obtain ⟨k, v⟩ := e
    rw [overlay, List.foldl_cons, ← overlay, ih, find?_put, List.reverse_cons, find?_append,
      Option.or_assoc]
    congr 1
    rw [find?]
    split
    · rfl
    · rfl

/-! ### The order of the names -/

/-- New names stand behind the old ones, in the order in which they first came. -/
theorem keys_overlay_eraseDups (base upper : Table α) :
    keys (overlay base upper) =
      keys base ++ ((keys upper).filter fun k => k ∉ keys base).eraseDups := by
  induction upper generalizing base with
  | nil => exact (List.append_nil _).symm
  | cons e upper ih =>
    obtain ⟨k, v⟩ := e
    rw [overlay, List.foldl_cons, ← overlay, ih, keys_put]
    change _ = keys base ++ ((k :: keys upper).filter _).eraseDups
    split
    · next hmem => rw [List.filter_cons_of_neg (by simpa using hmem)]
    · next hmem =>
      rw [List.filter_cons_of_pos (by simpa using hmem), List.eraseDups_cons, List.filter_filter,
        List.append_assoc, List.singleton_append]
      congr 3
      refine List.filter_congr fun j _ => ?_
      by_cases hj : j = k <;> simp [hj]

theorem keys_ofEntries (entries : List (String × α)) :
    keys (ofEntries entries) = (keys entries).eraseDups := by
  rw [ofEntries, keys_overlay_eraseDups, List.filter_eq_self.2 (by simp [keys])]
  rfl

theorem keys_overlay_nodup {base : Table α} (h : (keys base).Nodup) (upper : Table α) :
    (keys (overlay base upper)).Nodup := by
  induction upper generalizing base with
  | nil => exact h
  | cons e upper ih => exact ih (keys_put_nodup h e.1 e.2)

theorem keys_ofEntries_nodup (entries : List (String × α)) :
    (keys (ofEntries entries)).Nodup := by
  have hnil : (keys ([] : Table α)).Nodup := List.nodup_nil
  exact keys_overlay_nodup hnil entries

/-! ### Equal tables -/

/-- A table that has every name once is known by its names and by what is found under them. -/
theorem ext {t u : Table α} (hnodup : (keys t).Nodup) (hkeys : keys t = keys u)
    (hfind : ∀ name, find? t name = find? u name) : t = u := by
  induction t generalizing u with
  | nil => exact (List.map_eq_nil_iff.1 hkeys.symm).symm
  | cons e t ih =>
    cases u with
    | nil => cases hkeys
    | cons d u =>
      obtain ⟨k, v⟩ := e
      obtain ⟨j, w⟩ := d
      obtain ⟨hk, ht⟩ := List.nodup_cons.1 hnodup
      obtain ⟨rfl, htail⟩ : k = j ∧ keys t = keys u := List.cons.inj hkeys
      have hv := hfind k
      rw [find?, find?, if_pos rfl, if_pos rfl] at hv
      rw [Option.some.inj hv, ih ht htail fun name => ?_]
      by_cases hname : k = name
      · rw [← hname, find?_eq_none hk, find?_eq_none (htail ▸ hk)]
      · have hrest := hfind name
        rwa [find?, find?, if_neg hname, if_neg hname] at hrest

/-- A table that has every name once is what writing its entries gives. -/
theorem ofEntries_eq_self {t : Table α} (h : (keys t).Nodup) : ofEntries t = t := by
  refine ext (keys_ofEntries_nodup t) ?_ fun name => ?_
  · rw [ofEntries, keys_overlay [] h, List.filter_eq_self.2 (by simp [keys])]
    rfl
  · rw [ofEntries, find?_overlay [] h, find?_nil, Option.or_none]

/-- What is put into the upper table is written last. -/
theorem overlay_put {base upper : Table α} (hbase : (keys base).Nodup)
    (hupper : (keys upper).Nodup) (key : String) (value : α) :
    overlay base (put upper key value) = put (overlay base upper) key value := by
  have hput := keys_put_nodup hupper key value
  refine ext (keys_overlay_nodup hbase _) ?_ fun name => ?_
  · rw [keys_overlay base hput, keys_put, keys_put, keys_overlay base hupper]
    -- the name is new to both tables, or to one of them, or to none
    by_cases hk : key ∈ keys upper <;> by_cases hb : key ∈ keys base <;> simp [hk, hb]
  · rw [find?_overlay base hput, find?_put, find?_put, find?_overlay base hupper]
    split
    · rfl
    · rfl

/-- Entries may be put into a table of their own before they are written over another one. -/
theorem overlay_overlay {base middle : Table α} (hbase : (keys base).Nodup)
    (hmiddle : (keys middle).Nodup) (entries : List (String × α)) :
    overlay base (overlay middle entries) = overlay (overlay base middle) entries := by
  induction entries generalizing middle with
  | nil => rfl
  | cons e entries ih =>
    have hput := ih (keys_put_nodup hmiddle e.1 e.2)
    rwa [overlay_put hbase hmiddle] at hput

theorem overlay_ofEntries {base : Table α} (hbase : (keys base).Nodup)
    (entries : List (String × α)) : overlay base (ofEntries entries) = overlay base entries := by
  have hnil : (keys ([] : Table α)).Nodup := List.nodup_nil
  exact overlay_overlay hbase hnil entries

/-! ### Some of the names -/

theorem find?_filter (p : String → Bool) (t : Table α) (name : String) :
    find? (t.filter (p ·.1)) name = if p name then find? t name else none := by
  induction t with
  | nil => simp
  | cons e t ih =>
    obtain ⟨k, v⟩ := e
    by_cases hk : k = name
    · subst hk
      cases hp : p k with
      | true => simp [hp, find?]
      | false => simpa [hp] using ih
    · cases hp : p k with
      | true => simp [hp, find?, hk, ih]
      | false => simp [hp, find?, hk, ih]

variable {p : String → Bool}

theorem filter_put_of_pos {key : String} (h : p key = true) (t : Table α) (value : α) :
    (put t key value).filter (p ·.1) = put (t.filter (p ·.1)) key value := by
  induction t with
  | nil => simp [put, h]
  | cons e t ih =>
    obtain ⟨k, v⟩ := e
    rw [put]
    split
    · next hk => simp [hk, h, put]
    · next hk =>
      cases hp : p k with
      | true => simp [hp, ih, put, hk]
      | false => simp [hp, ih]

theorem filter_put_of_neg {key : String} (h : p key = false) (t : Table α) (value : α) :
    (put t key value).filter (p ·.1) = t.filter (p ·.1) := by
  induction t with
  | nil => simp [put, h]
  | cons e t ih =>
    obtain ⟨k, v⟩ := e
    rw [put]
    split
    · next hk => simp [hk, h]
    · next hk => rw [List.filter_cons, List.filter_cons, ih]

/-- Writing under some names does not touch the entries under others. -/
theorem filter_overlay (p : String → Bool) (base upper : Table α) :
    (overlay base upper).filter (p ·.1) = overlay (base.filter (p ·.1)) (upper.filter (p ·.1)) := by
  induction upper generalizing base with
  | nil => rfl
  | cons e upper ih =>
    rw [overlay, List.foldl_cons, ← overlay, ih]
    cases hp : p e.1 with
    | true =>
      rw [filter_put_of_pos hp, List.filter_cons_of_pos (by simpa using hp)]
      rfl
    | false => rw [filter_put_of_neg hp, List.filter_cons_of_neg (by simp [hp])]

end Emmet.Table
