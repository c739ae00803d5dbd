import Emmet.Proofs.Json.Names
import Emmet.Proofs.Table.Repeated

/-!
# Values that are written as tokens

A value that is written as tokens is read back as it was, whatever tokens follow it.

* `Reader.Reads r ts x` : a reader takes the tokens for `x`;
* `Reader.reads_list`, `Reader.reads_table` : arrays and objects whose parts are read back;
* `Reader.Runs` : the members of an object, read one after another;
* `Reader.reads_value` : any value that names its entries once, as far as it is not nested too
  deeply.
-/

namespace Emmet.Json

/-! ### Tokens of arrays and objects -/

/-- The items of an array, and its closing bracket. -/
def itemTokens : List Json → List Token
  | [] => [.mark ']']
  | x :: xs => tokens x ++ moreItemTokens xs

/-- A member of an object. -/
def memberToken (e : String × Json) : List Token := .text (some e.1) :: .mark ':' :: tokens e.2

/-- The members of an object, and its closing brace. -/
def memberTokens : List (String × Json) → List Token
  | [] => [.mark '\x7d']
  | e :: es => memberToken e ++ moreMemberTokens es

theorem tokens_array (xs : List Json) : tokens (.array xs) = .mark '[' :: itemTokens xs := by
  cases xs with
  | nil => rw [tokens]; rfl
  | cons x xs => rw [tokens]; rfl

theorem tokens_object (es : List (String × Json)) :
    tokens (.object es) = .mark '\x7b' :: memberTokens es := by
  cases es with
  | nil => rw [tokens]; rfl
  | cons e es => rw [tokens]; rfl

theorem moreMemberTokens_cons (e : String × Json) (es : List (String × Json)) :
    moreMemberTokens (e :: es) = .mark ',' :: (memberToken e ++ moreMemberTokens es) := by
  rw [moreMemberTokens]
  rfl

theorem length_moreItemTokens (xs : List Json) : xs.length < (moreItemTokens xs).length := by
  induction xs with
  | nil => simp [moreItemTokens]
  | cons x xs ih => simp only [moreItemTokens, List.length_cons, List.length_append]; omega

theorem length_moreMemberTokens (es : List (String × Json)) :
    es.length < (moreMemberTokens es).length := by
  induction es with
  | nil => simp [moreMemberTokens]
  | cons e es ih =>
    simp only [moreMemberTokens_cons, List.length_cons, List.length_append]
    omega

/-- No value starts with a closing bracket. -/
theorem exists_tokens_eq_cons (v : Json) : ∃ t ts, tokens v = t :: ts ∧ t ≠ .mark ']' := by
  cases v with
  | array xs => exact ⟨_, _, tokens_array xs, by simp⟩
  | object es => exact ⟨_, _, tokens_object es, by simp⟩
  | null => exact ⟨_, _, rfl, nofun⟩
  | bool b => exact ⟨_, _, rfl, nofun⟩
  | integer n => exact ⟨_, _, rfl, nofun⟩
  | float x => exact ⟨_, _, rfl, nofun⟩
  | string s => exact ⟨_, _, rfl, nofun⟩

namespace Reader

variable {α β σ : Type}

/-- A reader takes some tokens for a value, whatever follows them. -/
def Reads (r : Reader α) (ts : List Token) (x : α) : Prop := ∀ rest, r (ts ++ rest) = .ok (x, rest)

/-! ### Items -/

variable {item : Reader α} {write : α → Json} {xs : List α}

theorem reads_moreItems (h : ∀ x ∈ xs, item.Reads (write x).tokens x) {fuel : Nat}
    (hfuel : xs.length < fuel) :
    (moreItems item fuel).Reads (moreItemTokens (xs.map write)) xs := by
  intro rest
  induction xs generalizing fuel with
  | nil =>
    obtain ⟨fuel, rfl⟩ := Nat.exists_eq_succ_of_ne_zero (Nat.ne_zero_of_lt hfuel)
    rfl
  | cons x xs ih =>
    obtain ⟨hx, hxs⟩ := List.forall_mem_cons.1 h
    obtain ⟨fuel, rfl⟩ := Nat.exists_eq_succ_of_ne_zero (Nat.ne_zero_of_lt hfuel)
    have hfirst := hx (moreItemTokens (xs.map write) ++ rest)
    have hrest := ih hxs (Nat.lt_of_succ_lt_succ hfuel)
    rw [List.map_cons, moreItemTokens, List.cons_append, List.append_assoc, moreItems,
      if_neg (by decide), if_pos rfl]
    simp only [hfirst, hrest, ok_bind]
    rfl

theorem items_cons {t : Token} (ht : t ≠ .mark ']') (ts : List Token) :
    items item (t :: ts) = (do
      let (x, us) ← item (t :: ts)
      let (xs, us) ← moreItems item us.length us
      return (x :: xs, us)) := by
  unfold items
  split
  · next heq => exact absurd (List.cons.inj heq).1 ht
  · next heq => cases heq
  · rfl

theorem reads_items (h : ∀ x ∈ xs, item.Reads (write x).tokens x) :
    (items item).Reads (itemTokens (xs.map write)) xs := by
  intro rest
  cases xs with
  | nil => rfl
  | cons x xs =>
    obtain ⟨hx, hxs⟩ := List.forall_mem_cons.1 h
    obtain ⟨t, ts, htokens, ht⟩ := exists_tokens_eq_cons (write x)
    have hfuel : xs.length < (moreItemTokens (xs.map write) ++ rest).length := by
      have hmore := length_moreItemTokens (xs.map write)
      rw [List.length_map] at hmore
      rw [List.length_append]
      omega
    have hfirst := hx (moreItemTokens (xs.map write) ++ rest)
    have hrest := reads_moreItems hxs hfuel rest
    rw [htokens, List.cons_append] at hfirst
    rw [List.map_cons, itemTokens, List.append_assoc, htokens, List.cons_append, items_cons ht]
    simp only [hfirst, hrest, ok_bind]
    rfl

/-- An array whose items are read back is read back. -/
theorem reads_list {item : Nat → Reader α} {limit : Nat}
    (h : ∀ x ∈ xs, (item limit).Reads (write x).tokens x) :
    (list item (limit + 1)).Reads (tokens (.array (xs.map write))) xs := by
  intro rest
  rw [tokens_array, List.cons_append]
  exact reads_items h rest

/-! ### Members -/

/-- The members of an object are read one after another, each changing the state. -/
inductive Runs (step : σ → String → Reader σ) : σ → List (String × Json) → σ → Prop
  | nil (s : σ) : Runs step s [] s
  | cons {s t u : σ} {e : String × Json} {es : List (String × Json)}
      (hstep : (step s e.1).Reads (.mark ':' :: tokens e.2) t) (hmore : Runs step t es u) :
      Runs step s (e :: es) u

variable {step : σ → String → Reader σ} {s t : σ} {es : List (String × Json)}

theorem Runs.reads_moreMembers (h : Runs step s es t) {fuel : Nat} (hfuel : es.length < fuel) :
    (moreMembers step fuel s).Reads (moreMemberTokens es) t := by
  intro rest
  induction h generalizing fuel with
  | nil s =>
    obtain ⟨fuel, rfl⟩ := Nat.exists_eq_succ_of_ne_zero (Nat.ne_zero_of_lt hfuel)
    rfl
  | @cons s t u e es hstep hmore ih =>
    obtain ⟨fuel, rfl⟩ := Nat.exists_eq_succ_of_ne_zero (Nat.ne_zero_of_lt hfuel)
    have hrest := ih (Nat.lt_of_succ_lt_succ hfuel)
    have hmember := hstep (moreMemberTokens es ++ rest)
    rw [List.cons_append] at hmember
    rw [moreMemberTokens_cons, memberToken, List.cons_append, List.append_assoc, List.cons_append,
      List.cons_append, moreMembers, if_neg (by decide), if_pos rfl]
    simp only [name, hmember, ok_bind]
    exact hrest

theorem Runs.reads_members (h : Runs step s es t) :
    (members step s).Reads (memberTokens es) t := by
  intro rest
  cases h with
  | nil => rfl
  | @cons _ u _ e es hstep hmore =>
    have hfuel : es.length < (moreMemberTokens es ++ rest).length := by
      have hlength := length_moreMemberTokens es
      rw [List.length_append]
      omega
    have hmember := hstep (moreMemberTokens es ++ rest)
    rw [List.cons_append] at hmember
    rw [memberTokens, memberToken, List.append_assoc, List.cons_append, List.cons_append, members]
    · simp only [name, hmember, ok_bind]
      exact hmore.reads_moreMembers hfuel rest
    · nofun
    · nofun

/-- The members of a table are written over those before them. -/
theorem runs_entry (table : Table α) {entries : Table α}
    (h : ∀ e ∈ entries, item.Reads (write e.2).tokens e.2) :
    Runs (entry item) table (entries.map fun e => (e.1, write e.2)) (table.overlay entries) := by
  induction entries generalizing table with
  | nil => exact .nil table
  | cons e entries ih =>
    obtain ⟨he, hentries⟩ := List.forall_mem_cons.1 h
    refine .cons (fun rest => ?_) (ih (table.put e.1 e.2) hentries)
    rw [List.cons_append, entry, mark, if_pos rfl, ok_bind, he, ok_bind]
    rfl

/-- An object whose values are read back is read back, if it names each of them once. -/
theorem reads_members_entry {entries : Table α} (hkeys : (Table.keys entries).Nodup)
    (h : ∀ e ∈ entries, item.Reads (write e.2).tokens e.2) :
    (members (entry item) []).Reads (memberTokens (entries.map fun e => (e.1, write e.2)))
      entries := by
  have hrun := (runs_entry [] h).reads_members
  rwa [← Table.ofEntries, Table.ofEntries_eq_self hkeys] at hrun

theorem reads_table {item : Nat → Reader α} {limit : Nat} {entries : Table α}
    (hkeys : (Table.keys entries).Nodup)
    (h : ∀ e ∈ entries, (item limit).Reads (write e.2).tokens e.2) :
    (table item (limit + 1)).Reads (tokens (.object (entries.map fun e => (e.1, write e.2))))
      entries := by
  intro rest
  rw [tokens_object, List.cons_append]
  exact reads_members_entry hkeys h rest

/-! ### Values -/

theorem reads_plain (limit : Nat) (v : Json) : (value limit).Reads [.plain (some v)] v :=
  fun rest => by rw [List.singleton_append, value]

theorem reads_text (limit : Nat) (s : String) :
    (value limit).Reads [.text (some s)] (.string s) :=
  fun rest => by rw [List.singleton_append, value]

theorem reads_array {limit : Nat} {xs : List Json}
    (h : ∀ x ∈ xs, (value limit).Reads x.tokens x) :
    (value (limit + 1)).Reads (tokens (.array xs)) (.array xs) := by
  intro rest
  have hitems : items (value limit) (itemTokens (xs.map id) ++ rest) = .ok (xs, rest) :=
    reads_items h rest
  rw [List.map_id] at hitems
  rw [tokens_array, List.cons_append, value, if_pos rfl, hitems]
  rfl

theorem reads_object {limit : Nat} {es : Table Json} (hkeys : (Table.keys es).Nodup)
    (h : ∀ e ∈ es, (value limit).Reads e.2.tokens e.2) :
    (value (limit + 1)).Reads (tokens (.object es)) (.object es) := by
  intro rest
  have hmembers : members (entry (value limit)) [] (memberTokens (es.map fun e => (e.1, id e.2)) ++
      rest) = .ok (es, rest) := reads_members_entry hkeys h rest
  rw [show es.map (fun e => (e.1, id e.2)) = es from List.map_id es] at hmembers
  rw [tokens_object, List.cons_append, value, if_neg (by decide), if_pos rfl, hmembers]
  rfl

/-- **A value that is written as tokens is read back**, if it names its entries once and is nested
no deeper than the reader goes. -/
theorem reads_value {v : Json} (h : v.NamesOnce) {limit : Nat} (hdepth : v.depth ≤ limit) :
    (value limit).Reads v.tokens v := by
  induction h generalizing limit with
  | null => exact reads_plain limit .null
  | bool b => exact reads_plain limit (.bool b)
  | integer n => exact reads_plain limit (.integer n)
  | float x => exact reads_plain limit (.float x)
  | string s => exact reads_text limit s
  | @array xs hxs ih =>
    obtain ⟨limit, rfl⟩ := Nat.exists_eq_add_of_le' (Nat.le_trans (Nat.le_add_left 1 _) hdepth)
    have hitems := itemDepth_le_iff.1 (Nat.le_of_succ_le_succ hdepth)
    exact reads_array fun x hx => ih x hx (hitems x hx)
  | @object es hkeys hes ih =>
    obtain ⟨limit, rfl⟩ := Nat.exists_eq_add_of_le' (Nat.le_trans (Nat.le_add_left 1 _) hdepth)
    have hentries := memberDepth_le_iff.1 (Nat.le_of_succ_le_succ hdepth)
    exact reads_object hkeys fun e he => ih e he (hentries e he)

/-- An object that is read for its entries. -/
theorem reads_table_value {es : Table Json} (h : (Json.object es).NamesOnce) {limit : Nat}
    (hdepth : (Json.object es).depth ≤ limit) :
    (table value limit).Reads (tokens (.object es)) es := by
  intro rest
  obtain ⟨limit, rfl⟩ := Nat.exists_eq_add_of_le' (Nat.le_trans (Nat.le_add_left 1 _) hdepth)
  have hread := reads_value h hdepth rest
  rw [tokens_object, List.cons_append] at hread ⊢
  rw [value, if_neg (by decide), if_pos rfl] at hread
  obtain ⟨⟨es', rest'⟩, hmembers, heq⟩ := exists_of_map hread
  cases heq
  exact hmembers

end Reader

end Emmet.Json
