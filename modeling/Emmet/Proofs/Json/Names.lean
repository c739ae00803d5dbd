import Emmet.Json.Reader
import Emmet.Proofs.Json.Numerals

/-!
# Names, nesting and numbers in documents that are read

An object of a document may repeat a name, but the value that is read has it once: a member is
written over the one before it. A value is nested no deeper than the limit that it was read with,
and its whole numbers fit into 64 bits.

* `NamesOnce` : no object in a value has two entries of one name;
* `Given` : names once, nesting up to a limit, and whole numbers in range;
* `Reader.Gives P r` : what a reader gives has the property `P`;
* `Reader.gives_value` : any value that is read is `Given`;
* `namesOnce_of_parse` : so every value that a text holds names its entries once.
-/

namespace Emmet.Json

/-- Every object in a value names each of its entries once. -/
inductive NamesOnce : Json → Prop where
  | null : NamesOnce .null
  | bool (b : Bool) : NamesOnce (.bool b)
  | integer (n : Int) : NamesOnce (.integer n)
  | float (x : Float) : NamesOnce (.float x)
  | string (s : String) : NamesOnce (.string s)
  | array {items : List Json} (hitems : ∀ x ∈ items, NamesOnce x) : NamesOnce (.array items)
  | object {entries : Table Json} (hkeys : (Table.keys entries).Nodup)
      (hentries : ∀ e ∈ entries, NamesOnce e.2) : NamesOnce (.object entries)

theorem NamesOnce.keys_nodup {entries : Table Json} (h : (Json.object entries).NamesOnce) :
    (Table.keys entries).Nodup := by
  cases h with
  | object hkeys hentries => exact hkeys

theorem NamesOnce.of_find? {entries : Table Json} (h : (Json.object entries).NamesOnce)
    {key : String} {value : Json} (hvalue : Table.find? entries key = some value) :
    value.NamesOnce := by
  cases h with
  | object hkeys hentries => exact hentries _ ((Table.find?_eq_some_iff hkeys).1 hvalue)

/-! ### Nesting -/

theorem itemDepth_le_iff {items : List Json} {n : Nat} :
    itemDepth items ≤ n ↔ ∀ x ∈ items, x.depth ≤ n := by
  induction items with
  | nil => simp [itemDepth]
  | cons x items ih => rw [itemDepth, Nat.max_le, ih, List.forall_mem_cons]

theorem memberDepth_le_iff {entries : Table Json} {n : Nat} :
    memberDepth entries ≤ n ↔ ∀ e ∈ entries, e.2.depth ≤ n := by
  induction entries with
  | nil => simp [memberDepth]
  | cons e entries ih =>
    obtain ⟨k, v⟩ := e
    rw [memberDepth, Nat.max_le, ih, List.forall_mem_cons]

/-! ### Values that are given -/

/-- A value that is neither an array nor an object. -/
def IsScalar : Json → Bool
  | .array _ | .object _ => false
  | _ => true

theorem NamesOnce.of_isScalar {v : Json} (h : v.IsScalar = true) : v.NamesOnce := by
  cases v with
  | null => exact .null
  | bool b => exact .bool b
  | integer n => exact .integer n
  | float x => exact .float x
  | string s => exact .string s
  | array items => cases h
  | object entries => cases h

theorem depth_of_isScalar {v : Json} (h : v.IsScalar = true) : v.depth = 0 := by
  cases v with
  | array items => cases h
  | object entries => cases h
  | _ => rfl

/-- Every scalar in a value has a property. -/
inductive Each (P : Json → Prop) : Json → Prop where
  | scalar {v : Json} (hv : v.IsScalar = true) (h : P v) : Each P v
  | array {items : List Json} (hitems : ∀ x ∈ items, Each P x) : Each P (.array items)
  | object {entries : Table Json} (hentries : ∀ e ∈ entries, Each P e.2) :
      Each P (.object entries)

/-- What holds of a value that is read with a limit on its nesting. -/
structure Given (limit : Nat) (v : Json) : Prop where
  namesOnce : v.NamesOnce
  depth_le : v.depth ≤ limit
  inRange : v.Each InRange

theorem Given.of_isScalar {v : Json} (h : v.IsScalar = true) (hrange : v.InRange) (limit : Nat) :
    v.Given limit where
  namesOnce := .of_isScalar h
  depth_le := depth_of_isScalar h ▸ Nat.zero_le limit
  inRange := .scalar h hrange

theorem Given.array {limit : Nat} {items : List Json} (h : ∀ x ∈ items, x.Given limit) :
    (Json.array items).Given (limit + 1) where
  namesOnce := .array fun x hx => (h x hx).namesOnce
  depth_le := Nat.succ_le_succ (itemDepth_le_iff.2 fun x hx => (h x hx).depth_le)
  inRange := .array fun x hx => (h x hx).inRange

theorem Given.object {limit : Nat} {entries : Table Json} (hkeys : (Table.keys entries).Nodup)
    (h : ∀ e ∈ entries, e.2.Given limit) : (Json.object entries).Given (limit + 1) where
  namesOnce := .object hkeys fun e he => (h e he).namesOnce
  depth_le := Nat.succ_le_succ (memberDepth_le_iff.2 fun e he => (h e he).depth_le)
  inRange := .object fun e he => (h e he).inRange

/-! ### Tokens -/

/-- The value of a word or a number has no parts, and is in range. -/
def Token.IsSound (t : Token) : Prop :=
  ∀ v, t = .plain (some v) → v.IsScalar = true ∧ v.InRange

namespace Token

theorem isScalar_of_value? {p : Number.Parts} {v : Json} (h : Number.value? p = some v) :
    v.IsScalar = true := by
  unfold Number.value? at h
  simp only at h
  split at h
  · repeat' split at h
    all_goals
      obtain rfl := Option.some.inj h
      rfl
  · obtain ⟨x, -, rfl⟩ := Option.map_eq_some_iff.1 h
    rfl

theorem isSound_wordToken (letters : String) (value : Json)
    (h : value.IsScalar = true ∧ value.InRange) (cs : List Char) :
    (wordToken letters value cs).1.IsSound := by
  intro v hv
  unfold wordToken at hv
  split at hv
  · cases hv
    exact h
  · cases hv

theorem isSound_next (c : Char) (cs : List Char) : (next c cs).1.IsSound := by
  unfold next
  -- marks, texts, the three words and numbers, in the order in which they are tried
  split
  · nofun
  split
  · intro v hv
    unfold textToken at hv
    split at hv <;> cases hv
  split
  · exact isSound_wordToken _ .null ⟨rfl, trivial⟩ cs
  split
  · exact isSound_wordToken _ (.bool true) ⟨rfl, trivial⟩ cs
  split
  · exact isSound_wordToken _ (.bool false) ⟨rfl, trivial⟩ cs
  split
  · intro v hv
    unfold numberToken at hv
    split at hv
    · have hvalue := Token.plain.inj hv
      exact ⟨isScalar_of_value? hvalue, Number.inRange_of_value? hvalue⟩
    · cases hv
  · nofun

theorem isSound_of_mem_scanWith {fuel : Nat} {cs : List Char} {t : Token}
    (h : t ∈ scanWith fuel cs) : t.IsSound := by
  induction fuel generalizing cs with
  | zero => cases cs <;> cases h
  | succ fuel ih =>
    cases cs with
    | nil => cases h
    | cons c cs =>
      have hnext := isSound_next c cs
      rw [scanWith] at h
      split at h
      · exact ih h
      · split at h
        · next hn =>
          rw [hn] at hnext
          obtain rfl | h := List.mem_cons.1 h
          · exact hnext
          · exact ih h
        · next hn =>
          rw [hn] at hnext
          obtain rfl := List.mem_singleton.1 h
          exact hnext

end Token

/-! ### Readers -/

namespace Reader

variable {α σ : Type} {P : α → Prop} {I : σ → Prop}

/-- From sound tokens a reader gives what has a property, and it leaves sound tokens. -/
def Gives (P : α → Prop) (r : Reader α) : Prop :=
  ∀ ts x rest, (∀ t ∈ ts, t.IsSound) → r ts = .ok (x, rest) → P x ∧ ∀ t ∈ rest, t.IsSound

theorem gives_moreItems {item : Reader α} (hitem : Gives P item) (fuel : Nat) :
    Gives (∀ x ∈ ·, P x) (moreItems item fuel) := by
  intro ts xs rest hts h
  induction fuel generalizing ts xs with
  | zero => cases ts <;> cases h
  | succ fuel ih =>
    unfold moreItems at h
    split at h
    · cases h
    · next heq => cases heq
    · next heq =>
      cases heq
      have hts := (List.forall_mem_cons.1 hts).2
      -- the items end here, or a comma and one more item follow
      split at h
      · cases h
        exact ⟨nofun, hts⟩
      · split at h
        · obtain ⟨⟨y, us⟩, hy, h⟩ := exists_of_bind h
          obtain ⟨⟨ys, vs⟩, hys, h⟩ := exists_of_bind h
          cases h
          obtain ⟨hPy, hus⟩ := hitem _ _ _ hts hy
          obtain ⟨hPys, hvs⟩ := ih _ _ hus hys
          exact ⟨List.forall_mem_cons.2 ⟨hPy, hPys⟩, hvs⟩
        · cases h
    · cases h

theorem gives_items {item : Reader α} (hitem : Gives P item) :
    Gives (∀ x ∈ ·, P x) (items item) := by
  intro ts xs rest hts h
  unfold items at h
  split at h
  · cases h
    exact ⟨nofun, (List.forall_mem_cons.1 hts).2⟩
  · cases h
  · obtain ⟨⟨y, us⟩, hy, h⟩ := exists_of_bind h
    obtain ⟨⟨ys, vs⟩, hys, h⟩ := exists_of_bind h
    cases h
    obtain ⟨hPy, hus⟩ := hitem _ _ _ hts hy
    obtain ⟨hPys, hvs⟩ := gives_moreItems hitem _ _ _ _ hus hys
    exact ⟨List.forall_mem_cons.2 ⟨hPy, hPys⟩, hvs⟩

theorem sound_of_name {ts rest : List Token} {key : String} (hts : ∀ t ∈ ts, t.IsSound)
    (h : name ts = .ok (key, rest)) : ∀ t ∈ rest, t.IsSound := by
  unfold name at h
  split at h
  · cases h
  · cases h
    exact (List.forall_mem_cons.1 hts).2
  · cases h
  · cases h

theorem gives_moreMembers {step : σ → String → Reader σ}
    (hstep : ∀ s key, I s → Gives I (step s key)) (fuel : Nat) {s : σ} (hs : I s) :
    Gives I (moreMembers step fuel s) := by
  intro ts x rest hts h
  induction fuel generalizing ts s with
  | zero => cases ts <;> cases h
  | succ fuel ih =>
    unfold moreMembers at h
    split at h
    · cases h
    · next heq => cases heq
    · next heq =>
      cases heq
      have hts := (List.forall_mem_cons.1 hts).2
      split at h
      · cases h
        exact ⟨hs, hts⟩
      · split at h
        · obtain ⟨⟨key, us⟩, hkey, h⟩ := exists_of_bind h
          obtain ⟨⟨s', vs⟩, hs', h⟩ := exists_of_bind h
          obtain ⟨hIs, hvs⟩ := hstep _ key hs _ _ _ (sound_of_name hts hkey) hs'
          exact ih hIs _ hvs h
        · cases h
    · cases h

theorem gives_members {step : σ → String → Reader σ}
    (hstep : ∀ s key, I s → Gives I (step s key)) {s : σ} (hs : I s) :
    Gives I (members step s) := by
  intro ts x rest hts h
  unfold members at h
  split at h
  · cases h
    exact ⟨hs, (List.forall_mem_cons.1 hts).2⟩
  · cases h
  · obtain ⟨⟨key, us⟩, hkey, h⟩ := exists_of_bind h
    obtain ⟨⟨s', vs⟩, hs', h⟩ := exists_of_bind h
    obtain ⟨hIs, hvs⟩ := hstep s key hs _ _ _ (sound_of_name hts hkey) hs'
    exact gives_moreMembers hstep _ hIs _ _ _ hvs h

theorem sound_of_mark {ts rest : List Token} {c : Char} (hts : ∀ t ∈ ts, t.IsSound)
    (h : mark c ts = .ok rest) : ∀ t ∈ rest, t.IsSound := by
  unfold mark at h
  split at h
  · cases h
  · split at h
    · cases h
      exact (List.forall_mem_cons.1 hts).2
    · cases h
  · cases h

/-- A member is written over the one of its name. -/
theorem gives_entry {item : Reader α} (hitem : Gives P item) (table : Table α) (key : String)
    (htable : (Table.keys table).Nodup ∧ ∀ e ∈ table, P e.2) :
    Gives (fun t => (Table.keys t).Nodup ∧ ∀ e ∈ t, P e.2) (entry item table key) := by
  intro ts t rest hts h
  obtain ⟨us, hmark, h⟩ := exists_of_bind h
  obtain ⟨⟨x, vs⟩, hx, h⟩ := exists_of_bind h
  cases h
  obtain ⟨hPx, hvs⟩ := hitem _ _ _ (sound_of_mark hts hmark) hx
  refine ⟨⟨Table.keys_put_nodup htable.1 key x, fun e he => ?_⟩, hvs⟩
  obtain he | he := Table.mem_put he
  · rw [he]
    exact hPx
  · exact htable.2 e he

/-- An object starts without members. -/
theorem gives_members_entry {item : Reader α} (hitem : Gives P item) :
    Gives (fun t => (Table.keys t).Nodup ∧ ∀ e ∈ t, P e.2) (members (entry item) []) := by
  have hnil : (Table.keys ([] : Table α)).Nodup ∧ ∀ e ∈ ([] : Table α), P e.2 :=
    ⟨List.nodup_nil, fun _ he => absurd he List.not_mem_nil⟩
  exact gives_members (gives_entry hitem) hnil

theorem gives_table {item : Nat → Reader α} (limit : Nat) (hitem : Gives P (item limit)) :
    Gives (fun t => (Table.keys t).Nodup ∧ ∀ e ∈ t, P e.2) (table item (limit + 1)) := by
  intro ts t rest hts h
  unfold table at h
  split at h
  · exact gives_members_entry hitem _ _ _ (List.forall_mem_cons.1 hts).2 h
  · cases h

theorem gives_list {item : Nat → Reader α} (limit : Nat) (hitem : Gives P (item limit)) :
    Gives (∀ x ∈ ·, P x) (list item (limit + 1)) := by
  intro ts xs rest hts h
  unfold list at h
  split at h
  · exact gives_items hitem _ _ _ (List.forall_mem_cons.1 hts).2 h
  · cases h

/-- What is passed over is taken off the front. -/
theorem sound_of_skip {ts rest : List Token} (hts : ∀ t ∈ ts, t.IsSound)
    (h : skip ts = .ok ((), rest)) : ∀ t ∈ rest, t.IsSound := by
  obtain ⟨⟨v, us⟩, -, h⟩ := exists_of_bind h
  cases h
  exact fun t ht => hts t (List.mem_of_mem_drop ht)

theorem gives_value (limit : Nat) : Gives (Given limit) (value limit) := by
  induction limit using Nat.strongRecOn with
  | ind limit ih =>
    intro ts v rest hts h
    unfold value at h
    -- a word or a number, a text, or a bracket: what is inside of it has a lower limit
    split at h
    · cases h
      obtain ⟨hscalar, hrange⟩ := hts _ List.mem_cons_self _ rfl
      exact ⟨.of_isScalar hscalar hrange limit, (List.forall_mem_cons.1 hts).2⟩
    · cases h
      exact ⟨.of_isScalar rfl (by trivial) limit, (List.forall_mem_cons.1 hts).2⟩
    · have hts := (List.forall_mem_cons.1 hts).2
      split at h
      · split at h
        · cases h
        · next limit =>
          obtain ⟨p, hp, hv⟩ := exists_of_map h
          cases hv
          obtain ⟨hP, hrest⟩ := gives_items (ih limit (Nat.lt_succ_self _)) _ _ _ hts hp
          exact ⟨.array hP, hrest⟩
      · split at h
        · split at h
          · cases h
          · next limit =>
            obtain ⟨p, hp, hv⟩ := exists_of_map h
            cases hv
            obtain ⟨⟨hkeys, hP⟩, hrest⟩ :=
              gives_members_entry (ih limit (Nat.lt_succ_self _)) _ _ _ hts hp
            exact ⟨.object hkeys hP, hrest⟩
        · cases h
    · cases h

theorem gives_document {read : Reader α} (hread : Gives P read) {text : List Char} {x : α}
    (h : document read text = .ok x) : P x := by
  obtain ⟨⟨y, rest⟩, hy, h⟩ := exists_of_bind h
  obtain ⟨-, -, h⟩ := exists_of_bind h
  cases h
  exact (hread _ _ _ (fun _ ht => Token.isSound_of_mem_scanWith ht) hy).1

end Reader

/-- **A value that is read names every entry once**, whatever the text repeats. -/
theorem namesOnce_of_parse {text : List Char} {v : Json} (h : parse text = .ok v) :
    v.NamesOnce :=
  (Reader.gives_document (Reader.gives_value _) h).namesOnce

end Emmet.Json
