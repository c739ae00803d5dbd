import Emmet.Json.Printer
import Emmet.Proofs.Json.Tokens

/-!
# Values that are written as texts

The text that a value is written as breaks into the tokens of the value. Of its numbers the whole
ones are in range, and a float has to be read back from its shortest decimal.

* `Breaks cs ts` : a text breaks into tokens, whatever stands behind it;
* `breaks_quote` : strings, with every character escaped that has to be;
* `breaks_compact` : all values;
* `Spells`, `spells_compact` : so the written text of a value spells it.
-/

namespace Emmet.Json

open Token

/-- A text breaks into tokens, and so does what follows it. -/
structure Breaks (cs : List Char) (ts : List Token) : Prop where
  length_le : ts.length ≤ cs.length
  scanWith_append : ∀ fuel rest, Follows rest →
    scanWith (ts.length + fuel) (cs ++ rest) = ts ++ scanWith fuel rest

theorem Breaks.scan_eq {cs : List Char} {ts : List Token} (h : Breaks cs ts) : scan cs = ts := by
  have hscan := h.scanWith_append (cs.length - ts.length) [] nofun
  rw [Nat.add_sub_cancel' h.length_le, List.append_nil] at hscan
  rw [scan, hscan]
  cases cs.length - ts.length <;> rw [scanWith, List.append_nil]

namespace Breaks

variable {cs ds : List Char} {ts us : List Token}

theorem nil : Breaks [] [] where
  length_le := Nat.le_refl 0
  scanWith_append fuel rest _ := by rw [List.length_nil, Nat.zero_add]; rfl

/-- One token and what stands behind it. -/
theorem cons {c : Char} {t : Token} {after : List Char} (h : Breaks ds ts) (hc : isSpace c = false)
    (hlength : ds.length ≤ after.length)
    (hnext : ∀ rest, Follows rest → next c (after ++ rest) = (t, some (ds ++ rest))) :
    Breaks (c :: after) (t :: ts) where
  length_le := Nat.succ_le_succ (Nat.le_trans h.length_le hlength)
  scanWith_append fuel rest hrest := by
    rw [List.length_cons, Nat.add_right_comm, List.cons_append, scanWith, hc, hnext rest hrest]
    simp only [Bool.false_eq_true, if_false, h.scanWith_append fuel rest hrest, List.cons_append]

theorem mark {c : Char} (hc : c ∈ ['[', ']', '\x7b', '\x7d', ',', ':']) (h : Breaks cs ts) :
    Breaks (c :: cs) (.mark c :: ts) := by
  have hmarks : ['[', ']', '\x7b', '\x7d', ',', ':'].all (isSpace · == false) = true := by decide
  have hspace : isSpace c = false := beq_iff_eq.1 (List.all_eq_true.1 hmarks c hc)
  exact h.cons hspace (Nat.le_refl _) fun rest _ => by rw [next, if_pos hc]

/-- A text behind which a comma or a closing mark comes. -/
theorem append (h : Breaks cs ts) (hmore : Breaks ds us)
    (hds : ∀ rest, Follows rest → Follows (ds ++ rest)) : Breaks (cs ++ ds) (ts ++ us) where
  length_le := by
    rw [List.length_append, List.length_append]
    exact Nat.add_le_add h.length_le hmore.length_le
  scanWith_append fuel rest hrest := by
    rw [List.length_append, Nat.add_assoc, List.append_assoc, List.append_assoc,
      h.scanWith_append _ _ (hds rest hrest), hmore.scanWith_append fuel rest hrest]

end Breaks

/-! ### Strings -/

theorem hexValue?_hexDigit {n : Nat} (h : n < 16) : hexValue? (hexDigit n) = some n := by
  revert n
  decide

theorem hexCode_cons {a b c d : Char} {k l m n : Nat} (ha : hexValue? a = some k)
    (hb : hexValue? b = some l) (hc : hexValue? c = some m) (hd : hexValue? d = some n)
    (rest : List Char) :
    hexCode (a :: b :: c :: d :: rest) = .ok (4096 * k + 256 * l + 16 * m + n, rest) := by
  have hbytes : ¬ Text.bytes ((a :: b :: c :: d :: rest).take 4) < 4 := by
    have ha := a.utf8Size_pos
    have hb := b.utf8Size_pos
    have hc := c.utf8Size_pos
    have hd := d.utf8Size_pos
    change ¬ a.utf8Size + (b.utf8Size + (c.utf8Size + (d.utf8Size + 0))) < 4
    omega
  rw [hexCode, if_neg hbytes]
  simp only [ha, hb, hc, hd]

/-- A control character that has no letter of its own. -/
theorem unicodeEscape_hexDigit {c : Char} (hc : c.toNat < 0x20) (rest : List Char) :
    unicodeEscape ('0' :: '0' :: hexDigit (c.toNat / 16) :: hexDigit (c.toNat % 16) :: rest) =
      .ok (c, rest) := by
  have hhigh : hexValue? (hexDigit (c.toNat / 16)) = some (c.toNat / 16) :=
    hexValue?_hexDigit (by omega)
  have hlow : hexValue? (hexDigit (c.toNat % 16)) = some (c.toNat % 16) :=
    hexValue?_hexDigit (by omega)
  have hzero : hexValue? '0' = some 0 := by decide
  have hcode := hexCode_cons hzero hzero hhigh hlow rest
  have hvalue : 4096 * 0 + 256 * 0 + 16 * (c.toNat / 16) + c.toNat % 16 = c.toNat := by omega
  rw [hvalue] at hcode
  rw [unicodeEscape, hcode, ok_bind]
  dsimp only
  rw [if_neg (by omega), if_pos (by omega), Char.ofNat_toNat]
  rfl

/-- The written form of a character is read as the character. -/
theorem quotedValue_escapeChar (fuel : Nat) (done : List Char) (c : Char) (cs : List Char) :
    quotedValue (fuel + 1) done (escapeChar c ++ cs) = quotedValue fuel (c :: done) cs := by
  unfold escapeChar
  split
  · next h => rw [h]; rfl
  split
  · next h => rw [h]; rfl
  split
  · next h => rw [h]; rfl
  split
  · next h => rw [h]; rfl
  split
  · next h => rw [h]; rfl
  split
  · next h => rw [h]; rfl
  split
  · next h => rw [h]; rfl
  split
  · next h =>
    have hescape := unicodeEscape_hexDigit h cs
    have hback : '\\' ≠ '"' := by decide
    simp only [List.cons_append, List.nil_append, quotedValue, if_neg hback, if_true, escape,
      hescape]
  · next hquote hback _ _ _ _ _ hc =>
    rw [List.singleton_append, quotedValue, if_neg hquote, if_neg hback, if_neg hc]

theorem quotedValue_flatMap_escapeChar {text : List Char} {fuel : Nat} (h : text.length < fuel)
    (done rest : List Char) :
    quotedValue fuel done (text.flatMap escapeChar ++ '"' :: rest) =
      .ok (String.ofList (done.reverse ++ text), rest) := by
  induction text generalizing fuel done with
  | nil =>
    obtain ⟨fuel, rfl⟩ := Nat.exists_eq_succ_of_ne_zero (Nat.ne_zero_of_lt h)
    rw [List.append_nil]
    rfl
  | cons c text ih =>
    obtain ⟨fuel, rfl⟩ := Nat.exists_eq_succ_of_ne_zero (Nat.ne_zero_of_lt h)
    rw [List.flatMap_cons, List.append_assoc, quotedValue_escapeChar,
      ih (Nat.lt_of_succ_lt_succ h), List.reverse_cons, List.append_assoc]
    rfl

theorem length_le_flatMap_escapeChar (text : List Char) :
    text.length ≤ (text.flatMap escapeChar).length := by
  induction text with
  | nil => exact Nat.le_refl 0
  | cons c text ih =>
    have hpos : 0 < (escapeChar c).length := by
      unfold escapeChar
      repeat' split
      all_goals exact Nat.succ_pos _
    rw [List.flatMap_cons, List.length_append, List.length_cons]
    omega

theorem toList_quote (s : String) :
    (quote s).toList = '"' :: (s.toList.flatMap escapeChar ++ ['"']) := by
  simp [quote]

/-- A string and what stands behind it. -/
theorem Breaks.text {cs : List Char} {ts : List Token} (s : String) (h : Breaks cs ts) :
    Breaks ((quote s).toList ++ cs) (.text (some s) :: ts) := by
  rw [toList_quote, List.cons_append, List.append_assoc, List.singleton_append]
  refine h.cons (by decide) ?_ fun rest _ => ?_
  · rw [List.length_append, List.length_cons]
    omega
  · have hfuel : s.toList.length < (s.toList.flatMap escapeChar ++ '"' :: (cs ++ rest)).length := by
      have hlength := length_le_flatMap_escapeChar s.toList
      rw [List.length_append, List.length_cons]
      omega
    have hvalue := quotedValue_flatMap_escapeChar hfuel [] (cs ++ rest)
    rw [List.reverse_nil, List.nil_append, String.ofList_toList] at hvalue
    rw [List.append_assoc, List.cons_append, next, if_neg (by decide), if_pos rfl, textToken,
      hvalue]

/-! ### Words and numbers -/

theorem breaks_null : Breaks ['n', 'u', 'l', 'l'] [.plain (some .null)] :=
  Breaks.nil.cons (by decide) (Nat.zero_le _) fun _ _ => rfl

theorem breaks_true : Breaks ['t', 'r', 'u', 'e'] [.plain (some (.bool true))] :=
  Breaks.nil.cons (by decide) (Nat.zero_le _) fun _ _ => rfl

theorem breaks_false : Breaks ['f', 'a', 'l', 's', 'e'] [.plain (some (.bool false))] :=
  Breaks.nil.cons (by decide) (Nat.zero_le _) fun _ _ => rfl

theorem ne_of_isDigit {c d : Char} (h : c = '-' ∨ c.isDigit = true)
    (hd : d ≠ '-' ∧ d.isDigit = false) : c ≠ d := by
  rintro rfl
  obtain h | h := h
  · exact hd.1 h
  · rw [hd.2] at h
    cases h

theorem isSpace_of_digit {c : Char} (h : c = '-' ∨ c.isDigit = true) : isSpace c = false := by
  simp only [isSpace, Bool.or_eq_false_iff, beq_eq_false_iff_ne]
  exact ⟨⟨⟨ne_of_isDigit h (by decide), ne_of_isDigit h (by decide)⟩,
    ne_of_isDigit h (by decide)⟩, ne_of_isDigit h (by decide)⟩

theorem next_of_digit {c : Char} (h : c = '-' ∨ c.isDigit = true) (cs : List Char) :
    next c cs = numberToken (c :: cs) := by
  have hmarks : ['[', ']', '\x7b', '\x7d', ',', ':'].all (fun d => d ≠ '-' ∧ d.isDigit = false) =
      true := by decide
  have hmark : c ∉ ['[', ']', '\x7b', '\x7d', ',', ':'] := fun hmem =>
    ne_of_isDigit h (of_decide_eq_true (List.all_eq_true.1 hmarks c hmem)) rfl
  rw [next, if_neg hmark, if_neg (ne_of_isDigit h (by decide)),
    if_neg (ne_of_isDigit h (by decide)), if_neg (ne_of_isDigit h (by decide)),
    if_neg (ne_of_isDigit h (by decide)), if_pos h]

theorem IsNumeral.breaks {s : String} {v : Json} (h : IsNumeral s v) :
    Breaks s.toList [.plain (some v)] := by
  obtain ⟨p, hparts, hvalue⟩ := h
  obtain ⟨c, cs, hcs, hc⟩ := Number.head_of_parts hparts
  rw [hcs] at hparts ⊢
  refine Breaks.nil.cons (isSpace_of_digit hc) (Nat.zero_le _) fun rest hrest => ?_
  have hlocal := Number.local_parts _ _ _ _ hrest hparts
  rw [List.cons_append] at hlocal
  rw [next_of_digit hc, numberToken, hlocal]
  simp only [hvalue]

/-! ### Arrays and objects -/

theorem toList_intercalate_cons (s : String) (ss : List String) :
    (",".intercalate (s :: ss)).toList = s.toList ++ ss.flatMap fun t => ',' :: t.toList := by
  induction ss generalizing s with
  | nil => rw [String.intercalate_singleton, List.flatMap_nil, List.append_nil]
  | cons t ss ih =>
    rw [String.intercalate_cons_cons, String.toList_append, String.toList_append, ih,
      List.flatMap_cons, List.append_assoc]
    rfl

section Parts

variable {α : Type} {close : Char} {written : α → String} {tokensOf : α → List Token}

theorem follows_more (hclose : close ∈ [',', ']', '\x7d']) (xs : List α) (rest : List Char) :
    Follows (xs.flatMap (fun x => ',' :: (written x).toList) ++ [close] ++ rest) := by
  intro c hc
  cases xs with
  | nil =>
    obtain rfl := Option.some.inj hc
    exact hclose
  | cons x xs =>
    obtain rfl := Option.some.inj hc
    exact List.mem_cons_self

/-- The parts of an array or an object after the first. -/
theorem breaks_more (hclose : close ∈ [']', '\x7d']) {xs : List α}
    (h : ∀ x ∈ xs, Breaks (written x).toList (tokensOf x)) :
    Breaks (xs.flatMap (fun x => ',' :: (written x).toList) ++ [close])
      (xs.flatMap (fun x => .mark ',' :: tokensOf x) ++ [.mark close]) := by
  have hmark : close ∈ ['[', ']', '\x7b', '\x7d', ',', ':'] := by
    have hsub : [']', '\x7d'] ⊆ ['[', ']', '\x7b', '\x7d', ',', ':'] := by simp
    exact hsub hclose
  induction xs with
  | nil => exact Breaks.nil.mark hmark
  | cons x xs ih =>
    obtain ⟨hx, hxs⟩ := List.forall_mem_cons.1 h
    have hfirst := hx.append (ih hxs) fun rest _ =>
      follows_more (List.mem_cons_of_mem _ hclose) xs rest
    rw [List.flatMap_cons, List.flatMap_cons, List.append_assoc, List.append_assoc]
    exact hfirst.mark (by decide)

/-- The first part, and the others. -/
theorem breaks_parts (hclose : close ∈ [']', '\x7d']) {x : α} {xs : List α}
    (h : ∀ y ∈ x :: xs, Breaks (written y).toList (tokensOf y)) :
    Breaks ((",".intercalate ((x :: xs).map written)).toList ++ [close])
      (tokensOf x ++ (xs.flatMap (fun x => .mark ',' :: tokensOf x) ++ [.mark close])) := by
  obtain ⟨hx, hxs⟩ := List.forall_mem_cons.1 h
  rw [List.map_cons, toList_intercalate_cons, List.flatMap_map, List.append_assoc]
  exact hx.append (breaks_more hclose hxs) fun rest _ =>
    follows_more (List.mem_cons_of_mem _ hclose) xs rest

end Parts

theorem compactItems_eq_map (xs : List Json) : compactItems xs = xs.map compact := by
  induction xs with
  | nil => rw [compactItems, List.map_nil]
  | cons x xs ih => rw [compactItems, ih, List.map_cons]

/-- The written form of a member. -/
def compactMember (e : String × Json) : String := quote e.1 ++ ":" ++ compact e.2

theorem compactMembers_eq_map (es : List (String × Json)) :
    compactMembers es = es.map compactMember := by
  induction es with
  | nil => rw [compactMembers, List.map_nil]
  | cons e es ih =>
    rw [compactMembers, ih, List.map_cons]
    rfl

theorem moreItemTokens_eq (xs : List Json) :
    moreItemTokens xs = xs.flatMap (fun x => .mark ',' :: tokens x) ++ [.mark ']'] := by
  induction xs with
  | nil => rw [moreItemTokens]; rfl
  | cons x xs ih => rw [moreItemTokens, ih, List.flatMap_cons, List.append_assoc]; rfl

theorem moreMemberTokens_eq (es : List (String × Json)) :
    moreMemberTokens es = es.flatMap (fun e => .mark ',' :: memberToken e) ++ [.mark '\x7d'] := by
  induction es with
  | nil => rw [moreMemberTokens]; rfl
  | cons e es ih => rw [moreMemberTokens_cons, ih, List.flatMap_cons, List.append_assoc]; rfl

theorem breaks_array {xs : List Json} (h : ∀ x ∈ xs, Breaks x.compact.toList x.tokens) :
    Breaks (compact (.array xs)).toList (tokens (.array xs)) := by
  have htext : (compact (.array xs)).toList =
      '[' :: ((",".intercalate (xs.map compact)).toList ++ [']']) := by
    rw [compact, compactItems_eq_map]
    simp
  rw [htext, tokens_array]
  refine Breaks.mark (by decide) ?_
  cases xs with
  | nil => exact Breaks.nil.mark (by decide)
  | cons x xs =>
    rw [itemTokens, moreItemTokens_eq]
    exact breaks_parts (by decide) h

theorem breaks_object {es : List (String × Json)}
    (h : ∀ e ∈ es, Breaks e.2.compact.toList e.2.tokens) :
    Breaks (compact (.object es)).toList (tokens (.object es)) := by
  have hmember : ∀ e ∈ es, Breaks (compactMember e).toList (memberToken e) := by
    intro e he
    have htext : (compactMember e).toList = (quote e.1).toList ++ ':' :: e.2.compact.toList := by
      simp [compactMember]
    rw [htext]
    exact ((h e he).mark (by decide)).text e.1
  have htext : (compact (.object es)).toList =
      '\x7b' :: ((",".intercalate (es.map compactMember)).toList ++ ['\x7d']) := by
    rw [compact, compactMembers_eq_map]
    simp
  rw [htext, tokens_object]
  refine Breaks.mark (by decide) ?_
  cases es with
  | nil => exact Breaks.nil.mark (by decide)
  | cons e es =>
    rw [memberTokens, moreMemberTokens_eq]
    exact breaks_parts (by decide) hmember

/-! ### Values -/

/-- A float is read back from its written form. -/
def ReadsBack : Json → Prop
  | .float x => IsNumeral (writtenFloat x) (.float x)
  | _ => True

theorem breaks_scalar {v : Json} (hv : v.IsScalar = true) (hrange : v.InRange)
    (hfloat : v.ReadsBack) : Breaks v.compact.toList v.tokens := by
  cases v with
  | null => exact breaks_null
  | bool b =>
    cases b with
    | true => exact breaks_true
    | false => exact breaks_false
  | integer n => exact (isNumeral_toString hrange).breaks
  | float x => exact IsNumeral.breaks hfloat
  | string s =>
    have hquote := Breaks.nil.text s
    rw [List.append_nil] at hquote
    exact hquote
  | array items => cases hv
  | object entries => cases hv

/-- The written text of a value breaks into the tokens of the value. -/
theorem breaks_compact {v : Json} (hrange : v.Each InRange) (hfloat : v.Each ReadsBack) :
    Breaks v.compact.toList v.tokens := by
  induction hrange with
  | scalar hv hrange =>
    cases hfloat with
    | scalar _ hfloat => exact breaks_scalar hv hrange hfloat
    | array _ => cases hv
    | object _ => cases hv
  | array _ ih =>
    cases hfloat with
    | scalar hv _ => cases hv
    | array hfloats => exact breaks_array fun x hx => ih x hx (hfloats x hx)
  | object _ ih =>
    cases hfloat with
    | scalar hv _ => cases hv
    | object hfloats => exact breaks_object fun e he => ih e he (hfloats e he)

/-- A text spells a value if it breaks into the tokens that the value is written as. -/
def Spells (text : String) (v : Json) : Prop := Token.scan text.toList = v.tokens

/-- **A value is spelled by the text that it is written as.** -/
theorem spells_compact {v : Json} (hrange : v.Each InRange) (hfloat : v.Each ReadsBack) :
    Spells v.compact v :=
  (breaks_compact hrange hfloat).scan_eq

end Emmet.Json
