import Emmet.Abbreviation.TagEnd
import Mathlib.Data.List.Basic
import Mathlib.Data.List.TakeWhile

/-!
# Tags without an opening bracket

The detection of a tag reads names, attributes and blanks to the left until it finds `<`. It has one
more exit: after a name that is the end of an attribute value without quotation marks it stops and
takes the text for a tag. `EndsInValue` describes the texts in which it leaves there, and
`opensTag_iff_endsInValue` proves that in a text without `<` there is no other way to be taken for a
tag. As in the detection itself, texts are reversed.

* `beforeName_eq_some_iff`, `beforeBareAttribute_eq_some_iff` : what the readers of names and
  attributes read, as text;
* `suffix_of_round` : a round leaves a part at the left end of the text;
* `EndsInValue.exists_equals` : such a text has an equals sign in front of a character that is no
  quotation mark.
-/

namespace Emmet.Abbreviation

/-! ### What the readers read -/

/-- A name: not empty, and without other characters. -/
def IsName (name : List Char) : Prop := name ≠ [] ∧ ∀ c ∈ name, isNameChar c = true

/-- A value that can stand without quotation marks. -/
def IsBareValue (value : List Char) : Prop := beforeBareValue [] value = []

variable {left rest : List Char}

/-- A run of characters is dropped up to the first character that is not of its kind. -/
theorem dropWhile_append_of_head {p : Char → Bool} {run rest : List Char}
    (hrun : ∀ c ∈ run, p c = true) (hrest : ∀ c ∈ rest.head?, p c = false) :
    (run ++ rest).dropWhile p = rest := by
  rw [List.dropWhile_append_of_pos hrun]
  cases rest with
  | nil => rfl
  | cons c rest => rw [List.dropWhile_cons_of_neg (by simpa using hrest c rfl)]

/-- Reading a name takes all of its characters. -/
theorem beforeName_eq_some_iff : beforeName left = some rest ↔
    ∃ name, IsName name ∧ left = name ++ rest ∧ ∀ c ∈ rest.head?, isNameChar c = false := by
  constructor
  · intro h
    cases left with
    | nil => cases h
    | cons c left =>
      simp only [beforeName] at h
      split at h
      · next hc =>
        obtain rfl := Option.some.inj h
        have hname : ∀ d ∈ c :: left.takeWhile isNameChar, isNameChar d = true :=
          List.forall_mem_cons.2 ⟨hc, fun d hd => List.mem_takeWhile_imp hd⟩
        refine ⟨c :: left.takeWhile isNameChar, ⟨List.cons_ne_nil _ _, hname⟩, ?_, fun d hd => ?_⟩
        · rw [List.cons_append, List.takeWhile_append_dropWhile]
        · have hhead := List.head?_dropWhile_not isNameChar left
          rw [Option.mem_def.1 hd] at hhead
          simpa using hhead
      · cases h
  · rintro ⟨name, ⟨hne, hname⟩, rfl, hrest⟩
    obtain ⟨c, name, rfl⟩ := List.exists_cons_of_ne_nil hne
    obtain ⟨hc, hname⟩ := List.forall_mem_cons.1 hname
    simp only [List.cons_append, beforeName, hc, ↓reduceIte]
    rw [dropWhile_append_of_head hname hrest]

theorem beforeChar_eq_some_iff {c : Char} :
    beforeChar c left = some rest ↔ left = c :: rest := by
  cases left with
  | nil => simp [beforeChar]
  | cons d left =>
    simp only [beforeChar, List.cons.injEq]
    split
    · next h => simp [h]
    · next h => simp [h]

/-- A character that no quotation mark, equals sign or blank is. -/
def IsPlain (c : Char) : Prop := isQuote c = false ∧ c ≠ '=' ∧ Text.isAsciiBlank c = false

theorem isPlain_of_opener {c : Char} (h : (opener? c).isSome = true) : IsPlain c := by
  unfold opener? at h
  split at h
  case h_5 => cases h
  all_goals exact ⟨rfl, by decide, rfl⟩

theorem isPlain_of_isOpening {c : Char} (h : isOpening c = true) : IsPlain c := by
  simp only [isOpening, Bool.or_eq_true, beq_iff_eq] at h
  rcases h with ((rfl | rfl) | rfl) | rfl <;> exact ⟨rfl, by decide, rfl⟩

/-- One more plain character in front of plain characters. -/
theorem exists_plain_cons {c : Char} (hc : IsPlain c)
    (h : ∃ value, left = value ++ rest ∧ ∀ d ∈ value, IsPlain d) :
    ∃ value, c :: left = value ++ rest ∧ ∀ d ∈ value, IsPlain d := by
  obtain ⟨value, hleft, hvalue⟩ := h
  exact ⟨c :: value, by rw [hleft]; rfl, List.forall_mem_cons.2 ⟨hc, hvalue⟩⟩

/-- What is taken for a value consists of plain characters. -/
theorem exists_bareValue (pending left : List Char) :
    ∃ value, left = value ++ beforeBareValue pending left ∧ ∀ c ∈ value, IsPlain c := by
  have hnone : ∀ left : List Char, ∃ value, left = value ++ left ∧ ∀ d ∈ value, IsPlain d :=
    fun left => ⟨[], rfl, by simp⟩
  induction left generalizing pending with
  | nil => exact hnone []
  | cons c left ih =>
    unfold beforeBareValue
    split
    · next h => exact exists_plain_cons (isPlain_of_opener h) (ih _)
    split
    · next h =>
      split
      · split
        · exact exists_plain_cons (isPlain_of_isOpening h) (ih _)
        · exact hnone _
      · exact hnone _
    split
    · exact hnone _
    · next h =>
      simp only [not_or, Bool.not_eq_true] at h
      exact exists_plain_cons ⟨h.2.2, h.1, h.2.1⟩ (ih _)

theorem IsBareValue.isPlain {value : List Char} (h : IsBareValue value) :
    ∀ c ∈ value, IsPlain c := by
  obtain ⟨v, hv, hplain⟩ := exists_bareValue [] value
  rw [h, List.append_nil] at hv
  exact hv ▸ hplain

/-- An equals sign ends every value. -/
theorem beforeBareValue_append (pending value left : List Char) :
    beforeBareValue pending (value ++ '=' :: left) =
      beforeBareValue pending value ++ '=' :: left := by
  induction value generalizing pending with
  | nil =>
    rw [List.nil_append]
    simp [beforeBareValue, opener?, isOpening]
  | cons c value ih =>
    rw [List.cons_append]
    unfold beforeBareValue
    split
    · exact ih _
    split
    · split
      · split
        · exact ih _
        · rfl
      · rfl
    split
    · rfl
    · exact ih _

theorem beforeBareAttribute_eq_some_iff : beforeBareAttribute left = some rest ↔
    ∃ value name, value ≠ [] ∧ IsBareValue value ∧ left = value ++ '=' :: name ∧
      beforeName name = some rest := by
  constructor
  · intro h
    simp only [beforeBareAttribute] at h
    split at h
    · cases h
    · next hlen =>
      obtain ⟨name, hname, hrest⟩ := Option.bind_eq_some_iff.1 h
      rw [beforeChar_eq_some_iff] at hname
      obtain ⟨value, hleft, -⟩ := exists_bareValue [] left
      rw [hname] at hleft
      refine ⟨value, name, ?_, ?_, hleft, hrest⟩
      · rintro rfl
        exact hlen (by rw [hname, hleft]; rfl)
      · have := beforeBareValue_append [] value name
        rw [← hleft, hname] at this
        exact List.append_left_eq_self.1 this.symm
  · rintro ⟨value, name, hne, hvalue, rfl, hname⟩
    have hrest : beforeBareValue [] (value ++ '=' :: name) = '=' :: name := by
      rw [beforeBareValue_append, hvalue, List.nil_append]
    have hlen : ('=' :: name).length ≠ (value ++ '=' :: name).length := by
      have := List.length_pos_iff.2 hne
      rw [List.length_append]
      omega
    simp only [beforeBareAttribute, hrest, if_neg hlen, beforeChar, ↓reduceIte]
    exact hname

/-! ### Every round leaves the left end of the text -/

theorem suffix_of_beforeName (h : beforeName left = some rest) : rest <:+ left := by
  obtain ⟨name, -, rfl, -⟩ := beforeName_eq_some_iff.1 h
  exact List.suffix_append name rest

theorem suffix_of_beforeQuoteOpening {quote : Char}
    (h : beforeQuoteOpening quote left = some rest) : rest <:+ left := by
  induction left with
  | nil => cases h
  | cons c left ih =>
    simp only [beforeQuoteOpening] at h
    split at h
    · obtain rfl := Option.some.inj h
      exact List.suffix_cons c left
    · exact (ih h).trans (List.suffix_cons c left)

theorem suffix_of_beforeQuoted (h : beforeQuoted left = some rest) : rest <:+ left := by
  cases left with
  | nil => cases h
  | cons c left =>
    simp only [beforeQuoted] at h
    split at h
    · exact (suffix_of_beforeQuoteOpening h).trans (List.suffix_cons c left)
    · cases h

theorem suffix_of_beforeAttribute (h : beforeAttribute left = some rest) : rest <:+ left := by
  unfold beforeAttribute at h
  split at h
  · next hq =>
    obtain rfl := Option.some.inj h
    obtain ⟨sign, hsign, hname⟩ := Option.bind_eq_some_iff.1 hq
    obtain ⟨quoted, hquoted, hsign⟩ := Option.bind_eq_some_iff.1 hsign
    obtain rfl := beforeChar_eq_some_iff.1 hsign
    exact (suffix_of_beforeName hname).trans
      ((List.suffix_cons '=' sign).trans (suffix_of_beforeQuoted hquoted))
  · obtain ⟨value, name, -, -, rfl, hname⟩ := beforeBareAttribute_eq_some_iff.1 h
    exact (suffix_of_beforeName hname).trans
      ((List.suffix_cons '=' name).trans (List.suffix_append value _))

theorem suffix_of_roundAfterName (h : roundAfterName left = .more rest) : rest <:+ left := by
  cases left with
  | nil => cases h
  | cons c left =>
    simp only [roundAfterName] at h
    repeat' split at h
    all_goals cases h
    · exact List.suffix_cons _ _
    · next hname => exact (suffix_of_beforeName hname).trans (List.suffix_cons _ _)

theorem suffix_of_round (h : round left = .more rest) : rest <:+ left := by
  simp only [round] at h
  have hblanks := List.dropWhile_suffix Text.isAsciiBlank (l := left)
  split at h
  · next hname =>
    exact (suffix_of_roundAfterName h).trans ((suffix_of_beforeName hname).trans hblanks)
  · split at h
    · next hattribute =>
      obtain rfl := Round.more.inj h
      exact (suffix_of_beforeAttribute hattribute).trans hblanks
    · cases h

/-! ### Texts that end in a value -/

/-- The text ends in an attribute whose value has no quotation marks and ends with a name, as in
`a=b.c`. More attributes and blanks may stand right of it, as rounds read them. -/
inductive EndsInValue : List Char → Prop where
  | value {blanks name value left : List Char} {c d : Char}
      (hblanks : ∀ b ∈ blanks, Text.isAsciiBlank b = true) (hname : IsName name)
      (hc : isNameChar c = false) (hslash : c ≠ '/') (hvalue : IsBareValue (c :: value))
      (hd : isNameChar d = true) :
      EndsInValue (blanks ++ (name ++ c :: (value ++ '=' :: d :: left)))
  | more {left rest : List Char} (hround : round left = .more rest) (hrest : EndsInValue rest) :
      EndsInValue left

theorem beforeName_isSome_iff : (beforeName left).isSome = true ↔
    ∃ c rest, left = c :: rest ∧ isNameChar c = true := by
  cases left with
  | nil => simp [beforeName]
  | cons c left => simp [beforeName]

/-- Without an opening bracket, only a value that goes on to the left of a name ends the detection
there. -/
theorem exists_value_of_roundAfterName (hlt : '<' ∉ left) (h : roundAfterName left = .found) :
    ∃ c value d more, left = c :: (value ++ '=' :: d :: more) ∧ c ≠ '/' ∧
      IsBareValue (c :: value) ∧ isNameChar d = true := by
  cases left with
  | nil => cases h
  | cons c left =>
    simp only [roundAfterName] at h
    split at h
    · -- a slash that a bracket would have to follow
      split at h
      · next hhead =>
        obtain ⟨left, rfl⟩ := List.head?_eq_some_iff.1 hhead
        exact absurd (by simp) hlt
      · cases h
    next hslash =>
    split at h
    · next hc =>
      subst hc
      exact absurd List.mem_cons_self hlt
    split at h
    · cases h
    split at h
    · split at h <;> cases h
    split at h
    · next hattribute =>
      obtain ⟨rest, hrest⟩ := Option.isSome_iff_exists.1 hattribute
      obtain ⟨value, sign, hne, hvalue, htext, hsign⟩ := beforeBareAttribute_eq_some_iff.1 hrest
      obtain ⟨v, value, rfl⟩ := List.exists_cons_of_ne_nil hne
      obtain ⟨d, more, rfl, hd⟩ := beforeName_isSome_iff.1 (Option.isSome_of_eq_some hsign)
      obtain ⟨rfl, rfl⟩ := List.cons.inj htext
      exact ⟨c, value, d, more, rfl, hslash, hvalue, hd⟩
    · cases h

/-- The only way of a round to find a tag without an opening bracket. -/
theorem endsInValue_of_round (hlt : '<' ∉ left) (h : round left = .found) : EndsInValue left := by
  simp only [round] at h
  have hblanks : left = left.takeWhile Text.isAsciiBlank ++ left.dropWhile Text.isAsciiBlank :=
    List.takeWhile_append_dropWhile.symm
  split at h
  · next tail htail =>
    obtain ⟨name, hname, hleft, hstop⟩ := beforeName_eq_some_iff.1 htail
    rw [hleft] at hblanks
    have hlt' : '<' ∉ tail := by
      rw [hblanks] at hlt
      simp only [List.mem_append, not_or] at hlt
      exact hlt.2.2
    obtain ⟨c, value, d, more, rfl, hslash, hvalue, hd⟩ := exists_value_of_roundAfterName hlt' h
    rw [hblanks]
    exact .value (fun b hb => List.mem_takeWhile_imp hb) hname (hstop c rfl) hslash hvalue hd
  · split at h <;> cases h

theorem not_isAsciiBlank_of_isNameChar {c : Char} (h : isNameChar c = true) :
    Text.isAsciiBlank c = false := by
  by_contra hc
  simp only [Text.isAsciiBlank, Bool.not_eq_false, Bool.or_eq_true, beq_iff_eq] at hc
  rcases hc with (((rfl | rfl) | rfl) | rfl) | rfl <;> exact absurd h (by decide)

/-- A round that meets a name goes on behind it. -/
theorem round_of_name {blanks name tail : List Char}
    (hblanks : ∀ b ∈ blanks, Text.isAsciiBlank b = true) (hname : IsName name)
    (htail : ∀ c ∈ tail.head?, isNameChar c = false) :
    round (blanks ++ (name ++ tail)) = roundAfterName tail := by
  have hhead : ∀ c ∈ (name ++ tail).head?, Text.isAsciiBlank c = false := by
    obtain ⟨n, name, rfl⟩ := List.exists_cons_of_ne_nil hname.1
    rintro c hc
    obtain rfl := Option.some.inj hc
    exact not_isAsciiBlank_of_isNameChar (hname.2 n List.mem_cons_self)
  have hdrop : (blanks ++ (name ++ tail)).dropWhile Text.isAsciiBlank = name ++ tail :=
    dropWhile_append_of_head hblanks hhead
  have hread : beforeName (name ++ tail) = some tail :=
    beforeName_eq_some_iff.2 ⟨name, hname, rfl, htail⟩
  rw [round, hdrop, hread]

/-- Without blanks, the name is met at once. -/
theorem round_name {name tail : List Char} (hname : IsName name)
    (htail : ∀ c ∈ tail.head?, isNameChar c = false) :
    round (name ++ tail) = roundAfterName tail :=
  show round ([] ++ (name ++ tail)) = _ from round_of_name (by simp) hname htail

/-- A value that goes on to the left of a name ends the detection. -/
theorem roundAfterName_of_value {value left : List Char} {c d : Char} (hslash : c ≠ '/')
    (hvalue : IsBareValue (c :: value)) (hd : isNameChar d = true) :
    roundAfterName (c :: (value ++ '=' :: d :: left)) = .found := by
  obtain ⟨rest, hrest⟩ : ∃ rest, beforeName (d :: left) = some rest :=
    Option.isSome_iff_exists.1 (beforeName_isSome_iff.2 ⟨d, left, rfl, hd⟩)
  have hattribute : beforeBareAttribute (c :: (value ++ '=' :: d :: left)) = some rest :=
    beforeBareAttribute_eq_some_iff.2 ⟨c :: value, d :: left, by simp, hvalue, rfl, hrest⟩
  obtain ⟨-, hequals, hblank⟩ := hvalue.isPlain c List.mem_cons_self
  simp [roundAfterName, hslash, hequals, hblank, hattribute]

theorem opensTag_of_found (h : round left = .found) : opensTag left = true := by
  rw [opensTag]
  split <;> simp_all

theorem opensTag_of_lost (h : round left = .lost) : opensTag left = false := by
  rw [opensTag]
  split <;> simp_all

theorem opensTag_of_more (h : round left = .more rest) : opensTag left = opensTag rest := by
  rw [opensTag]
  split <;> simp_all

/-- **Without an opening bracket, a text is taken for a tag exactly if it ends in a value.** -/
theorem opensTag_iff_endsInValue (hlt : '<' ∉ left) :
    opensTag left = true ↔ EndsInValue left := by
  constructor
  · intro h
    induction left using opensTag.induct with
    | case1 left hround => exact endsInValue_of_round hlt hround
    | case2 left hround => rw [opensTag_of_lost hround] at h; cases h
    | case3 left rest hround ih =>
      rw [opensTag_of_more hround] at h
      exact .more hround (ih (fun hmem => hlt ((suffix_of_round hround).subset hmem)) h)
  · intro h
    clear hlt
    induction h with
    | value hblanks hname hc hslash hvalue hd =>
      refine opensTag_of_found ?_
      rw [round_of_name hblanks hname (by simpa using hc)]
      exact roundAfterName_of_value hslash hvalue hd
    | more hround _ ih => rw [opensTag_of_more hround, ih]

/-- A text that ends in a value has an equals sign left of a character that no quotation mark is. -/
theorem EndsInValue.exists_equals (h : EndsInValue left) :
    ∃ right c name, left = right ++ c :: '=' :: name ∧ isQuote c = false := by
  induction h with
  | @value blanks name value left c d hblanks hname hc hslash hvalue hd =>
    obtain ⟨init, x, hx⟩ := (List.eq_nil_or_concat' (c :: value)).resolve_left (by simp)
    refine ⟨blanks ++ (name ++ init), x, d :: left, ?_, ?_⟩
    · rw [← List.cons_append, hx]; simp
    · exact (hvalue.isPlain x (by rw [hx]; simp)).1
  | more hround _ ih =>
    obtain ⟨front, rfl⟩ := suffix_of_round hround
    obtain ⟨right, c, name, hrest, hc⟩ := ih
    exact ⟨front ++ right, c, name, by rw [hrest, List.append_assoc], hc⟩

/-! ### The end of a tag -/

/-- The text left of a `>`, without the slash of a tag that closes itself. -/
def dropSlash : List Char → List Char
  | '/' :: left => left
  | left => left

theorem endsTag_eq_opensTag (left : List Char) :
    endsTag ('>' :: left) = opensTag (dropSlash left) := by
  unfold endsTag dropSlash
  split <;> simp_all

theorem endsTag_eq_false {c : Char} (hc : c ≠ '>') (left : List Char) :
    endsTag (c :: left) = false := by
  unfold endsTag
  split <;> simp_all

theorem dropSlash_suffix (left : List Char) : dropSlash left <:+ left := by
  unfold dropSlash
  split
  · exact List.suffix_cons _ _
  · exact List.suffix_refl _

end Emmet.Abbreviation
