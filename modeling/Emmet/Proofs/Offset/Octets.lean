import Emmet.Proofs.Abbreviation.TagEnd
import Emmet.Proofs.Abbreviation.Walk

/-!
# Reading bytes for characters

A scan may read the bytes of a line and not its characters. Every character that a decision depends
on is a single byte, and the bytes of all other characters are decided about like the characters
themselves, so nothing changes. A byte is written as the character with its number.

* `octets`, `encodeBack` : the bytes of a character, and of a text that is read to the left;
* `endsTag_encodeBack` : the same tags end left of the cursor;
* `walk_encodeBack` : the walk takes the bytes of what it takes as characters.
-/

namespace Emmet.Abbreviation

/-! ### Bytes -/

/-- The bytes of a character. -/
def octets (c : Char) : List Char := (String.utf8EncodeChar c).map fun b => Char.ofNat b.toNat

/-- The bytes of a text. -/
def encode (cs : List Char) : List Char := cs.flatMap octets

/-- The bytes of a text that is read from right to left. -/
def encodeBack (left : List Char) : List Char := left.flatMap fun c => (octets c).reverse

/-- A character beyond ASCII, or one of its bytes. -/
def IsWide (c : Char) : Prop := 128 ≤ c.toNat

instance (c : Char) : Decidable (IsWide c) := inferInstanceAs (Decidable (128 ≤ c.toNat))

theorem length_octets (c : Char) : (octets c).length = Text.utf8 c := by
  rw [octets, List.length_map, String.length_utf8EncodeChar, Text.utf8]

theorem octets_of_not_isWide {c : Char} (h : ¬ IsWide c) : octets c = [c] := by
  have hlt : c.toNat < 128 := Nat.lt_of_not_le h
  have hle : c.val.toNat ≤ 127 := Nat.le_of_lt_succ hlt
  have hbyte : (UInt8.ofNat c.val.toNat).toNat = c.toNat := by
    rw [UInt8.toNat_ofNat']
    exact Nat.mod_eq_of_lt (Nat.lt_of_lt_of_le hlt (by decide))
  rw [octets, String.utf8EncodeChar]
  simp only [if_pos hle, List.map_cons, List.map_nil, hbyte, Char.ofNat_toNat]

/-- A byte from 128 on, written as a character. -/
theorem isWide_ofNat {n : Nat} (h : 128 ≤ n % 256) : IsWide (Char.ofNat (UInt8.ofNat n).toNat) := by
  have hvalid : ((UInt8.ofNat n).toNat).isValidChar := by
    have := (UInt8.ofNat n).toNat_lt
    exact .inl (by omega)
  have hchar : Char.ofNat (UInt8.ofNat n).toNat = Char.ofNatAux _ hvalid := dif_pos hvalid
  rw [IsWide, hchar]
  exact h

theorem isWide_of_mem_octets {c b : Char} (h : IsWide c) (hb : b ∈ octets c) : IsWide b := by
  obtain ⟨byte, hbyte, rfl⟩ := List.mem_map.1 hb
  have hle : ¬ c.val.toNat ≤ 127 := Nat.not_le.2 h
  rw [String.utf8EncodeChar] at hbyte
  simp only [if_neg hle] at hbyte
  -- each leading and each continuing byte has the highest bit
  split at hbyte
  all_goals try split at hbyte
  all_goals
    simp only [List.mem_cons, List.not_mem_nil, or_false] at hbyte
    rcases hbyte with rfl | rfl | rfl | rfl <;> exact isWide_ofNat (by omega)

variable {c d : Char} {left run : List Char}

theorem encodeBack_cons (h : ¬ IsWide c) (left : List Char) :
    encodeBack (c :: left) = c :: encodeBack left := by
  rw [encodeBack, List.flatMap_cons, octets_of_not_isWide h]
  rfl

theorem exists_encodeBack_cons (h : IsWide c) : ∃ b run, IsWide b ∧ (∀ b ∈ run, IsWide b) ∧
    ∀ left, encodeBack (c :: left) = b :: (run ++ encodeBack left) := by
  have hwide : ∀ b ∈ (octets c).reverse, IsWide b :=
    fun b hb => isWide_of_mem_octets h (List.mem_reverse.1 hb)
  cases hrun : (octets c).reverse with
  | nil =>
    have hlength := congrArg List.length hrun
    have := Text.utf8_pos c
    rw [List.length_reverse, length_octets, List.length_nil] at hlength
    omega
  | cons b run =>
    rw [hrun] at hwide
    obtain ⟨hb, hrest⟩ := List.forall_mem_cons.1 hwide
    refine ⟨b, run, hb, hrest, fun left => ?_⟩
    rw [encodeBack, List.flatMap_cons, hrun, List.cons_append]
    rfl

theorem encodeBack_append (left right : List Char) :
    encodeBack (left ++ right) = encodeBack left ++ encodeBack right :=
  List.flatMap_append

theorem encodeBack_reverse (cs : List Char) : encodeBack cs.reverse = (encode cs).reverse := by
  induction cs with
  | nil => rfl
  | cons c cs ih =>
    have hc : encodeBack [c] = (octets c).reverse := List.flatMap_singleton ..
    rw [List.reverse_cons, encodeBack_append, ih, hc, ← List.reverse_append]
    rfl

theorem length_encodeBack (left : List Char) : (encodeBack left).length = Text.bytes left := by
  induction left with
  | nil => rfl
  | cons c left ih =>
    rw [encodeBack, List.flatMap_cons, List.length_append, List.length_reverse, length_octets]
    exact congrArg _ ih

/-- What passes over every byte of a wide character passes over the character. -/
theorem encodeBack_cons_skip {α : Type} {f : List Char → α}
    (hf : ∀ b left, IsWide b → f (b :: left) = f left) (h : IsWide c) (left : List Char) :
    f (encodeBack (c :: left)) = f (encodeBack left) := by
  obtain ⟨b, run, hb, hrun, heq⟩ := exists_encodeBack_cons h
  rw [heq, hf b _ hb]
  clear heq
  induction run with
  | nil => rfl
  | cons b run ih =>
    obtain ⟨hb, hrun⟩ := List.forall_mem_cons.1 hrun
    rw [List.cons_append, hf b _ hb, ih hrun]

/-! ### No decision depends on a wide character -/

theorem IsWide.ne (h : IsWide c) (hd : ¬ IsWide d) : c ≠ d :=
  fun heq => hd (heq ▸ h)

theorem IsWide.isAlphanum (h : IsWide c) : c.isAlphanum = false := by
  have hgt : ∀ n : UInt32, n.toNat < 128 → ¬ c.val ≤ n := fun n hn hle =>
    Nat.not_lt.2 (UInt32.le_iff_toNat_le.1 hle) (Nat.lt_of_lt_of_le hn h)
  have hupper : c.isUpper = false := decide_eq_false fun hc => hgt _ (by decide) hc.2
  have hlower : c.isLower = false :=
    Bool.and_eq_false_iff.2 (.inr (decide_eq_false (hgt 'z'.val (by decide))))
  have hdigit : c.isDigit = false :=
    Bool.and_eq_false_iff.2 (.inr (decide_eq_false (hgt '9'.val (by decide))))
  exact Bool.or_eq_false_iff.2 ⟨Bool.or_eq_false_iff.2 ⟨hupper, hlower⟩, hdigit⟩

/-- A class of characters without wide ones. -/
def IsNarrow (p : Char → Bool) : Prop := ∀ c, IsWide c → p c = false

theorem isNarrow_isNameChar : IsNarrow isNameChar := fun c h => by
  simp (disch := decide) [isNameChar, h.isAlphanum, h.ne]

theorem isNarrow_isQuote : IsNarrow isQuote := fun c h => by
  simp (disch := decide) [isQuote, h.ne]

theorem isNarrow_isAsciiBlank : IsNarrow Text.isAsciiBlank := fun c h => by
  simp (disch := decide) [Text.isAsciiBlank, h.ne]

theorem isNarrow_isOpening : IsNarrow isOpening := fun c h => by
  simp (disch := decide) [isOpening, h.ne]

theorem isNarrow_isAbbreviationChar : IsNarrow isAbbreviationChar := fun c h => by
  simp (disch := decide) [isAbbreviationChar, operators, h.isAlphanum, h.ne]

theorem isNarrow_opensGroup (f : Family) : IsNarrow (opensGroup f) := fun c h => by
  simp (disch := decide) [opensGroup, h.ne]

theorem isNarrow_closesGroup (f : Family) : IsNarrow (closesGroup f) := fun c h => by
  simp (disch := decide) [closesGroup, h.ne]

theorem IsWide.opener?_eq_none (h : IsWide c) : opener? c = none := by
  unfold opener?
  split
  · exact absurd h (by decide)
  · exact absurd h (by decide)
  · exact absurd h (by decide)
  · exact absurd h (by decide)
  · rfl

/-! ### Reading a tag -/

theorem dropWhile_encodeBack {p : Char → Bool} (hp : IsNarrow p) (left : List Char) :
    (encodeBack left).dropWhile p = encodeBack (left.dropWhile p) := by
  induction left with
  | nil => rfl
  | cons c left ih =>
    by_cases hc : IsWide c
    · obtain ⟨b, run, hb, -, heq⟩ := exists_encodeBack_cons hc
      rw [List.dropWhile_cons, hp c hc, if_neg Bool.false_ne_true, heq, List.dropWhile_cons,
        hp b hb, if_neg Bool.false_ne_true]
    · rw [encodeBack_cons hc, List.dropWhile_cons, List.dropWhile_cons, ih]
      split
      · rfl
      · rw [encodeBack_cons hc]

theorem head?_encodeBack (hd : ¬ IsWide d) (left : List Char) :
    (encodeBack left).head? = some d ↔ left.head? = some d := by
  cases left with
  | nil => rfl
  | cons c left =>
    by_cases hc : IsWide c
    · obtain ⟨b, run, hb, -, heq⟩ := exists_encodeBack_cons hc
      simp [heq, hb.ne hd, hc.ne hd]
    · rw [encodeBack_cons hc]
      rfl

theorem beforeName_encodeBack (left : List Char) :
    beforeName (encodeBack left) = (beforeName left).map encodeBack := by
  cases left with
  | nil => rfl
  | cons c left =>
    by_cases hc : IsWide c
    · obtain ⟨b, run, hb, -, heq⟩ := exists_encodeBack_cons hc
      simp [heq, beforeName, isNarrow_isNameChar b hb, isNarrow_isNameChar c hc]
    · rw [encodeBack_cons hc, beforeName, beforeName, dropWhile_encodeBack isNarrow_isNameChar]
      split <;> rfl

theorem beforeChar_encodeBack (hd : ¬ IsWide d) (left : List Char) :
    beforeChar d (encodeBack left) = (beforeChar d left).map encodeBack := by
  cases left with
  | nil => rfl
  | cons c left =>
    by_cases hc : IsWide c
    · obtain ⟨b, run, hb, -, heq⟩ := exists_encodeBack_cons hc
      simp [heq, beforeChar, hb.ne hd, hc.ne hd]
    · rw [encodeBack_cons hc, beforeChar, beforeChar]
      split <;> rfl

theorem beforeQuoteOpening_encodeBack (hd : ¬ IsWide d) (left : List Char) :
    beforeQuoteOpening d (encodeBack left) = (beforeQuoteOpening d left).map encodeBack := by
  have hskip : ∀ b rest, IsWide b → beforeQuoteOpening d (b :: rest) = beforeQuoteOpening d rest :=
    fun b rest hb => if_neg fun h => hb.ne hd h.1
  induction left with
  | nil => rfl
  | cons c left ih =>
    by_cases hc : IsWide c
    · rw [encodeBack_cons_skip hskip hc, hskip c left hc, ih]
    · have hhead := head?_encodeBack (d := '\\') (by decide) left
      rw [encodeBack_cons hc, beforeQuoteOpening, beforeQuoteOpening, ih]
      simp only [ne_eq, hhead]
      split <;> rfl

theorem beforeQuoted_encodeBack (left : List Char) :
    beforeQuoted (encodeBack left) = (beforeQuoted left).map encodeBack := by
  cases left with
  | nil => rfl
  | cons c left =>
    by_cases hc : IsWide c
    · obtain ⟨b, run, hb, -, heq⟩ := exists_encodeBack_cons hc
      simp [heq, beforeQuoted, isNarrow_isQuote b hb, isNarrow_isQuote c hc]
    · rw [encodeBack_cons hc, beforeQuoted, beforeQuoted, beforeQuoteOpening_encodeBack hc]
      split <;> rfl

theorem beforeBareValue_encodeBack (pending left : List Char) :
    beforeBareValue pending (encodeBack left) = encodeBack (beforeBareValue pending left) := by
  have hskip (pending : List Char) : ∀ b rest, IsWide b →
      beforeBareValue pending (b :: rest) = beforeBareValue pending rest := fun b rest hb => by
    simp (disch := decide) [beforeBareValue, hb.opener?_eq_none, isNarrow_isOpening b hb, hb.ne,
      isNarrow_isAsciiBlank b hb, isNarrow_isQuote b hb]
  induction left generalizing pending with
  | nil => rfl
  | cons c left ih =>
    by_cases hc : IsWide c
    · rw [encodeBack_cons_skip (hskip pending) hc, hskip pending c left hc, ih]
    · rw [encodeBack_cons hc]
      unfold beforeBareValue
      -- a closing bracket, an opening one, what ends a value, and all other characters
      split
      · exact ih _
      split
      · split
        · split
          · exact ih _
          · exact (encodeBack_cons hc left).symm
        · exact (encodeBack_cons hc left).symm
      split
      · exact (encodeBack_cons hc left).symm
      · exact ih _

theorem suffix_of_beforeBareValue (pending left : List Char) :
    beforeBareValue pending left <:+ left := by
  obtain ⟨value, hleft, -⟩ := exists_bareValue pending left
  exact ⟨value, hleft.symm⟩

/-- A part at the left end of a text has as many bytes only if it has as many characters. -/
theorem length_encodeBack_eq_iff {rest : List Char} (h : rest <:+ left) :
    (encodeBack rest).length = (encodeBack left).length ↔ rest.length = left.length := by
  obtain ⟨front, rfl⟩ := h
  cases front with
  | nil => exact iff_of_true rfl rfl
  | cons c front =>
    have := Text.utf8_pos c
    simp only [length_encodeBack, Text.bytes, List.cons_append, Text.size_cons, Text.size_append,
      List.length_cons, List.length_append]
    omega

theorem beforeBareAttribute_encodeBack (left : List Char) :
    beforeBareAttribute (encodeBack left) = (beforeBareAttribute left).map encodeBack := by
  simp only [beforeBareAttribute, beforeBareValue_encodeBack,
    length_encodeBack_eq_iff (suffix_of_beforeBareValue [] left)]
  split
  · rfl
  · rw [beforeChar_encodeBack (by decide)]
    cases beforeChar '=' (beforeBareValue [] left) with
    | none => rfl
    | some name => exact beforeName_encodeBack name

theorem beforeQuotedAttribute_encodeBack (left : List Char) :
    beforeQuotedAttribute (encodeBack left) = (beforeQuotedAttribute left).map encodeBack := by
  rw [beforeQuotedAttribute, beforeQuotedAttribute, beforeQuoted_encodeBack]
  cases beforeQuoted left with
  | none => rfl
  | some sign =>
    rw [Option.map_some, Option.bind_some, Option.bind_some, beforeChar_encodeBack (by decide)]
    cases beforeChar '=' sign with
    | none => rfl
    | some name => exact beforeName_encodeBack name

theorem beforeAttribute_encodeBack (left : List Char) :
    beforeAttribute (encodeBack left) = (beforeAttribute left).map encodeBack := by
  rw [beforeAttribute, beforeAttribute, beforeQuotedAttribute_encodeBack]
  cases beforeQuotedAttribute left with
  | none => exact beforeBareAttribute_encodeBack left
  | some rest => rfl

/-- The outcome of a round on other texts. -/
def Round.map (g : List Char → List Char) : Round → Round
  | found => found
  | lost => lost
  | more left => more (g left)

theorem roundAfterName_encodeBack (left : List Char) :
    roundAfterName (encodeBack left) = (roundAfterName left).map encodeBack := by
  cases left with
  | nil => rfl
  | cons c left =>
    have hattribute := beforeBareAttribute_encodeBack (c :: left)
    by_cases hc : IsWide c
    · obtain ⟨b, run, hb, -, heq⟩ := exists_encodeBack_cons hc
      rw [heq] at hattribute ⊢
      simp (disch := decide) only [roundAfterName, hb.ne, isNarrow_isAsciiBlank b hb, hc.ne,
        isNarrow_isAsciiBlank c hc, hattribute, Option.isSome_map, Bool.false_eq_true, ↓reduceIte]
      split <;> rfl
    · have hhead := head?_encodeBack (d := '<') (by decide) left
      rw [encodeBack_cons hc] at hattribute ⊢
      simp only [roundAfterName, hhead, hattribute, Option.isSome_map, beforeName_encodeBack]
      split
      · split <;> rfl
      split
      · rfl
      split
      · rfl
      split
      · cases beforeName left <;> rfl
      · split <;> rfl

theorem round_encodeBack (left : List Char) :
    round (encodeBack left) = (round left).map encodeBack := by
  simp only [round, dropWhile_encodeBack isNarrow_isAsciiBlank, beforeName_encodeBack,
    beforeAttribute_encodeBack]
  cases beforeName (left.dropWhile Text.isAsciiBlank) with
  | some rest => exact roundAfterName_encodeBack rest
  | none => cases beforeAttribute (left.dropWhile Text.isAsciiBlank) <;> rfl

theorem opensTag_encodeBack (left : List Char) : opensTag (encodeBack left) = opensTag left := by
  induction left using opensTag.induct with
  | case1 left hround =>
    rw [opensTag_of_found hround, opensTag_of_found (by rw [round_encodeBack, hround]; rfl)]
  | case2 left hround =>
    rw [opensTag_of_lost hround, opensTag_of_lost (by rw [round_encodeBack, hround]; rfl)]
  | case3 left rest hround ih =>
    rw [opensTag_of_more hround, ← ih]
    exact opensTag_of_more (by rw [round_encodeBack, hround]; rfl)

theorem dropSlash_encodeBack (left : List Char) :
    dropSlash (encodeBack left) = encodeBack (dropSlash left) := by
  cases left with
  | nil => rfl
  | cons c left =>
    have hkeep : ∀ b rest, b ≠ '/' → dropSlash (b :: rest) = b :: rest := by
      intro b rest hb
      unfold dropSlash
      split <;> simp_all
    by_cases hc : IsWide c
    · obtain ⟨b, run, hb, -, heq⟩ := exists_encodeBack_cons hc
      rw [hkeep c left (hc.ne (by decide)), heq, hkeep b _ (hb.ne (by decide))]
    · by_cases hslash : c = '/'
      · subst hslash
        rw [encodeBack_cons hc]
        rfl
      · rw [hkeep c left hslash, encodeBack_cons hc, hkeep c _ hslash]

/-- **The bytes of a text end a tag if the text does.** -/
theorem endsTag_encodeBack (left : List Char) : endsTag (encodeBack left) = endsTag left := by
  cases left with
  | nil => rfl
  | cons c left =>
    by_cases hc : IsWide c
    · obtain ⟨b, run, hb, -, heq⟩ := exists_encodeBack_cons hc
      rw [heq, endsTag_eq_false (hb.ne (by decide)), endsTag_eq_false (hc.ne (by decide))]
    · by_cases htag : c = '>'
      · subst htag
        rw [encodeBack_cons hc, endsTag_eq_opensTag, endsTag_eq_opensTag, dropSlash_encodeBack,
          opensTag_encodeBack]
      · rw [encodeBack_cons hc, endsTag_eq_false htag, endsTag_eq_false htag]

/-! ### Walking to the left -/

variable {f : Family} {pending : List Char}

/-- A wide character belongs to the abbreviation inside of brackets only. -/
theorem step_of_isWide (h : IsWide c) (f : Family) (pending left : List Char) :
    step f pending c left =
      if '\x7d' ∈ pending ∨ ']' ∈ pending then .take pending else .stop pending := by
  by_cases hbrace : '\x7d' ∈ pending
  · simp (disch := decide) [step, hbrace, h.ne]
  · simp [step, hbrace, isNarrow_closesGroup f c h, isNarrow_opensGroup f c h,
      isNarrow_isAbbreviationChar c h]

theorem step_encodeBack (hc : ¬ IsWide c) (f : Family) (pending left : List Char) :
    step f pending c (encodeBack left) = step f pending c left := by
  have htag := endsTag_encodeBack (c :: left)
  rw [encodeBack_cons hc] at htag
  simp only [step, htag]

theorem takes_of_isWide (h : '\x7d' ∈ pending ∨ ']' ∈ pending) (hrun : ∀ b ∈ run, IsWide b)
    (left : List Char) : Takes f pending run pending left := by
  induction run with
  | nil => exact .nil
  | cons b run ih =>
    obtain ⟨hb, hrun⟩ := List.forall_mem_cons.1 hrun
    have hstep : step f pending b (run ++ left) = .take pending := by
      rw [step_of_isWide hb, if_pos h]
    exact (Takes.single hstep).trans (ih hrun)

/-- **A walk over the bytes of a text** takes the bytes of what a walk over the text takes. -/
theorem walk_encodeBack (f : Family) (pending left : List Char) :
    walk f pending (encodeBack left) =
      ⟨encodeBack (walk f pending left).taken, (walk f pending left).pending⟩ := by
  induction left generalizing pending with
  | nil => rfl
  | cons c left ih =>
    by_cases hc : IsWide c
    · obtain ⟨b, run, hb, hrun, heq⟩ := exists_encodeBack_cons hc
      -- in a text node or a set all its bytes are taken, elsewhere the first of them stops the walk
      by_cases hin : '\x7d' ∈ pending ∨ ']' ∈ pending
      · have htake : step f pending c left = .take pending := by rw [step_of_isWide hc, if_pos hin]
        have hrun := takes_of_isWide (f := f) hin (List.forall_mem_cons.2 ⟨hb, hrun⟩)
          (encodeBack left)
        rw [heq, ← List.cons_append, hrun, ih, walk_cons_take htake]
        exact congrArg (Walk.mk · _) (heq _).symm
      · have hstop : step f pending c left = .stop pending := by
          rw [step_of_isWide hc, if_neg hin]
        have hstop' : step f pending b (run ++ encodeBack left) = .stop pending := by
          rw [step_of_isWide hb, if_neg hin]
        rw [heq, walk_cons_stop hstop, walk_cons_stop hstop']
        rfl
    · rw [encodeBack_cons hc]
      have hstep := step_encodeBack hc f pending left
      cases h : step f pending c left with
      | take pending' =>
        rw [walk_cons_take h, walk_cons_take (hstep.trans h), ih]
        exact congrArg (Walk.mk · _) (encodeBack_cons hc _).symm
      | stop pending' =>
        rw [walk_cons_stop h, walk_cons_stop (hstep.trans h)]
        rfl

/-! ### Brackets ahead of the cursor -/

theorem encode_append (as bs : List Char) : encode (as ++ bs) = encode as ++ encode bs :=
  List.flatMap_append

theorem length_encode (cs : List Char) : (encode cs).length = Text.bytes cs := by
  rw [← List.length_reverse, ← encodeBack_reverse, length_encodeBack]
  exact Text.size_reverse ..

theorem encode_cons (hc : ¬ IsWide c) (cs : List Char) : encode (c :: cs) = c :: encode cs := by
  rw [encode, List.flatMap_cons, octets_of_not_isWide hc]
  rfl

theorem exists_encode_cons (hc : IsWide c) (cs : List Char) :
    ∃ b rest, IsWide b ∧ encode (c :: cs) = b :: rest := by
  cases h : octets c with
  | nil =>
    have := Text.utf8_pos c
    rw [← length_octets, h, List.length_nil] at this
    omega
  | cons b run =>
    refine ⟨b, run ++ encode cs, isWide_of_mem_octets hc (h ▸ List.mem_cons_self), ?_⟩
    rw [encode, List.flatMap_cons, h]
    rfl

theorem takeWhile_encode {p : Char → Bool} (hp : IsNarrow p) (cs : List Char) :
    (encode cs).takeWhile p = cs.takeWhile p := by
  induction cs with
  | nil => rfl
  | cons c cs ih =>
    by_cases hc : IsWide c
    · obtain ⟨b, rest, hb, heq⟩ := exists_encode_cons hc cs
      simp [heq, hp b hb, hp c hc]
    · simp only [encode_cons hc, List.takeWhile_cons, ih]

theorem closersAhead_encode (f : Family) (right : List Char) :
    closersAhead f (encode right) = closersAhead f right := by
  have hclosers := takeWhile_encode (isNarrow_closesGroup f)
  cases right with
  | nil => rfl
  | cons c right =>
    by_cases hc : IsWide c
    · obtain ⟨b, rest, hb, heq⟩ := exists_encode_cons hc right
      simp [heq, closersAhead, isNarrow_isQuote b hb, isNarrow_isQuote c hc,
        isNarrow_closesGroup f b hb, isNarrow_closesGroup f c hc]
    · have hall := hclosers (c :: right)
      rw [encode_cons hc] at hall ⊢
      simp only [closersAhead, hclosers right, hall]

theorem bytes_closersAhead (f : Family) (right : List Char) :
    Text.bytes (closersAhead f right) = (closersAhead f right).length := by
  have hnarrow : ∀ c ∈ closersAhead f right, Text.utf8 c = 1 := by
    intro c hc
    have hwide : ¬ IsWide c := by
      intro h
      cases mem_closersAhead hc with
      | inl hquote => rw [isNarrow_isQuote c h] at hquote; cases hquote
      | inr hcloses => rw [isNarrow_closesGroup f c h] at hcloses; cases hcloses
    rw [← length_octets, octets_of_not_isWide hwide]
    rfl
  generalize closersAhead f right = closers at hnarrow
  induction closers with
  | nil => rfl
  | cons c closers ih =>
    obtain ⟨hc, hclosers⟩ := List.forall_mem_cons.1 hnarrow
    rw [Text.bytes, Text.size_cons, hc, List.length_cons, Nat.add_comm]
    exact congrArg (· + 1) (ih hclosers)

end Emmet.Abbreviation
