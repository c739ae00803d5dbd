import Emmet.Proofs.Offset.Checked
import Emmet.Proofs.Offset.Octets

/-!
# The scan by offsets

The abbreviation left of the cursor can be found by an offset that moves to the left through the
bytes of the line. This file says how, with every access to a byte, every step to the left and the
cut at the end checked, and that nothing is ever wrong: the scan by offsets finds what the scan of
the characters finds.

* `goBack` : moves to the left for as long as the bytes are passed;
* `At text left` : the offset `left.length` stands behind `left`, which is read to the left;
* `endsTagAt_eq`, `walkAt_eq` : reading by offsets is reading lists of bytes;
* `scan_eq` : the scan by offsets finds what the scan finds, without a fault.
-/

namespace Emmet.Checked

open Abbreviation Text

variable (text : List Char)

/-! ### Bytes left of an offset -/

/-- The byte behind an offset. -/
def byteAt (i : Nat) : Checked Char :=
  match text[i]? with
  | some b => .ok b
  | none => .error .index

/-- The byte left of an offset; none at the start of the text. -/
def peek (pos : Nat) : Checked (Option Char) :=
  if pos = 0 then .ok none
  else do
    let i ← sub pos 1
    return some (← byteAt text i)

/-- Moves over the byte left of an offset if it is of a class. -/
def consume (p : Char → Bool) (pos : Nat) : Checked (Option Nat) := do
  match ← peek text pos with
  | some b =>
    if p b then
      let ⟨left, _⟩ ← retreat pos
      return some left
    else return none
  | none => return none

/-- Moves to the left from an offset. For every byte `next` gives the next state and says whether
the byte is passed. -/
def goBack {σ : Type} (next : σ → Nat → Char → Checked (σ × Bool)) (s : σ) (pos : Nat) :
    Checked (σ × Nat) := do
  match ← peek text pos with
  | none => return (s, pos)
  | some b =>
    let (s, passed) ← next s pos b
    if passed then
      let ⟨left, _⟩ ← retreat pos
      goBack next s left
    else return (s, pos)
  termination_by pos

/-- Moves over all bytes of a class. -/
def consumeWhile (p : Char → Bool) (pos : Nat) : Checked Nat := do
  let (_, left) ← goBack text (fun _ _ b => .ok ((), p b)) () pos
  return left

/-! ### The end of a tag -/

/-- Moves over a name. -/
def nameAt (pos : Nat) : Checked (Option Nat) := do
  let left ← consumeWhile text isNameChar pos
  return if left = pos then none else some left

/-- Moves to the left of the quotation mark that opens a text. -/
def quoteOpeningAt (quote : Char) (pos : Nat) : Checked (Option Nat) := do
  match ← peek text pos with
  | none => return none
  | some b =>
    let ⟨left, _⟩ ← retreat pos
    if b = quote ∧ (← peek text left) ≠ some '\\' then return some left
    else quoteOpeningAt quote left
  termination_by pos

/-- Moves over a text in quotation marks. -/
def quotedAt (pos : Nat) : Checked (Option Nat) := do
  match ← peek text pos with
  | none => return none
  | some b =>
    if isQuote b then
      let ⟨left, _⟩ ← retreat pos
      quoteOpeningAt text b left
    else return none

/-- Decides whether a byte belongs to a value without quotation marks. -/
def bareValueStep (pending : List Char) (_ : Nat) (b : Char) : Checked (List Char × Bool) :=
  if (opener? b).isSome then .ok (b :: pending, true)
  else if isOpening b then
    match pending with
    | top :: pending => .ok (pending, opener? top == some b)
    | [] => .ok ([], false)
  else if b = '=' ∨ isAsciiBlank b ∨ isQuote b then .ok (pending, false)
  else .ok (pending, true)

/-- Moves over an attribute whose value has no quotation marks. -/
def bareAttributeAt (pos : Nat) : Checked (Option Nat) := do
  let (_, left) ← goBack text bareValueStep [] pos
  if left = pos then return none
  else match ← consume text (· == '=') left with
    | some left => nameAt text left
    | none => return none

/-- Moves over an attribute whose value is in quotation marks. -/
def quotedAttributeAt (pos : Nat) : Checked (Option Nat) := do
  match ← quotedAt text pos with
  | some left =>
    match ← consume text (· == '=') left with
    | some left => nameAt text left
    | none => return none
  | none => return none

/-- Moves over an attribute with a value. -/
def attributeAt (pos : Nat) : Checked (Option Nat) := do
  match ← quotedAttributeAt text pos with
  | some left => return some left
  | none => bareAttributeAt text pos

/-- The outcome of a round by offsets. -/
inductive Turn where
  | found
  | lost
  /-- An attribute was read; where it starts. -/
  | more (pos : Nat)
  deriving DecidableEq, Repr

/-- The round after a name: the opening of the tag, or the name is an attribute or the value of
one. -/
def turnAfterName (pos : Nat) : Checked Turn := do
  if let some left ← consume text (· == '/') pos then
    return if (← consume text (· == '<') left).isSome then .found else .lost
  else if let some _ ← consume text (· == '<') pos then return .found
  else if let some left ← consume text isAsciiBlank pos then return .more left
  else if let some left ← consume text (· == '=') pos then
    match ← nameAt text left with
    | some left => return .more left
    | none => return .lost
  else return if (← bareAttributeAt text pos).isSome then .found else .lost

/-- Reads blanks and one attribute or the opening of the tag. -/
def turn (pos : Nat) : Checked Turn := do
  let pos ← consumeWhile text isAsciiBlank pos
  match ← nameAt text pos with
  | some left => turnAfterName text left
  | none =>
    match ← attributeAt text pos with
    | some left => return .more left
    | none => return .lost

/-! ### Offsets and lists that are read to the left -/

variable {text} {left rest : List Char} {c : Char}

/-- An offset stands behind a text that is read to the left from there. -/
def At (text left : List Char) : Prop := left.reverse <+: text

theorem At.suffix (h : At text left) (hrest : rest <:+ left) : At text rest :=
  (List.reverse_prefix.2 hrest).trans h

theorem At.tail (h : At text (c :: left)) : At text left := h.suffix (List.suffix_cons c left)

theorem peek_eq (h : At text left) : peek text left.length = .ok left.head? := by
  cases left with
  | nil => rfl
  | cons c left =>
    obtain ⟨right, rfl⟩ := h
    have hbyte : byteAt ((c :: left).reverse ++ right) left.length = .ok c := by
      rw [byteAt, List.reverse_cons, List.append_assoc, List.getElem?_append_right (by simp)]
      simp
    rw [peek, List.length_cons, if_neg (Nat.succ_ne_zero _), sub_add_right, ok_bind, hbyte]
    rfl

theorem peek_of_length_lt {pos : Nat} (h : text.length < pos) :
    peek text pos = .error .index := by
  have hbyte : byteAt text (pos - 1) = .error .index := by
    rw [byteAt, List.getElem?_eq_none (by omega)]
  rw [peek, if_neg (by omega), sub_of_le (by omega), ok_bind, hbyte]
  rfl

theorem consume_eq (p : Char → Bool) (h : At text left) : consume text p left.length =
    .ok (match left with
      | c :: rest => if p c then some rest.length else none
      | [] => none) := by
  rw [consume, peek_eq h]
  cases left with
  | nil => rfl
  | cons c left =>
    simp only [List.head?_cons, ok_bind, List.length_cons, retreat_succ, pure_eq_ok]
    split <;> rfl

theorem consume_char_eq (d : Char) (h : At text left) :
    consume text (· == d) left.length = .ok ((beforeChar d left).map List.length) := by
  rw [consume_eq _ h]
  cases left with
  | nil => rfl
  | cons c left =>
    simp only [beforeChar, beq_iff_eq]
    split <;> rfl

section

variable {σ : Type} {next : σ → Nat → Char → Checked (σ × Bool)} {s s' : σ}

theorem goBack_nil : goBack text next s 0 = .ok (s, 0) := by rw [goBack]; rfl

theorem goBack_pass (h : At text (c :: left))
    (hnext : next s (left.length + 1) c = .ok (s', true)) :
    goBack text next s (left.length + 1) = goBack text next s' left.length := by
  have hpeek := peek_eq h
  rw [List.length_cons] at hpeek
  rw [goBack, hpeek]
  simp only [List.head?_cons, ok_bind, hnext, retreat_succ, if_true]

theorem goBack_stop (h : At text (c :: left))
    (hnext : next s (left.length + 1) c = .ok (s', false)) :
    goBack text next s (left.length + 1) = .ok (s', left.length + 1) := by
  have hpeek := peek_eq h
  rw [List.length_cons] at hpeek
  rw [goBack, hpeek]
  simp only [List.head?_cons, ok_bind, hnext, Bool.false_eq_true, if_false, pure_eq_ok]

end

theorem consumeWhile_eq (p : Char → Bool) (h : At text left) :
    consumeWhile text p left.length = .ok (left.dropWhile p).length := by
  have hgo : goBack text (fun _ _ b => .ok ((), p b)) () left.length =
      .ok ((), (left.dropWhile p).length) := by
    induction left with
    | nil => exact goBack_nil
    | cons c left ih =>
      rw [List.length_cons]
      cases hp : p c with
      | true =>
        rw [goBack_pass h (by rw [hp]), ih h.tail, List.dropWhile_cons_of_pos hp]
      | false =>
        rw [goBack_stop h (by rw [hp]), List.dropWhile_cons_of_neg (by rw [hp]; decide)]
        rfl
  rw [consumeWhile, hgo]
  rfl

theorem nameAt_eq (h : At text left) :
    nameAt text left.length = .ok ((beforeName left).map List.length) := by
  rw [nameAt, consumeWhile_eq _ h, ok_bind]
  cases left with
  | nil => rfl
  | cons c left =>
    rw [beforeName]
    by_cases hc : isNameChar c = true
    · have := (List.dropWhile_sublist isNameChar (l := left)).length_le
      rw [List.dropWhile_cons_of_pos hc, List.length_cons, if_neg (by omega), if_pos hc]
      rfl
    · rw [List.dropWhile_cons_of_neg hc, if_pos rfl, if_neg hc]
      rfl

theorem quoteOpeningAt_eq (quote : Char) (h : At text left) :
    quoteOpeningAt text quote left.length =
      .ok ((beforeQuoteOpening quote left).map List.length) := by
  induction left with
  | nil =>
    rw [quoteOpeningAt, peek_eq h]
    rfl
  | cons c left ih =>
    rw [quoteOpeningAt, peek_eq h]
    simp only [List.head?_cons, ok_bind, List.length_cons, retreat_succ, peek_eq h.tail,
      pure_eq_ok, beforeQuoteOpening]
    split
    · rfl
    · exact ih h.tail

theorem quotedAt_eq (h : At text left) :
    quotedAt text left.length = .ok ((beforeQuoted left).map List.length) := by
  rw [quotedAt, peek_eq h]
  cases left with
  | nil => rfl
  | cons c left =>
    simp only [List.head?_cons, ok_bind, List.length_cons, retreat_succ, pure_eq_ok, beforeQuoted]
    split
    · exact quoteOpeningAt_eq c h.tail
    · rfl

theorem exists_goBack_bareValue (pending : List Char) (h : At text left) :
    ∃ pending', goBack text bareValueStep pending left.length =
      .ok (pending', (beforeBareValue pending left).length) := by
  induction left generalizing pending with
  | nil => exact ⟨pending, goBack_nil⟩
  | cons c left ih =>
    have hpass (s : List Char)
        (hnext : bareValueStep pending (left.length + 1) c = .ok (s, true)) :
        ∃ pending', goBack text bareValueStep pending (left.length + 1) =
          .ok (pending', (beforeBareValue s left).length) := by
      rw [goBack_pass h hnext]
      exact ih s h.tail
    have hstop (s : List Char)
        (hnext : bareValueStep pending (left.length + 1) c = .ok (s, false)) :
        ∃ pending', goBack text bareValueStep pending (left.length + 1) =
          .ok (pending', (c :: left).length) :=
      ⟨s, goBack_stop h hnext⟩
    rw [List.length_cons]
    unfold beforeBareValue
    -- the cases of a step are those of the list function
    split
    · next hc => exact hpass _ (by simp only [bareValueStep, if_pos hc])
    next hcloser =>
    split
    · next hopen =>
      split
      · next top pending =>
        split
        · next htop => exact hpass pending (by simp [bareValueStep, hcloser, hopen, htop])
        · next htop => exact hstop pending (by simp [bareValueStep, hcloser, hopen, htop])
      · exact hstop [] (by simp [bareValueStep, hcloser, hopen])
    next hopen =>
    split
    · next hend =>
      exact hstop pending (by simp only [bareValueStep, if_neg hcloser, if_neg hopen, if_pos hend])
    · next hend =>
      exact hpass pending (by simp only [bareValueStep, if_neg hcloser, if_neg hopen, if_neg hend])

theorem bareAttributeAt_eq (h : At text left) :
    bareAttributeAt text left.length = .ok ((beforeBareAttribute left).map List.length) := by
  obtain ⟨pending, hgo⟩ := exists_goBack_bareValue [] h
  rw [bareAttributeAt, hgo, ok_bind, beforeBareAttribute]
  have hvalue := h.suffix (suffix_of_beforeBareValue [] left)
  simp only
  split
  · rfl
  · rw [consume_char_eq '=' hvalue, ok_bind]
    cases hname : beforeChar '=' (beforeBareValue [] left) with
    | none => rfl
    | some name =>
      have hsuffix : name <:+ beforeBareValue [] left := by
        rw [beforeChar_eq_some_iff.1 hname]
        exact List.suffix_cons '=' name
      exact nameAt_eq (hvalue.suffix hsuffix)

theorem quotedAttributeAt_eq (h : At text left) : quotedAttributeAt text left.length =
    .ok ((beforeQuotedAttribute left).map List.length) := by
  rw [quotedAttributeAt, quotedAt_eq h, ok_bind, beforeQuotedAttribute]
  cases hquoted : beforeQuoted left with
  | none => rfl
  | some sign =>
    have hsign := h.suffix (suffix_of_beforeQuoted hquoted)
    simp only [Option.map_some, Option.bind_some, consume_char_eq '=' hsign, ok_bind]
    cases hname : beforeChar '=' sign with
    | none => rfl
    | some name =>
      have hsuffix : name <:+ sign := by
        rw [beforeChar_eq_some_iff.1 hname]
        exact List.suffix_cons '=' name
      exact nameAt_eq (hsign.suffix hsuffix)

theorem attributeAt_eq (h : At text left) :
    attributeAt text left.length = .ok ((beforeAttribute left).map List.length) := by
  rw [attributeAt, quotedAttributeAt_eq h, ok_bind, beforeAttribute]
  cases beforeQuotedAttribute left with
  | none => exact bareAttributeAt_eq h
  | some rest => rfl

/-- A round that reads lists, by offsets. -/
def Turn.ofRound : Round → Turn
  | .found => .found
  | .lost => .lost
  | .more left => .more left.length

theorem turnAfterName_eq (h : At text left) :
    turnAfterName text left.length = .ok (.ofRound (roundAfterName left)) := by
  have hattribute := bareAttributeAt_eq h
  rw [turnAfterName, consume_char_eq '/' h, consume_char_eq '<' h, consume_char_eq '=' h,
    consume_eq _ h, hattribute]
  cases left with
  | nil => rfl
  | cons c left =>
    simp only [ok_bind, beforeChar, roundAfterName, pure_eq_ok]
    -- a slash, the opening bracket, a blank, the sign of equality, and all other characters
    by_cases hslash : c = '/'
    · have hopen := consume_char_eq '<' h.tail
      have hhead : (beforeChar '<' left).isSome = true ↔ left.head? = some '<' := by
        rw [Option.isSome_iff_exists]
        simp only [beforeChar_eq_some_iff, List.head?_eq_some_iff]
      simp only [hslash, if_true, Option.map_some, hopen, ok_bind, Option.isSome_map, hhead]
      split <;> rfl
    by_cases hopen : c = '<'
    · subst hopen
      rfl
    by_cases hblank : isAsciiBlank c = true
    · simp only [hslash, hopen, hblank, if_true, if_false, Option.map_none]
      rfl
    by_cases hequals : c = '='
    · subst hequals
      rw [if_neg hslash, if_neg hopen, if_neg hblank, if_neg hslash, if_neg hopen, if_neg hblank]
      simp only [if_true, Option.map_none, Option.map_some, nameAt_eq h.tail, ok_bind]
      cases beforeName left <;> rfl
    · simp only [hslash, hopen, hblank, hequals, if_false, Option.map_none]
      cases beforeBareAttribute (c :: left) <;> rfl

theorem turn_eq (h : At text left) :
    turn text left.length = .ok (.ofRound (Abbreviation.round left)) := by
  have hblanks := h.suffix (List.dropWhile_suffix isAsciiBlank (l := left))
  simp only [turn, consumeWhile_eq _ h, ok_bind, nameAt_eq hblanks, attributeAt_eq hblanks,
    Abbreviation.round]
  cases hname : beforeName (left.dropWhile isAsciiBlank) with
  | some rest => exact turnAfterName_eq (hblanks.suffix (suffix_of_beforeName hname))
  | none => cases beforeAttribute (left.dropWhile isAsciiBlank) <;> rfl

/-- A turn that does not decide moves to the left. -/
theorem lt_of_turn {pos pos' : Nat} (h : turn text pos = .ok (.more pos')) : pos' < pos := by
  by_cases hpos : pos ≤ text.length
  · have hat : At text (text.take pos).reverse := by
      rw [At, List.reverse_reverse]
      exact List.take_prefix pos text
    have hlength : (text.take pos).reverse.length = pos := by simp [hpos]
    rw [← hlength, turn_eq hat, Except.ok.injEq] at h
    cases hround : Abbreviation.round (text.take pos).reverse with
    | found => rw [hround] at h; cases h
    | lost => rw [hround] at h; cases h
    | more rest =>
      rw [hround] at h
      obtain rfl := Turn.more.inj h
      exact hlength ▸ length_lt_of_round hround
  · -- behind the end of the text there is no byte to read
    have hfault : consumeWhile text isAsciiBlank pos = .error .index := by
      rw [consumeWhile, goBack, peek_of_length_lt (Nat.lt_of_not_le hpos)]
      rfl
    rw [turn, hfault] at h
    cases h

variable (text) in
/-- Repeats turns until one decides or the text starts. -/
def opensTagAt (pos : Nat) : Checked Bool :=
  if pos = 0 then .ok false
  else match _h : turn text pos with
    | .ok .found => .ok true
    | .ok .lost => .ok false
    | .ok (.more left) => opensTagAt left
    | .error fault => .error fault
  termination_by pos
  decreasing_by exact lt_of_turn _h

theorem opensTagAt_of_turn {pos : Nat} {t : Turn} (hpos : pos ≠ 0) :
    turn text pos = .ok t → opensTagAt text pos = match t with
      | .found => .ok true
      | .lost => .ok false
      | .more left => opensTagAt text left := by
  intro h
  rw [opensTagAt, if_neg hpos]
  split
  all_goals
    next hturn =>
      cases h.symm.trans hturn
      try rfl

theorem length_ne_zero_of_round (h : Abbreviation.round left ≠ .lost) : left.length ≠ 0 := by
  rintro hlength
  obtain rfl := List.length_eq_zero_iff.1 hlength
  exact h rfl

theorem opensTagAt_eq (h : At text left) : opensTagAt text left.length = .ok (opensTag left) := by
  have hturn := turn_eq h
  induction left using opensTag.induct with
  | case1 left hround =>
    rw [hround] at hturn
    rw [opensTagAt_of_turn (length_ne_zero_of_round (by simp [hround])) hturn,
      opensTag_of_found hround]
    rfl
  | case2 left hround =>
    rw [hround] at hturn
    rw [opensTag_of_lost hround]
    by_cases hlength : left.length = 0
    · rw [opensTagAt, if_pos hlength]
    · rw [opensTagAt_of_turn hlength hturn]
      rfl
  | case3 left rest hround ih =>
    have hrest := h.suffix (suffix_of_round hround)
    rw [hround] at hturn
    rw [opensTagAt_of_turn (length_ne_zero_of_round (by simp [hround])) hturn,
      opensTag_of_more hround]
    exact ih hrest (turn_eq hrest)

variable (text) in
/-- Whether a tag ends at an offset. -/
def endsTagAt (pos : Nat) : Checked Bool := do
  match ← consume text (· == '>') pos with
  | some left => opensTagAt text ((← consume text (· == '/') left).getD left)
  | none => return false

theorem getD_beforeChar_slash (left : List Char) :
    ((beforeChar '/' left).map List.length).getD left.length = (dropSlash left).length := by
  cases left with
  | nil => rfl
  | cons c left =>
    by_cases hc : c = '/'
    · subst hc
      rfl
    · have hkeep : dropSlash (c :: left) = c :: left := by
        unfold dropSlash
        split <;> simp_all
      rw [beforeChar, if_neg hc, hkeep]
      rfl

theorem endsTagAt_eq (h : At text left) : endsTagAt text left.length = .ok (endsTag left) := by
  rw [endsTagAt, consume_char_eq '>' h, ok_bind]
  cases left with
  | nil => rfl
  | cons c left =>
    by_cases hc : c = '>'
    · subst hc
      rw [show beforeChar '>' ('>' :: left) = some left by simp [beforeChar], Option.map_some]
      simp only [consume_char_eq '/' h.tail, ok_bind, getD_beforeChar_slash]
      rw [opensTagAt_eq (h.tail.suffix (dropSlash_suffix left)), endsTag_eq_opensTag]
    · rw [beforeChar, if_neg hc, endsTag_eq_false hc]
      rfl

/-! ### The scan -/

variable (text) in
/-- Decides about the byte left of an offset. -/
def walkStep (f : Family) (pending : List Char) (pos : Nat) (b : Char) :
    Checked (List Char × Bool) := do
  if '\x7d' ∈ pending ∧ b ≠ '\x7b' then
    return (if b = '\x7d' then b :: pending else pending, true)
  else if closesGroup f b then return (b :: pending, true)
  else if opensGroup f b then
    match pending with
    | top :: pending => return (pending, opener? top == some b)
    | [] => return ([], false)
  else if ']' ∈ pending ∨ '\x7d' ∈ pending then return (pending, true)
  else return (pending, !(← endsTagAt text pos) && isAbbreviationChar b)

/-- A decision about a character: the brackets that are unmatched then, and whether it is taken. -/
def Step.decision : Step → List Char × Bool
  | .take pending => (pending, true)
  | .stop pending => (pending, false)

theorem walkStep_eq (f : Family) (pending : List Char) (h : At text (c :: left)) :
    walkStep text f pending (left.length + 1) c = .ok (Step.decision (step f pending c left)) := by
  have htag := endsTagAt_eq h
  rw [List.length_cons] at htag
  unfold walkStep step
  split
  · rfl
  split
  · rfl
  split
  · cases pending with
    | nil => rfl
    | cons top pending =>
      rw [stepOpening]
      by_cases htop : opener? top = some c
      · simp [htop, Step.decision]
      · simp [htop, Step.decision]
  split
  · rfl
  · rw [htag]
    cases endsTag (c :: left) <;> cases isAbbreviationChar c <;> rfl

theorem goBack_walkStep (f : Family) (pending : List Char) (h : At text left) :
    goBack text (walkStep text f) pending left.length =
      .ok ((walk f pending left).pending, left.length - (walk f pending left).taken.length) := by
  induction left generalizing pending with
  | nil => exact goBack_nil
  | cons c left ih =>
    have hstep := walkStep_eq f pending h
    rw [List.length_cons]
    cases hdecision : step f pending c left with
    | take pending' =>
      rw [hdecision] at hstep
      rw [goBack_pass h hstep, ih pending' h.tail, walk_cons_take hdecision]
      simp only [Walk.after, List.singleton_append, List.length_cons, Nat.add_sub_add_right]
    | stop pending' =>
      rw [hdecision] at hstep
      rw [goBack_stop h hstep, walk_cons_stop hdecision]
      rfl

/-- The offset behind the closing brackets right of an offset that count as typed. -/
def pastClosers (text : List Char) (f : Family) (pos : Nat) : Nat :=
  pos + (closersAhead f (text.drop pos)).length

/-- The abbreviation that ends at an offset of a line, and where it starts. -/
def scan (line : List Char) (offset : Nat) (o : ScanOptions) :
    Checked (Option (List Char × Nat)) := do
  let text := encode line
  let cursor ← align line (min offset (bytes line))
  let pos := if o.lookAhead then pastClosers text o.family cursor else cursor
  let (pending, left) ← goBack text (walkStep text o.family) [] pos
  if pending ≠ [] ∨ left = pos then return none
  else
    let abbreviation := (← slice line left pos).dropWhile isJoining
    return some (abbreviation, ← sub pos (bytes abbreviation))

variable {line : List Char}

theorem at_encode {before after : List Char} (h : line = before ++ after) :
    At (encode line) (encodeBack before.reverse) := by
  rw [At, encodeBack_reverse, List.reverse_reverse, h, encode_append]
  exact List.prefix_append ..

theorem pastClosers_eq {before after : List Char} (h : line = before ++ after) (f : Family) :
    pastClosers (encode line) f (bytes before) = bytes (before ++ closersAhead f after) := by
  have hdrop : (encode line).drop (bytes before) = encode after := by
    rw [h, encode_append, ← length_encode, List.drop_left]
  rw [pastClosers, hdrop, closersAhead_encode, ← bytes_closersAhead, bytes_append]

/-- The scan by offsets starts behind what the scan goes through. -/
theorem pos_eq_bytes_reach (line : List Char) (offset : Nat) (o : ScanOptions) :
    (if o.lookAhead then pastClosers (encode line) o.family (bytes (cut utf8 line offset).1)
      else bytes (cut utf8 line offset).1) = bytes (reach line offset o) := by
  rw [reach_eq, ahead]
  split
  · exact pastClosers_eq (cut_append utf8 line offset).symm o.family
  · rw [List.append_nil]

/-- The walk by offsets stops where the walk stops, at the end of what stands left of there. -/
theorem exists_goBack_walkStep {before after : List Char} (h : line = before ++ after) (f : Family)
    (pending : List Char) : ∃ front,
      before = front ++ (walk f pending before.reverse).taken.reverse ∧
      goBack (encode line) (walkStep (encode line) f) pending (bytes before) =
        .ok ((walk f pending before.reverse).pending, bytes front) := by
  obtain ⟨rest, hrest⟩ := taken_prefix f pending before.reverse
  have hgo := goBack_walkStep f pending (at_encode h)
  simp only [length_encodeBack, walk_encodeBack] at hgo
  have hbytes := congrArg bytes hrest
  have hreverse : bytes rest.reverse = bytes rest := size_reverse ..
  have hleft : bytes before.reverse - bytes (walk f pending before.reverse).taken =
      bytes rest.reverse := by
    rw [bytes_append] at hbytes
    omega
  rw [hleft, show bytes before.reverse = bytes before from size_reverse ..] at hgo
  refine ⟨rest.reverse, ?_, hgo⟩
  rw [← List.reverse_append, hrest, List.reverse_reverse]

/-- **The scan by offsets finds what the scan finds,** and there is never anything wrong with an
offset on the way. -/
theorem scan_eq (line : List Char) (offset : Nat) (o : ScanOptions) :
    scan line offset o = .ok (Abbreviation.scan line offset o) := by
  obtain ⟨after, hafter⟩ := reach_isPrefix line offset o
  have hcursor : align line (min offset (bytes line)) = .ok (bytes (cut utf8 line offset).1) := by
    rw [align_eq, cut_min_bytes]
  have hpos := pos_eq_bytes_reach line offset o
  obtain ⟨front, hbefore, hgo⟩ := exists_goBack_walkStep hafter.symm o.family []
  simp only [scan, hcursor, ok_bind, hpos, hgo, Abbreviation.scan]
  generalize walk o.family [] (reach line offset o).reverse = found at *
  generalize reach line offset o = before at *
  -- the walk divides what stands left of the cursor into what it leaves and what it takes
  subst hbefore
  have hslice : slice line (bytes front) (bytes (front ++ found.taken.reverse)) =
      .ok found.taken.reverse :=
    slice_append (by rw [← hafter, List.append_assoc])
  have hempty : bytes front = bytes (front ++ found.taken.reverse) ↔ found.taken = [] := by
    rw [bytes_append, Nat.left_eq_add, bytes_eq_zero_iff, List.reverse_eq_nil_iff]
  have hle : bytes (found.taken.reverse.dropWhile isJoining) ≤
      bytes (front ++ found.taken.reverse) :=
    bytes_le_of_isSuffix ((List.dropWhile_suffix _).trans (List.suffix_append ..))
  simp only [hempty]
  split
  · rfl
  · rw [hslice, ok_bind, sub_of_le hle]
    rfl

end Emmet.Checked
