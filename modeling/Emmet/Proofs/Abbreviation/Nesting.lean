import Emmet.Proofs.Abbreviation.TagEnd
import Emmet.Proofs.Abbreviation.Walk

/-!
# The scan takes whole abbreviations

Abbreviations nest: groups `(…)` hold abbreviations, attribute sets `[…]` hold any text with matching
brackets, and text nodes hold any text with matching braces. `Nested` is that grammar, and
`find?_nested` says that the scan from the end of such a text takes all of it, wherever it stands,
and goes no further.

The walk meets the text from the right, so each rule of the grammar is a statement about a walk over
the reversed text from given unmatched brackets (`takes_nodeText`, `takes_setText`, `takes_nested`).
Outside of attribute sets and text nodes every `>` is also asked whether it ends a tag. It does not,
because the text left of it is `Outside`: the run of characters it stands behind ends at a bracket or
at a blank of a text without `<`.
-/

namespace Emmet.Abbreviation

/-! ### The grammar -/

/-- The content of a text node: any text with matching braces. -/
inductive NodeText : List Char → Prop where
  | nil : NodeText []
  | char {c : Char} {t : List Char} (hopen : c ≠ '\x7b') (hclose : c ≠ '\x7d')
      (ht : NodeText t) : NodeText (c :: t)
  | node {u t : List Char} (hu : NodeText u) (ht : NodeText t) :
      NodeText ('\x7b' :: (u ++ '\x7d' :: t))

/-- A bracket that an attribute set has to match. -/
def isSetBracket (c : Char) : Bool := ['(', ')', '[', ']', '\x7b', '\x7d'].contains c

/-- The content of an attribute set: any text with matching brackets, in which text between braces
is the content of a text node. -/
inductive SetText : List Char → Prop where
  | nil : SetText []
  | char {c : Char} {b : List Char} (hc : isSetBracket c = false) (hb : SetText b) :
      SetText (c :: b)
  | group {a b : List Char} (ha : SetText a) (hb : SetText b) : SetText ('(' :: (a ++ ')' :: b))
  | set {a b : List Char} (ha : SetText a) (hb : SetText b) : SetText ('[' :: (a ++ ']' :: b))
  | node {t b : List Char} (ht : NodeText t) (hb : SetText b) :
      SetText ('\x7b' :: (t ++ '\x7d' :: b))

/-- An abbreviation as far as its brackets go. -/
inductive Nested : List Char → Prop where
  | nil : Nested []
  | char {c : Char} {s : List Char} (hc : isAbbreviationChar c = true) (hs : Nested s) :
      Nested (c :: s)
  | group {a s : List Char} (ha : Nested a) (hs : Nested s) : Nested ('(' :: (a ++ ')' :: s))
  | set {b s : List Char} (hb : SetText b) (hs : Nested s) : Nested ('[' :: (b ++ ']' :: s))
  | node {t s : List Char} (ht : NodeText t) (hs : Nested s) :
      Nested ('\x7b' :: (t ++ '\x7d' :: s))

/-! ### Steps at brackets -/

section Steps

variable {f : Family} {pending left : List Char} {c : Char}

/-- A character that an attribute set does not have to match is no bracket of any family. -/
theorem not_group_of_not_isSetBracket (f : Family) (hc : isSetBracket c = false) :
    closesGroup f c = false ∧ opensGroup f c = false := by
  simp only [isSetBracket, List.contains_cons, Bool.or_eq_false_iff, beq_eq_false_iff_ne,
    ne_eq] at hc
  obtain ⟨hround, hround', hsquare, hsquare', hcurly, hcurly', -⟩ := hc
  constructor
  · simp [closesGroup, hround', hsquare', hcurly']
  · simp [opensGroup, hround, hsquare, hcurly]

/-- No character of an abbreviation is a bracket of any family. -/
theorem not_group_of_isAbbreviationChar (f : Family) (hc : isAbbreviationChar c = true) :
    closesGroup f c = false ∧ opensGroup f c = false := by
  refine not_group_of_not_isSetBracket f ?_
  rw [← Bool.not_eq_true]
  intro h
  simp only [isSetBracket, List.contains_cons, Bool.or_eq_true, beq_iff_eq, List.contains_nil,
    Bool.false_eq_true, or_false] at h
  rcases h with rfl | rfl | rfl | rfl | rfl | rfl <;> exact absurd hc (by decide)

/-- Outside of attribute sets and text nodes, a character of an abbreviation is taken unless it ends
a tag. -/
theorem step_of_isAbbreviationChar (hset : ']' ∉ pending) (hnode : '\x7d' ∉ pending)
    (hc : isAbbreviationChar c = true) (htag : endsTag (c :: left) = false) :
    step f pending c left = .take pending := by
  obtain ⟨hcloses, hopens⟩ := not_group_of_isAbbreviationChar f hc
  simp [step, hnode, hcloses, hopens, hset, htag, hc]

/-- So a run of such characters is taken, unless a tag can end in it. -/
theorem takes_of_isAbbreviationChar {cs : List Char}
    (h : ∀ c ∈ cs, isAbbreviationChar c = true ∧ c ≠ '>') : Takes f [] cs [] left := by
  induction cs with
  | nil => exact .nil
  | cons c cs ih =>
    obtain ⟨⟨hc, hgt⟩, hcs⟩ := List.forall_mem_cons.1 h
    have hstep : step f [] c (cs ++ left) = .take [] :=
      step_of_isAbbreviationChar List.not_mem_nil List.not_mem_nil hc (endsTag_eq_false hgt _)
    exact Takes.trans (.single hstep) (ih hcs)

/-- In a text node only braces count. -/
theorem step_of_mem_node (hnode : '\x7d' ∈ pending) (hc : c ≠ '\x7b') :
    step f pending c left = .take (if c = '\x7d' then c :: pending else pending) := by
  rw [step, if_pos ⟨hnode, hc⟩]

/-- An opening bracket matches the innermost unmatched one if it is its partner. -/
theorem step_of_opensGroup {top : Char} (hopen : opensGroup f c = true)
    (hclose : closesGroup f c = false) (htop : opener? top = some c)
    (hnode : '\x7d' ∈ top :: pending → c = '\x7b') :
    step f (top :: pending) c left = .take pending := by
  have hskip : ¬('\x7d' ∈ top :: pending ∧ c ≠ '\x7b') := fun h => h.2 (hnode h.1)
  rw [step, if_neg hskip]
  simp [hopen, hclose, stepOpening, htop]

/-- A walk over a text between brackets, and over the text behind it. -/
theorem takes_between {opening closing : Char} {inner rest : List Char}
    (hrest : Takes f pending rest.reverse pending (closing :: (inner.reverse ++ opening :: left)))
    (hclose : step f pending closing (inner.reverse ++ opening :: left) =
      .take (closing :: pending))
    (hinner : Takes f (closing :: pending) inner.reverse (closing :: pending) (opening :: left))
    (hopen : step f (closing :: pending) opening left = .take pending) :
    Takes f pending (opening :: (inner ++ closing :: rest)).reverse pending left := by
  have hpair : Takes f pending (closing :: (inner.reverse ++ [opening])) pending left :=
    (Takes.single (by simpa using hclose)).trans (hinner.trans (.single hopen))
  have hrest' : Takes f pending rest.reverse pending
      (closing :: (inner.reverse ++ [opening]) ++ left) := by
    simpa using hrest
  simpa using hrest'.trans hpair

end Steps

/-! ### Walks over the grammar -/

variable {pending left : List Char}

theorem takes_nodeText {t : List Char} (ht : NodeText t) :
    ∀ {pending left}, '\x7d' ∈ pending → Takes .markup pending t.reverse pending left := by
  induction ht with
  | nil => exact fun _ => .nil
  | @char c t hopen hclose _ ih =>
    intro pending left hp
    have hstep : step .markup pending c left = .take pending := by
      rw [step_of_mem_node hp hopen, if_neg hclose]
    rw [List.reverse_cons]
    exact (ih hp).trans (.single hstep)
  | node _ _ ihu iht =>
    intro pending left hp
    refine takes_between (iht hp) ?_ (ihu List.mem_cons_self) ?_
    · rw [step_of_mem_node hp (by decide), if_pos rfl]
    · exact step_of_opensGroup rfl rfl rfl fun _ => rfl

theorem takes_setText {b : List Char} (hb : SetText b) :
    ∀ {pending left}, ']' ∈ pending → '\x7d' ∉ pending →
      Takes .markup pending b.reverse pending left := by
  -- the set stays open on the way, so other characters need no look
  induction hb with
  | nil => exact fun _ _ => .nil
  | @char c b hc _ ih =>
    intro pending left hset hnode
    have hstep : step .markup pending c left = .take pending := by
      obtain ⟨hcloses, hopens⟩ := not_group_of_not_isSetBracket .markup hc
      simp [step, hnode, hcloses, hopens, hset]
    rw [List.reverse_cons]
    exact (ih hset hnode).trans (.single hstep)
  | group _ _ iha ihb =>
    intro pending left hset hnode
    refine takes_between (ihb hset hnode) (step_of_closesGroup rfl hnode)
      (iha (List.mem_cons_of_mem _ hset) ?_) (step_of_opensGroup rfl rfl rfl ?_)
    · simp [hnode]
    · simp [hnode]
  | set _ _ iha ihb =>
    intro pending left hset hnode
    refine takes_between (ihb hset hnode) (step_of_closesGroup rfl hnode)
      (iha List.mem_cons_self ?_) (step_of_opensGroup rfl rfl rfl ?_)
    · simp [hnode]
    · simp [hnode]
  | node ht _ ihb =>
    intro pending left hset hnode
    exact takes_between (ihb hset hnode) (step_of_closesGroup rfl hnode)
      (takes_nodeText ht List.mem_cons_self) (step_of_opensGroup rfl rfl rfl fun _ => rfl)

/-! ### No tag ends in an abbreviation -/

/-- The text left of a place outside of attribute sets and text nodes: a run of characters of
abbreviations that ends at a bracket or at a blank left of which no tag is opened. -/
inductive Outside : List Char → Prop where
  | nil : Outside []
  | bracket {c : Char} {left : List Char} (hc : isSetBracket c = true) : Outside (c :: left)
  | blank {c : Char} {left : List Char} (hc : Text.isAsciiBlank c = true) (hlt : '<' ∉ left) :
      Outside (c :: left)
  | char {c : Char} {left : List Char} (hc : isAbbreviationChar c = true) (hleft : Outside left) :
      Outside (c :: left)

/-- Right of every equals sign in a reversed text stands a quotation mark. -/
def EqualsQuoted (left : List Char) : Prop :=
  ∀ right c name, left = right ++ c :: '=' :: name → isQuote c = true

theorem EqualsQuoted.suffix {left rest : List Char} (h : EqualsQuoted left)
    (hrest : rest <:+ left) : EqualsQuoted rest := by
  obtain ⟨front, rfl⟩ := hrest
  rintro right c name rfl
  exact h (front ++ right) c name (List.append_assoc ..).symm

theorem EqualsQuoted.not_endsInValue {left : List Char} (h : EqualsQuoted left) :
    ¬ EndsInValue left := by
  intro hvalue
  obtain ⟨right, c, name, hleft, hc⟩ := hvalue.exists_equals
  rw [h right c name hleft] at hc
  cases hc

/-- A text that opens no tag and has quotation marks around its values is no tag. -/
theorem opensTag_of_equalsQuoted {left : List Char} (hequals : EqualsQuoted left) (hlt : '<' ∉ left) :
    opensTag left = false := by
  rw [← Bool.not_eq_true, opensTag_iff_endsInValue hlt]
  exact hequals.not_endsInValue

theorem beforeBareAttribute_eq_none {left : List Char} (h : EqualsQuoted left) :
    beforeBareAttribute left = none := by
  cases hread : beforeBareAttribute left with
  | none => rfl
  | some rest =>
    obtain ⟨value, name, hne, hvalue, hleft, -⟩ := beforeBareAttribute_eq_some_iff.1 hread
    obtain ⟨init, x, rfl⟩ := (List.eq_nil_or_concat' value).resolve_left hne
    have hquote := h init x name (by simpa using hleft)
    have hplain := (hvalue.isPlain x (by simp)).1
    rw [hquote] at hplain
    cases hplain

theorem isPlain_of_isAbbreviationChar {c : Char} (h : isAbbreviationChar c = true) :
    IsPlain c := by
  refine ⟨?_, ?_, ?_⟩
  · by_contra hc
    simp only [isQuote, Bool.not_eq_false, Bool.or_eq_true, beq_iff_eq] at hc
    rcases hc with rfl | rfl <;> exact absurd h (by decide)
  · rintro rfl
    exact absurd h (by decide)
  · by_contra hc
    simp only [Text.isAsciiBlank, Bool.not_eq_false, Bool.or_eq_true, beq_iff_eq] at hc
    rcases hc with (((rfl | rfl) | rfl) | rfl) | rfl <;> exact absurd h (by decide)

theorem isPlain_of_isSetBracket {c : Char} (h : isSetBracket c = true) :
    IsPlain c ∧ isNameChar c = false ∧ c ≠ '/' ∧ c ≠ '<' := by
  simp only [isSetBracket, List.contains_cons, Bool.or_eq_true, beq_iff_eq, List.contains_nil,
    Bool.false_eq_true, or_false] at h
  rcases h with rfl | rfl | rfl | rfl | rfl | rfl <;> exact ⟨⟨rfl, by decide, rfl⟩, by decide⟩

/-- A plain character that no name is in front of is neither a blank nor the end of an attribute. -/
theorem round_eq_lost {c : Char} {left : List Char} (hequals : EqualsQuoted (c :: left))
    (hc : IsPlain c) (hname : isNameChar c = false) : round (c :: left) = .lost := by
  have hquoted : beforeQuotedAttribute (c :: left) = none := by
    simp [beforeQuotedAttribute, beforeQuoted, hc.1]
  have hread : beforeAttribute (c :: left) = none := by
    rw [beforeAttribute, hquoted]
    exact beforeBareAttribute_eq_none hequals
  rw [round, List.dropWhile_cons_of_neg (by simp [hc.2.2])]
  simp [beforeName, hname, hread]

/-- A plain character left of a name does not belong to a tag, apart from brackets and slashes. -/
theorem roundAfterName_eq_lost {c : Char} {left : List Char} (hequals : EqualsQuoted (c :: left))
    (hc : IsPlain c) (hlt : c ≠ '<') (hslash : c = '/' → left.head? ≠ some '<') :
    roundAfterName (c :: left) = .lost := by
  rw [roundAfterName]
  split
  · next h => exact if_neg (hslash h)
  · simp [hc.2.1, hc.2.2, beforeBareAttribute_eq_none hequals]

theorem Outside.head?_ne {left : List Char} (h : Outside left) : left.head? ≠ some '<' := by
  intro hhead
  obtain ⟨left, rfl⟩ := List.head?_eq_some_iff.1 hhead
  cases h with
  | bracket hc => exact absurd hc (by decide)
  | blank hc => exact absurd hc (by decide)
  | char hc => exact absurd hc (by decide)

theorem Outside.of_dropWhile {left : List Char} (h : Outside left) :
    Outside (left.dropWhile isNameChar) := by
  induction h with
  | nil => exact .nil
  | bracket hc =>
    rw [List.dropWhile_cons_of_neg (by simp [(isPlain_of_isSetBracket hc).2.1])]
    exact .bracket hc
  | blank hc hlt =>
    rw [List.dropWhile_cons_of_neg]
    · exact .blank hc hlt
    · intro hname
      rw [not_isAsciiBlank_of_isNameChar hname] at hc
      cases hc
  | @char c left hc hleft ih =>
    rw [List.dropWhile_cons]
    split
    · exact ih
    · exact .char hc hleft

theorem Outside.of_beforeName {left rest : List Char} (h : Outside left)
    (hread : beforeName left = some rest) : Outside rest := by
  cases left with
  | nil => cases hread
  | cons c left =>
    simp only [beforeName] at hread
    split at hread
    · next hc =>
      obtain rfl := Option.some.inj hread
      have := h.of_dropWhile
      rwa [List.dropWhile_cons_of_pos hc] at this
    · cases hread

theorem Outside.roundAfterName_cases {rest : List Char} (h : Outside rest)
    (hequals : EqualsQuoted rest) :
    roundAfterName rest = .lost ∨
      ∃ more, roundAfterName rest = .more more ∧ more <:+ rest ∧ '<' ∉ more := by
  cases h with
  | nil => exact .inl rfl
  | bracket hc =>
    obtain ⟨hplain, -, hslash, hlt⟩ := isPlain_of_isSetBracket hc
    exact .inl (roundAfterName_eq_lost hequals hplain hlt fun h => absurd h hslash)
  | @blank c left hc hlt =>
    have hne : c ≠ '/' ∧ c ≠ '<' := by constructor <;> rintro rfl <;> exact absurd hc (by decide)
    refine .inr ⟨left, ?_, List.suffix_cons c left, hlt⟩
    simp [roundAfterName, hne, hc]
  | char hc hleft =>
    refine .inl (roundAfterName_eq_lost hequals (isPlain_of_isAbbreviationChar hc) ?_
      fun _ => hleft.head?_ne)
    rintro rfl
    exact absurd hc (by decide)

/-- Outside of attribute sets and text nodes no text is taken for a tag, however many `<` stand in
attribute sets and text nodes further left. -/
theorem Outside.opensTag_eq_false {left : List Char} (h : Outside left)
    (hequals : EqualsQuoted left) : opensTag left = false := by
  -- the first round decides, or a blank stands there and the text left of it has no `<`
  cases hread : beforeName left with
  | some rest =>
    obtain ⟨name, hname, rfl, hhead⟩ := beforeName_eq_some_iff.1 hread
    have hround : round (name ++ rest) = roundAfterName rest := round_name hname hhead
    have hrest : Outside rest := h.of_beforeName hread
    obtain hlost | ⟨more, hmore, hsuffix, hlt⟩ :=
      hrest.roundAfterName_cases (hequals.suffix (List.suffix_append name rest))
    · exact opensTag_of_lost (hround.trans hlost)
    · rw [opensTag_of_more (hround.trans hmore)]
      exact opensTag_of_equalsQuoted
        (hequals.suffix (hsuffix.trans (List.suffix_append name rest))) hlt
  | none =>
    have hname : ∀ {c more}, left = c :: more → isNameChar c = false := by
      rintro c more rfl
      simpa [beforeName] using hread
    cases h with
    | nil => exact opensTag_of_lost rfl
    | bracket hc =>
      exact opensTag_of_lost (round_eq_lost hequals (isPlain_of_isSetBracket hc).1 (hname rfl))
    | @blank c left hc hlt =>
      refine opensTag_of_equalsQuoted hequals fun hmem => ?_
      obtain rfl | hmem := List.mem_cons.1 hmem
      · exact absurd hc (by decide)
      · exact hlt hmem
    | char hc =>
      exact opensTag_of_lost
        (round_eq_lost hequals (isPlain_of_isAbbreviationChar hc) (hname rfl))

theorem Outside.of_dropSlash {left : List Char} (h : Outside left) : Outside (dropSlash left) := by
  unfold dropSlash
  split
  · cases h with
    | bracket hc => exact absurd hc (by decide)
    | blank hc => exact absurd hc (by decide)
    | char _ hleft => exact hleft
  · exact h

/-! ### Whole abbreviations -/

/-- Outside of brackets, and in groups only, the walk takes every character of an abbreviation. -/
theorem step_of_outside {pending left : List Char} {c : Char} (hp : ∀ d ∈ pending, d = ')')
    (hc : isAbbreviationChar c = true) (hleft : Outside left) (hequals : EqualsQuoted left) :
    step .markup pending c left = .take pending := by
  have hnode : '\x7d' ∉ pending := fun h => absurd (hp _ h) (by decide)
  have hset : ']' ∉ pending := fun h => absurd (hp _ h) (by decide)
  have htag : endsTag (c :: left) = false := by
    by_cases hgt : c = '>'
    · subst hgt
      rw [endsTag_eq_opensTag]
      exact hleft.of_dropSlash.opensTag_eq_false (hequals.suffix (dropSlash_suffix left))
    · exact endsTag_eq_false hgt left
  exact step_of_isAbbreviationChar hset hnode hc htag

theorem takes_nested {s : List Char} (hs : Nested s) :
    ∀ {pending left}, (∀ d ∈ pending, d = ')') → Outside left →
      EqualsQuoted (s.reverse ++ left) → Takes .markup pending s.reverse pending left := by
  -- by the grammar; only groups are open around a part, so its characters are looked at one by one
  have hnode : ∀ {pending : List Char}, (∀ d ∈ pending, d = ')') → '\x7d' ∉ pending :=
    fun hp h => absurd (hp _ h) (by decide)
  induction hs with
  | nil => exact fun _ _ _ => .nil
  | @char c s hc _ ih =>
    intro pending left hp hleft hequals
    rw [List.reverse_cons, List.append_assoc] at hequals
    rw [List.reverse_cons]
    exact (ih hp (.char hc hleft) hequals).trans (.single (step_of_outside hp hc hleft
      (hequals.suffix ((List.suffix_cons c left).trans (List.suffix_append s.reverse _)))))
  | @group a s _ _ iha ihs =>
    intro pending left hp hleft hequals
    simp only [List.reverse_cons, List.reverse_append, List.append_assoc, List.cons_append,
      List.nil_append] at hequals
    refine takes_between (ihs hp (.bracket rfl) hequals) (step_of_closesGroup rfl (hnode hp))
      (iha (List.forall_mem_cons.2 ⟨rfl, hp⟩) (.bracket rfl) (hequals.suffix ?_))
      (step_of_opensGroup rfl rfl rfl ?_)
    · exact (List.suffix_cons ')' _).trans (List.suffix_append s.reverse _)
    · simp [hnode hp]
  | @set b s hb _ ihs =>
    intro pending left hp hleft hequals
    simp only [List.reverse_cons, List.reverse_append, List.append_assoc, List.cons_append,
      List.nil_append] at hequals
    refine takes_between (ihs hp (.bracket rfl) hequals) (step_of_closesGroup rfl (hnode hp))
      (takes_setText hb List.mem_cons_self ?_) (step_of_opensGroup rfl rfl rfl ?_)
    · simp [hnode hp]
    · simp [hnode hp]
  | @node t s ht _ ihs =>
    intro pending left hp hleft hequals
    simp only [List.reverse_cons, List.reverse_append, List.append_assoc, List.cons_append,
      List.nil_append] at hequals
    exact takes_between (ihs hp (.bracket rfl) hequals) (step_of_closesGroup rfl (hnode hp))
      (takes_nodeText ht List.mem_cons_self) (step_of_opensGroup rfl rfl rfl fun _ => rfl)

/-! ### The scan from the end of an abbreviation -/

/-- Right of every equals sign of a text stands a quotation mark. -/
def QuotesValues : List Char → Prop
  | [] => True
  | c :: s => (c = '=' → s.head?.any isQuote = true) ∧ QuotesValues s

instance QuotesValues.decide : DecidablePred QuotesValues
  | [] => inferInstanceAs (Decidable True)
  | _ :: s => have := QuotesValues.decide s; inferInstanceAs (Decidable (_ ∧ _))

theorem QuotesValues.of_equals {name value : List Char} {c : Char}
    (h : QuotesValues (name ++ '=' :: c :: value)) : isQuote c = true := by
  induction name with
  | nil => simpa using h.1 rfl
  | cons _ _ ih => exact ih h.2

/-- A text that an abbreviation can be typed after: it ends with a blank, and no tag is opened in
it. -/
structure Leads (p : List Char) : Prop where
  blank : ∀ c ∈ p.getLast?, Text.isAsciiBlank c = true
  lt_notMem : '<' ∉ p
  equals_notMem : '=' ∉ p

theorem Leads.outside {p : List Char} (h : Leads p) : Outside p.reverse := by
  obtain rfl | ⟨front, c, rfl⟩ := List.eq_nil_or_concat' p
  · exact .nil
  · rw [List.reverse_append]
    exact .blank (h.blank c (by simp)) fun hlt => h.lt_notMem (by simp [List.mem_reverse.1 hlt])

theorem Leads.walk_eq {p : List Char} (h : Leads p) : walk .markup [] p.reverse = ⟨[], []⟩ := by
  obtain rfl | ⟨front, c, rfl⟩ := List.eq_nil_or_concat' p
  · rfl
  · have hc := h.blank c (by simp)
    rw [List.reverse_append]
    refine walk_cons_stop ?_
    simp only [Text.isAsciiBlank, Bool.or_eq_true, beq_iff_eq] at hc
    rcases hc with (((rfl | rfl) | rfl) | rfl) | rfl <;> rfl

theorem Leads.equalsQuoted {p s : List Char} (h : Leads p) (hs : QuotesValues s) :
    EqualsQuoted (s.reverse ++ p.reverse) := by
  intro right c name heq
  have htext : p ++ s = name.reverse ++ '=' :: (c :: right.reverse) := by
    have := congrArg List.reverse heq
    simpa using this
  -- the equals sign stands in the abbreviation, since there is none in front of it
  rcases List.append_eq_append_iff.1 htext with ⟨front, -, rfl⟩ | ⟨back, hp, hback⟩
  · exact hs.of_equals
  · cases back with
    | nil =>
      obtain rfl := hback
      exact QuotesValues.of_equals (show QuotesValues ([] ++ '=' :: c :: right.reverse) from hs)
    | cons d back =>
      obtain ⟨rfl, -⟩ := List.cons.inj hback
      exact absurd (hp ▸ by simp) h.equals_notMem

/-- **The scan from the end of an abbreviation takes all of it**, apart from the operators at its
front, whatever stands before it and whether or not it looks ahead. -/
theorem find?_nested {p s : List Char} (hs : Nested s) (hne : s ≠ []) (hvalues : QuotesValues s)
    (hp : Leads p) (lookAhead : Bool) :
    find? (String.ofList (p ++ s)) (Text.bytes (p ++ s)) ⟨.markup, lookAhead⟩ =
      some ⟨String.ofList (s.dropWhile isJoining),
        Text.bytes (p ++ s) - Text.bytes (s.dropWhile isJoining)⟩ := by
  have hcut : Text.cut Text.utf8 (p ++ s) (Text.bytes (p ++ s)) = (p ++ s, []) :=
    Text.cut_bytes (List.append_nil _).symm
  have hreach : reach (p ++ s) (Text.bytes (p ++ s)) ⟨.markup, lookAhead⟩ = p ++ s := by
    -- nothing stands right of the end
    rw [reach_eq, ahead, hcut]
    cases lookAhead <;> simp [closersAhead]
  have hwalk : walk .markup [] (p ++ s).reverse = ⟨s.reverse, []⟩ := by
    have htakes : Takes .markup [] s.reverse [] p.reverse :=
      takes_nested hs (by simp) hp.outside (hp.equalsQuoted hvalues)
    rw [List.reverse_append, htakes, hp.walk_eq, Walk.after, List.append_nil]
  simp only [find?, scan, String.toList_ofList, hreach, hwalk, List.reverse_reverse]
  simp [hne]

/-- Groups, attribute sets with `<` in a value and text nodes with `<` in them, behind a text in
which a `>` stands. -/
theorem find?_nested_group :
    let p := "é> ".toList
    let s := "+(a{<é>}>b)[c=\"<\"]>d".toList
    Nested s ∧ s ≠ [] ∧ QuotesValues s ∧ Leads p ∧
      find? (String.ofList (p ++ s)) (Text.bytes (p ++ s)) ⟨.markup, true⟩ =
        some ⟨"(a{<é>}>b)[c=\"<\"]>d", 5⟩ := by
  have hnode : NodeText ['<', 'é', '>'] :=
    .char (by decide) (by decide) (.char (by decide) (by decide) (.char (by decide) (by decide) .nil))
  have hset : SetText ['c', '=', '"', '<', '"'] :=
    .char rfl (.char rfl (.char rfl (.char rfl (.char rfl .nil))))
  have hgroup : Nested ("a{<é>}>b".toList) := .char rfl (.node hnode (.char rfl (.char rfl .nil)))
  have hs : Nested "+(a{<é>}>b)[c=\"<\"]>d".toList :=
    .char rfl (.group hgroup (.set hset (.char rfl (.char rfl .nil))))
  have hp : Leads "é> ".toList := by
    refine ⟨fun c hc => ?_, by decide, by decide⟩
    obtain rfl := Option.some.inj (show some ' ' = some c from hc)
    rfl
  refine ⟨hs, by decide, by decide, hp, ?_⟩
  rw [find?_nested hs (by decide) (by decide) hp true]
  decide

end Emmet.Abbreviation
