import Emmet.Proofs.Abbreviation.Prefix

/-!
# The plausible abbreviations of markup

The rules of markup look for places of a text at which parentheses are in order, each by a search
from the left that may go on from every character. This file says which texts the rules accept,
without the order in which they are asked and without searches.

* `Searches.eq_true_iff` : what a search from the left finds;
* `PlacesParenthesis` : the forms in which an abbreviation has parentheses;
* `hasPlacedParenthesis_iff` : the searches find just these forms, wherever they stand;
* `IsDoctype`, `IsElement` : the two kinds of abbreviations;
* `decideBy_markup_valid_iff` : the rules accept just these.
-/

namespace Emmet.Abbreviation

variable {cs : List Char} {c : Char}

/-! ### Searches -/

/-- A search that tries a form at the front of a text and, if it is not found there, goes on behind
the first character if it may pass it. -/
structure Searches (search : List Char → Bool) (passes : Char → Prop)
    (form : List Char → Prop) : Prop where
  nil : search [] = true ↔ form []
  cons : ∀ c cs, search (c :: cs) = true ↔ form (c :: cs) ∨ passes c ∧ search cs = true

/-- A search finds a form behind any characters that it may pass. -/
theorem Searches.eq_true_iff {search : List Char → Bool} {passes : Char → Prop}
    {form : List Char → Prop} (h : Searches search passes form) : search cs = true ↔
      ∃ front rest, cs = front ++ rest ∧ (∀ c ∈ front, passes c) ∧ form rest := by
  induction cs with
  | nil =>
    rw [h.nil]
    constructor
    · intro hform
      exact ⟨[], [], rfl, List.forall_mem_nil _, hform⟩
    · rintro ⟨front, rest, hnil, -, hform⟩
      obtain ⟨-, rfl⟩ := List.append_eq_nil_iff.1 hnil.symm
      exact hform
  | cons c cs ih =>
    rw [h.cons, ih]
    constructor
    · rintro (hform | ⟨hc, front, rest, rfl, hfront, hform⟩)
      · exact ⟨[], c :: cs, rfl, List.forall_mem_nil _, hform⟩
      · exact ⟨c :: front, rest, rfl, List.forall_mem_cons.2 ⟨hc, hfront⟩, hform⟩
    · rintro ⟨front, rest, hcs, hfront, hform⟩
      cases front with
      | nil =>
        obtain rfl : c :: cs = rest := hcs
        exact .inl hform
      | cons d front =>
        obtain ⟨rfl, rfl⟩ := List.cons.inj hcs
        obtain ⟨hc, hfront⟩ := List.forall_mem_cons.1 hfront
        exact .inr ⟨hc, front, rest, rfl, hfront, hform⟩

/-- A search at every place of a text. -/
theorem searches_anyTail (form : List Char → Bool) :
    Searches (anyTail form) (fun _ => True) (form · = true) where
  nil := Iff.rfl
  cons c cs := by simp [anyTail]

/-- The characters that a search in a line passes. -/
def InLine (c : Char) : Prop := c ≠ '\n'

theorem searches_closes : Searches closes InLine fun rest => ∃ after, rest = ')' :: after where
  nil := by simp [closes]
  cons c cs := by simp [closes, InLine]

/-- An operator that joins a group with its neighbours. -/
def IsOperator (c : Char) : Prop := c ∈ ['>', '+', '*', '^']

theorem isGroupOperator_iff : isGroupOperator c = true ↔ IsOperator c := by
  simp [isGroupOperator, IsOperator, or_assoc]

theorem startsWithOperator_iff :
    startsWithOperator cs = true ↔ ∃ op after, cs = op :: after ∧ IsOperator op := by
  cases cs with
  | nil => simp [startsWithOperator]
  | cons c cs => simp [startsWithOperator, isGroupOperator_iff]

theorem searches_closesBeforeOperator : Searches closesBeforeOperator InLine
    fun rest => ∃ op after, rest = ')' :: op :: after ∧ IsOperator op where
  nil := by simp [closesBeforeOperator]
  cons c cs := by
    simp only [closesBeforeOperator, Bool.or_eq_true, Bool.and_eq_true, startsWithOperator_iff,
      beq_iff_eq, bne_iff_ne, InLine, List.cons.injEq]
    grind

theorem searches_closesAttribute : Searches closesAttribute InLine
    fun rest => ∃ after, rest = '"' :: ']' :: after where
  nil := by simp [closesAttribute]
  cons c cs := by
    simp only [closesAttribute, Bool.or_eq_true, Bool.and_eq_true, beq_iff_eq, bne_iff_ne, InLine,
      List.head?_eq_some_iff, List.cons.injEq]
    grind

theorem attributeFrom_cons (c : Char) (cs : List Char) : attributeFrom true (c :: cs) =
    (c == '=' && (match cs with
      | '"' :: behind => closesAttribute behind
      | _ => false) || !isGroupBracket c && attributeFrom true cs) := rfl

theorem searches_attributeFrom : Searches (attributeFrom true) (isGroupBracket · = false)
    fun rest => ∃ behind, rest = '=' :: '"' :: behind ∧ closesAttribute behind = true where
  nil := by simp [attributeFrom]
  cons c cs := by
    rw [attributeFrom_cons]
    simp only [Bool.or_eq_true, Bool.and_eq_true, Bool.not_eq_true', beq_iff_eq, List.cons.injEq]
    split
    · simp
    · next hquote => grind

/-! ### Forms with parentheses -/

/-- Between the braces of a text node: no brace, but a parenthesis. -/
structure IsNodeText (inner : List Char) : Prop where
  opening_not_mem : '\x7b' ∉ inner
  closing_not_mem : '\x7d' ∉ inner
  parenthesis : '(' ∈ inner ∨ ')' ∈ inner

/-- The name of an attribute, as far as parentheses matter: at least one character, and no brackets
or parentheses. -/
structure IsSetName (name : List Char) : Prop where
  ne_nil : name ≠ []
  not_isBracket : ∀ c ∈ name, c ∉ ['[', ']', '(', ')']

/-- The forms in which an abbreviation has parentheses, at the front of a text. -/
inductive PlacesParenthesis : List Char → Prop where
  /-- In a text node, at the end of the text or with an operator behind it. -/
  | node {inner after : List Char} (hinner : IsNodeText inner)
      (hafter : ∀ op ∈ after.head?, IsOperator op) :
      PlacesParenthesis ('\x7b' :: (inner ++ '\x7d' :: after))
  /-- Around a group with an operator behind it. -/
  | groupBefore {inner after : List Char} {op : Char} (hinner : '\n' ∉ inner)
      (hop : IsOperator op) : PlacesParenthesis ('(' :: (inner ++ ')' :: op :: after))
  /-- Around a group with an operator in front of it. -/
  | groupAfter {inner after : List Char} {op : Char} (hop : IsOperator op)
      (hinner : '\n' ∉ inner) : PlacesParenthesis (op :: '(' :: (inner ++ ')' :: after))
  /-- In an attribute set with a value in quotation marks. -/
  | quoted {name value after : List Char} (hname : IsSetName name) (hvalue : '\n' ∉ value) :
      PlacesParenthesis ('[' :: (name ++ '=' :: '"' :: (value ++ '"' :: ']' :: after)))

/-- A character that is no brace. -/
def isNodeChar (c : Char) : Bool := !(c == '\x7b' || c == '\x7d')

theorem textNodeWithParenthesis_cons (cs : List Char) : textNodeWithParenthesis ('\x7b' :: cs) =
    match cs.dropWhile isNodeChar with
    | '\x7d' :: after => (cs.takeWhile isNodeChar).any (fun c => c == '(' || c == ')') &&
        (after.isEmpty || startsWithOperator after)
    | _ => false := rfl

theorem isNodeText_iff {inner : List Char} : IsNodeText inner ↔
    (∀ c ∈ inner, isNodeChar c = true) ∧ inner.any (fun c => c == '(' || c == ')') = true := by
  constructor
  · rintro ⟨hopening, hclosing, hparenthesis⟩
    refine ⟨fun c hc => ?_, ?_⟩
    · simp [isNodeChar, ne_of_mem_of_not_mem hc hopening, ne_of_mem_of_not_mem hc hclosing]
    · rcases hparenthesis with hc | hc
      · exact List.any_eq_true.2 ⟨_, hc, rfl⟩
      · exact List.any_eq_true.2 ⟨_, hc, rfl⟩
  · rintro ⟨hchars, hany⟩
    refine ⟨fun hc => absurd (hchars _ hc) (by decide), fun hc => absurd (hchars _ hc) (by decide),
      ?_⟩
    obtain ⟨c, hc, hparenthesis⟩ := List.any_eq_true.1 hany
    simp only [Bool.or_eq_true, beq_iff_eq] at hparenthesis
    rcases hparenthesis with rfl | rfl
    · exact .inl hc
    · exact .inr hc

theorem isEmpty_or_startsWithOperator_iff : (cs.isEmpty || startsWithOperator cs) = true ↔
    ∀ op ∈ cs.head?, IsOperator op := by
  cases cs with
  | nil => simp
  | cons c cs => simp [startsWithOperator, isGroupOperator_iff]

theorem textNodeWithParenthesis_iff : textNodeWithParenthesis cs = true ↔
    ∃ inner after, cs = '\x7b' :: (inner ++ '\x7d' :: after) ∧ IsNodeText inner ∧
      ∀ op ∈ after.head?, IsOperator op := by
  constructor
  · intro h
    unfold textNodeWithParenthesis at h
    split at h
    · next cs =>
      have htext : textNodeWithParenthesis ('\x7b' :: cs) = true := h
      rw [textNodeWithParenthesis_cons] at htext
      split at htext
      · next after hdrop =>
        obtain ⟨hany, hafter⟩ := Bool.and_eq_true_iff.1 htext
        refine ⟨cs.takeWhile isNodeChar, after, ?_, isNodeText_iff.2 ⟨?_, hany⟩,
          isEmpty_or_startsWithOperator_iff.1 hafter⟩
        · rw [← hdrop, List.takeWhile_append_dropWhile]
        · exact fun c hc => List.mem_takeWhile_imp hc
      · cases htext
    · cases h
  · rintro ⟨inner, after, rfl, hinner, hafter⟩
    obtain ⟨hchars, hany⟩ := isNodeText_iff.1 hinner
    have hbrace : ¬ isNodeChar '\x7d' = true := by decide
    rw [textNodeWithParenthesis_cons, List.dropWhile_append_of_pos hchars,
      List.dropWhile_cons_of_neg hbrace, List.takeWhile_append_of_pos hchars,
      List.takeWhile_cons_of_neg hbrace, List.append_nil]
    simp only [hany, Bool.true_and]
    exact isEmpty_or_startsWithOperator_iff.2 hafter

theorem forall_inLine_iff : (∀ c ∈ cs, InLine c) ↔ '\n' ∉ cs := by
  simp only [InLine, ne_eq]
  exact ⟨fun h hmem => h _ hmem rfl, fun h c hc heq => h (heq ▸ hc)⟩

theorem groupBeforeOperator_iff : groupBeforeOperator cs = true ↔
    ∃ inner op after, cs = '(' :: (inner ++ ')' :: op :: after) ∧ '\n' ∉ inner ∧ IsOperator op := by
  unfold groupBeforeOperator
  split
  · next cs =>
    rw [searches_closesBeforeOperator.eq_true_iff]
    simp only [forall_inLine_iff, List.cons.injEq, true_and]
    constructor
    · rintro ⟨inner, -, rfl, hinner, op, after, rfl, hop⟩
      exact ⟨inner, op, after, rfl, hinner, hop⟩
    · rintro ⟨inner, op, after, rfl, hinner, hop⟩
      exact ⟨inner, _, rfl, hinner, op, after, rfl, hop⟩
  · next hcs =>
    refine iff_of_false Bool.false_ne_true ?_
    rintro ⟨inner, op, after, rfl, -⟩
    exact hcs _ rfl

theorem groupAfterOperator_iff : groupAfterOperator cs = true ↔
    ∃ op inner after, cs = op :: '(' :: (inner ++ ')' :: after) ∧ IsOperator op ∧ '\n' ∉ inner := by
  unfold groupAfterOperator
  split
  · next op cs =>
    rw [Bool.and_eq_true, isGroupOperator_iff, searches_closes.eq_true_iff]
    simp only [forall_inLine_iff, List.cons.injEq, true_and]
    constructor
    · rintro ⟨hop, inner, -, rfl, hinner, after, rfl⟩
      exact ⟨op, inner, after, ⟨rfl, rfl⟩, hop, hinner⟩
    · rintro ⟨op, inner, after, ⟨rfl, rfl⟩, hop, hinner⟩
      exact ⟨hop, inner, _, rfl, hinner, after, rfl⟩
  · next hcs =>
    refine iff_of_false Bool.false_ne_true ?_
    rintro ⟨op, inner, after, rfl, -⟩
    exact hcs _ _ rfl

theorem isGroupBracket_eq_false_iff :
    isGroupBracket c = false ↔ c ∉ ['[', ']', '(', ')'] := by
  simp [isGroupBracket, and_assoc]

theorem attributeFrom_false_iff : attributeFrom false cs = true ↔
    ∃ name behind, cs = name ++ '=' :: '"' :: behind ∧ IsSetName name ∧
      closesAttribute behind = true := by
  cases cs with
  | nil => simp [attributeFrom]
  | cons c cs =>
    have hfirst : attributeFrom false (c :: cs) = (!isGroupBracket c && attributeFrom true cs) :=
      rfl
    rw [hfirst, Bool.and_eq_true, Bool.not_eq_true', searches_attributeFrom.eq_true_iff]
    simp only [isGroupBracket_eq_false_iff]
    constructor
    · rintro ⟨hc, name, -, rfl, hname, behind, rfl, hclose⟩
      exact ⟨c :: name, behind, rfl,
        ⟨List.cons_ne_nil c name, List.forall_mem_cons.2 ⟨hc, hname⟩⟩, hclose⟩
    · rintro ⟨name, behind, hcs, ⟨hne, hname⟩, hclose⟩
      obtain ⟨d, name, rfl⟩ := List.exists_cons_of_ne_nil hne
      obtain ⟨rfl, rfl⟩ := List.cons.inj hcs
      obtain ⟨hc, hname⟩ := List.forall_mem_cons.1 hname
      exact ⟨hc, name, _, rfl, hname, behind, rfl, hclose⟩

theorem quotedAttribute_iff : quotedAttribute cs = true ↔
    ∃ name value after, cs = '[' :: (name ++ '=' :: '"' :: (value ++ '"' :: ']' :: after)) ∧
      IsSetName name ∧ '\n' ∉ value := by
  unfold quotedAttribute
  split
  · next cs =>
    rw [attributeFrom_false_iff]
    simp only [searches_closesAttribute.eq_true_iff, forall_inLine_iff, List.cons.injEq, true_and]
    constructor
    · rintro ⟨name, -, rfl, hname, value, -, rfl, hvalue, after, rfl⟩
      exact ⟨name, value, after, rfl, hname, hvalue⟩
    · rintro ⟨name, value, after, rfl, hname, hvalue⟩
      exact ⟨name, _, rfl, hname, value, _, rfl, hvalue, after, rfl⟩
  · next hcs =>
    refine iff_of_false Bool.false_ne_true ?_
    rintro ⟨name, value, after, rfl, -⟩
    exact hcs _ rfl

/-- Each form is what one of the searches looks for. -/
theorem placesParenthesis_iff : PlacesParenthesis cs ↔
    textNodeWithParenthesis cs = true ∨ groupBeforeOperator cs = true ∨
      quotedAttribute cs = true ∨ groupAfterOperator cs = true := by
  rw [textNodeWithParenthesis_iff, groupBeforeOperator_iff, quotedAttribute_iff,
    groupAfterOperator_iff]
  constructor
  · intro h
    cases h with
    | node hinner hafter => exact .inl ⟨_, _, rfl, hinner, hafter⟩
    | groupBefore hinner hop => exact .inr (.inl ⟨_, _, _, rfl, hinner, hop⟩)
    | groupAfter hop hinner => exact .inr (.inr (.inr ⟨_, _, _, rfl, hop, hinner⟩))
    | quoted hname hvalue => exact .inr (.inr (.inl ⟨_, _, _, rfl, hname, hvalue⟩))
  · rintro (⟨inner, after, rfl, hinner, hafter⟩ | ⟨inner, op, after, rfl, hinner, hop⟩ |
      ⟨name, value, after, rfl, hname, hvalue⟩ | ⟨op, inner, after, rfl, hop, hinner⟩)
    · exact .node hinner hafter
    · exact .groupBefore hinner hop
    · exact .quoted hname hvalue
    · exact .groupAfter hop hinner

/-- Somewhere in a text a parenthesis is in order. -/
def HasPlacedParenthesis (cs : List Char) : Prop :=
  ∃ before rest, cs = before ++ rest ∧ PlacesParenthesis rest

/-- The searches find the forms wherever they stand. -/
theorem hasPlacedParenthesis_iff : HasPlacedParenthesis cs ↔
    (anyTail textNodeWithParenthesis cs || anyTail groupBeforeOperator cs ||
      anyTail quotedAttribute cs || anyTail groupAfterOperator cs) = true := by
  simp only [HasPlacedParenthesis, placesParenthesis_iff, Bool.or_eq_true,
    (searches_anyTail _).eq_true_iff, implies_true, true_and, and_or_left, exists_or, or_assoc]

/-! ### What the rules of markup decide -/

/-- An abbreviation for a document type: exclamation marks, at least one. -/
structure IsDoctype (cs : List Char) : Prop where
  ne_nil : cs ≠ []
  eq_bang : ∀ c ∈ cs, c = '!'

/-- An abbreviation of elements: it starts like one, has a letter or a class, and if it has
parentheses, one of them is in order. -/
structure IsElement (cs : List Char) : Prop where
  bang_not_mem : '!' ∉ cs
  start : ∃ c ∈ cs.head?, c.isAlpha = true ∨ c ∈ ['(', '[', '#', '.']
  word : ∃ c ∈ cs, c.isAlpha = true ∨ c = '.'
  parentheses : ('(' ∉ cs ∧ ')' ∉ cs) ∨ HasPlacedParenthesis cs

/-- Some parenthesis is in order, if there is any. -/
def isGrouped (cs : List Char) : Bool :=
  !(cs.contains '(' || cs.contains ')') || (anyTail textNodeWithParenthesis cs ||
    anyTail groupBeforeOperator cs || anyTail quotedAttribute cs || anyTail groupAfterOperator cs)

theorem isGrouped_iff :
    isGrouped cs = true ↔ ('(' ∉ cs ∧ ')' ∉ cs) ∨ HasPlacedParenthesis cs := by
  rw [isGrouped, Bool.or_eq_true, ← hasPlacedParenthesis_iff]
  simp

theorem grouping_check (cs : List Char) : grouping.check cs = refuseIf !(isGrouped cs) := by
  unfold grouping isGrouped
  simp only
  split
  · next h => rw [h, Bool.not_true, Bool.false_or]
  · next h =>
    rw [Bool.not_eq_true] at h
    rw [h]
    rfl

/-- Without an exclamation mark, the other three rules have to agree. -/
theorem valid_iff_of_not_mem (hbang : '!' ∉ cs) :
    (decideBy .markup cs).valid = true ↔ IsElement cs := by
  cases cs with
  | nil =>
    refine iff_of_false Bool.false_ne_true fun h => ?_
    obtain ⟨c, hc, -⟩ := h.start
    cases hc
  | cons c cs =>
    have hdoctype : doctypeBang.check (c :: cs) = .pass :=
      if_neg (by simpa using hbang)
    have hstart : markupStart.check (c :: cs) =
      refuseIf !(c.isAlpha || ['!', '(', '[', '#', '.'].contains c) := rfl
    have hword : hasWord.check (c :: cs) =
      acceptIff ((c :: cs).any fun c => c.isAlpha || c == '.') := rfl
    rw [decideBy, if_neg (List.cons_ne_nil c cs), rules, firstDecision_pass hdoctype,
      firstDecision_refuseIf (grouping_check _), firstDecision_refuseIf hstart,
      firstDecision_acceptIff hword, Bool.not_not, Bool.not_not, Bool.and_eq_true,
      Bool.and_eq_true, isGrouped_iff]
    have hc : c ≠ '!' := by
      rintro rfl
      exact hbang List.mem_cons_self
    constructor
    · rintro ⟨hgrouped, hstart, hword⟩
      refine ⟨hbang, ⟨c, rfl, ?_⟩, ?_, hgrouped⟩
      · simpa [hc] using hstart
      · simpa using hword
    · rintro ⟨-, ⟨d, hd, hstart⟩, hword, hgrouped⟩
      obtain rfl := Option.some.inj hd
      refine ⟨hgrouped, ?_, ?_⟩
      · simpa [hc] using hstart
      · simpa using hword

/-- With an exclamation mark, only the first rule is asked. -/
theorem valid_iff_of_mem (hbang : '!' ∈ cs) :
    (decideBy .markup cs).valid = true ↔ IsDoctype cs := by
  have hdoctype : doctypeBang.check cs = acceptIff (cs.all (· == '!')) :=
    if_pos (List.contains_iff_mem.2 hbang)
  have hne : cs ≠ [] := List.ne_nil_of_mem hbang
  rw [decideBy, if_neg hne, rules, firstDecision_acceptIff hdoctype]
  simp only [List.all_eq_true, beq_iff_eq]
  exact ⟨fun h => ⟨hne, h⟩, fun h => h.eq_bang⟩

/-- **The rules of markup accept exactly this grammar**: exclamation marks for a document type, and
elements. -/
theorem decideBy_markup_valid_iff (cs : List Char) :
    (decideBy .markup cs).valid = true ↔ IsDoctype cs ∨ IsElement cs := by
  by_cases hbang : '!' ∈ cs
  · rw [valid_iff_of_mem hbang]
    exact (or_iff_left fun h => h.bang_not_mem hbang).symm
  · have hdoctype : ¬ IsDoctype cs := by
      rintro ⟨hne, hall⟩
      obtain ⟨c, cs, rfl⟩ := List.exists_cons_of_ne_nil hne
      obtain rfl := hall c List.mem_cons_self
      exact hbang List.mem_cons_self
    rw [valid_iff_of_not_mem hbang]
    exact (or_iff_right hdoctype).symm

/-- A group needs an operator beside it, and that may be any group of the text. -/
example : ["(a)", "(a)>b", "a>(b)(c", "p\x7b(\x7d", "p\x7b(\x7db", "a[b=\"(\"]"].map
    (fun s => (decideBy .markup s.toList).valid) = [false, true, true, true, false, true] := by
  decide

end Emmet.Abbreviation
