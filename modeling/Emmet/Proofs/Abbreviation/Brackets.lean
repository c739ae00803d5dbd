import Emmet.Proofs.Abbreviation.Nesting

/-!
# Matching brackets

A text is read from right to left, with the closing brackets that have not met their partner yet on
a stack. An opening bracket has to be the partner of the innermost of them. In a text node only
braces count, and in style sheets there are only parentheses.

* `Matched` and `Unclosed` : the grammar of texts in which all brackets match, and of texts in which
  given closing brackets have no partner;
* `unmatched` : the closing brackets that are left on the stack at the left end of the text;
* `unmatched_eq_some_iff` : they are those without a partner.
-/

namespace Emmet.Abbreviation

variable {f : Family} {pending pending' right inner text : List Char} {c opening closing : Char}

/-! ### The grammar -/

/-- A text in which all brackets of the family match. What stands in a text node is left alone. -/
inductive Matched (f : Family) : List Char → Prop where
  | nil : Matched f []
  | char {c : Char} {text : List Char} (hclose : closesGroup f c = false)
      (hopen : opensGroup f c = false) (htext : Matched f text) : Matched f (c :: text)
  | pair {opening closing : Char} {inner right : List Char} (hclose : closesGroup f closing = true)
      (hopen : opener? closing = some opening) (hnode : closing ≠ '\x7d')
      (hinner : Matched f inner) (hright : Matched f right) :
      Matched f (opening :: (inner ++ closing :: right))
  | node {inner right : List Char} (hclose : closesGroup f '\x7d' = true) (hinner : NodeText inner)
      (hright : Matched f right) : Matched f ('\x7b' :: (inner ++ '\x7d' :: right))

/-- What may stand left of a closing bracket, up to its partner if it has one. -/
inductive Inside (f : Family) : (closing : Char) → (inner : List Char) → Prop where
  | node {inner : List Char} (hinner : NodeText inner) : Inside f '\x7d' inner
  | text {closing : Char} {inner : List Char} (hnode : closing ≠ '\x7d')
      (hinner : Matched f inner) : Inside f closing inner

/-- A text in which just the closing brackets `pending` have no partner, from left to right. Left of
a brace without partner there is a text node, so there only braces can be without partner. -/
inductive Unclosed (f : Family) : (pending text : List Char) → Prop where
  | none {text : List Char} (htext : Matched f text) : Unclosed f [] text
  | closing {closing : Char} {pending inner right : List Char}
      (hclose : closesGroup f closing = true) (hnode : '\x7d' ∈ pending → closing = '\x7d')
      (hinner : Inside f closing inner) (hright : Unclosed f pending right) :
      Unclosed f (closing :: pending) (inner ++ closing :: right)

theorem Inside.nil (f : Family) (closing : Char) : Inside f closing [] := by
  by_cases hnode : closing = '\x7d'
  · exact hnode ▸ .node .nil
  · exact .text hnode .nil

theorem Inside.pair (hinner : Inside f closing inner) (hclose : closesGroup f closing = true)
    (hopen : opener? closing = some opening) (hright : Matched f right) :
    Matched f (opening :: (inner ++ closing :: right)) := by
  cases hinner with
  | node hinner =>
    obtain rfl := Option.some.inj (hopen : some '\x7b' = some opening)
    exact .node hclose hinner hright
  | text hnode hinner => exact .pair hclose hopen hnode hinner hright

/-- A closing bracket meets its partner, with other closing brackets right of it. -/
theorem Unclosed.pair (hright : Unclosed f pending right) (hinner : Inside f closing inner)
    (hclose : closesGroup f closing = true) (hopen : opener? closing = some opening)
    (hnode : '\x7d' ∈ pending → closing = '\x7d') :
    Unclosed f pending (opening :: (inner ++ closing :: right)) := by
  cases hright with
  | none hright => exact .none (hinner.pair hclose hopen hright)
  | @closing next pending inside right hclose' hnode' hinside hright =>
    rw [← List.cons_append, ← List.cons_append, ← List.append_assoc, List.cons_append]
    refine .closing hclose' hnode' ?_ hright
    cases hinside with
    | text hnext hinside => exact .text hnext (hinner.pair hclose hopen hinside)
    | node hinside =>
      -- in a text node the bracket that was met is a brace
      obtain rfl := hnode List.mem_cons_self
      obtain rfl := Option.some.inj (hopen : some '\x7b' = some opening)
      cases hinner with
      | node hinner => exact .node (.node hinner hinside)
      | text hne => exact absurd rfl hne

/-! ### Reading brackets -/

/-- Reads a character with the unmatched closing brackets right of it, innermost first; an opening
bracket that is not the partner of the innermost one is refused. -/
def readBracket (f : Family) (pending : List Char) (c : Char) : Option (List Char) :=
  if '\x7d' ∈ pending ∧ c ≠ '\x7b' then some (if c = '\x7d' then c :: pending else pending)
  else if closesGroup f c then some (c :: pending)
  else if opensGroup f c then
    match pending with
    | top :: pending => if opener? top = some c then some pending else none
    | [] => none
  else some pending

/-- Reads a reversed text after a text with the unmatched brackets `pending`. -/
def unmatchedFrom (f : Family) : (pending cs : List Char) → Option (List Char)
  | pending, [] => some pending
  | pending, c :: left => (readBracket f pending c).bind fun pending => unmatchedFrom f pending left

/-- The closing brackets of a text that stay unmatched, leftmost first; none if the text has an
opening bracket without a partner. -/
def unmatched (f : Family) (text : List Char) : Option (List Char) :=
  unmatchedFrom f [] text.reverse

theorem unmatchedFrom_append (f : Family) (pending cs ds : List Char) :
    unmatchedFrom f pending (cs ++ ds) =
      (unmatchedFrom f pending cs).bind fun pending => unmatchedFrom f pending ds := by
  induction cs generalizing pending with
  | nil => rfl
  | cons c cs ih =>
    rw [List.cons_append, unmatchedFrom, unmatchedFrom, Option.bind_assoc]
    exact congrArg _ (funext ih)

theorem unmatchedFrom_singleton (f : Family) (pending : List Char) (c : Char) :
    unmatchedFrom f pending [c] = readBracket f pending c := by
  rw [unmatchedFrom]
  cases readBracket f pending c <;> rfl

/-- A character that is no bracket changes nothing. -/
theorem readBracket_of_not_group (hclose : closesGroup f c = false) (hopen : opensGroup f c = false)
    (hnode : '\x7d' ∈ pending → c ≠ '\x7d') : readBracket f pending c = some pending := by
  unfold readBracket
  split
  · next h => rw [if_neg (hnode h.1)]
  · simp [hclose, hopen]

/-- A closing bracket waits for its partner; in a text node only braces do. -/
theorem readBracket_of_closesGroup (hclose : closesGroup f c = true)
    (hnode : '\x7d' ∈ pending → c = '\x7d') : readBracket f pending c = some (c :: pending) := by
  unfold readBracket
  by_cases hmem : '\x7d' ∈ pending ∧ c ≠ '\x7b'
  · rw [if_pos hmem, if_pos (hnode hmem.1)]
  · rw [if_neg hmem, if_pos hclose]

/-- The partner of a closing bracket opens a group. -/
theorem opensGroup_of_opener? (hclose : closesGroup f closing = true)
    (hopen : opener? closing = some opening) :
    closesGroup f opening = false ∧ opensGroup f opening = true := by
  simp only [closesGroup, Bool.or_eq_true, Bool.and_eq_true, beq_iff_eq] at hclose
  rcases hclose with rfl | ⟨rfl, rfl | rfl⟩
  · obtain rfl := Option.some.inj (hopen : some '(' = some opening)
    cases f <;> exact ⟨rfl, rfl⟩
  · obtain rfl := Option.some.inj (hopen : some '[' = some opening)
    exact ⟨rfl, rfl⟩
  · obtain rfl := Option.some.inj (hopen : some '\x7b' = some opening)
    exact ⟨rfl, rfl⟩

theorem readBracket_of_opener? (hclose : closesGroup f closing = true)
    (hopen : opener? closing = some opening) (hnode : '\x7d' ∈ pending → closing = '\x7d') :
    readBracket f (closing :: pending) opening = some pending := by
  obtain ⟨hnot, hopens⟩ := opensGroup_of_opener? hclose hopen
  have hbrace : ¬ ('\x7d' ∈ closing :: pending ∧ opening ≠ '\x7b') := by
    rintro ⟨hmem, hne⟩
    obtain rfl : closing = '\x7d' := (List.mem_cons.1 hmem).elim Eq.symm hnode
    exact hne (Option.some.inj hopen).symm
  rw [readBracket, if_neg hbrace, if_neg (by simp [hnot]), if_pos hopens]
  exact if_pos hopen

/-! ### What is read follows the grammar -/

theorem Unclosed.all_close (h : Unclosed f pending text) :
    ∀ c ∈ pending, closesGroup f c = true := by
  induction h with
  | none _ => simp
  | closing hclose _ _ _ ih => exact List.forall_mem_cons.2 ⟨hclose, ih⟩

theorem Unclosed.char (h : Unclosed f pending text)
    (hclose : closesGroup f c = false) (hopen : opensGroup f c = false)
    (hnode : '\x7d' ∉ pending) : Unclosed f pending (c :: text) := by
  cases h with
  | none htext => exact .none (.char hclose hopen htext)
  | closing hclosing hinside hinner hright =>
    rw [← List.cons_append]
    refine .closing hclosing hinside ?_ hright
    cases hinner with
    | node _ => exact absurd List.mem_cons_self hnode
    | text hne hinner => exact .text hne (.char hclose hopen hinner)

theorem Unclosed.char_node (h : Unclosed f pending text) (hnode : '\x7d' ∈ pending)
    (hopen : c ≠ '\x7b') (hclose : c ≠ '\x7d') : Unclosed f pending (c :: text) := by
  cases h with
  | none _ => cases hnode
  | @closing closing _ _ _ hclosing hinside hinner hright =>
    obtain rfl : closing = '\x7d' := (List.mem_cons.1 hnode).elim Eq.symm hinside
    rw [← List.cons_append]
    refine .closing hclosing hinside ?_ hright
    cases hinner with
    | node hinner => exact .node (.char hopen hclose hinner)
    | text hne => exact absurd rfl hne

theorem Unclosed.close (h : Unclosed f pending text) (hclose : closesGroup f c = true)
    (hnode : '\x7d' ∈ pending → c = '\x7d') : Unclosed f (c :: pending) (c :: text) :=
  show Unclosed f (c :: pending) ([] ++ c :: text) from .closing hclose hnode (.nil f c) h

/-- One more character is read left of a text. -/
theorem Unclosed.cons (h : Unclosed f pending text)
    (hread : readBracket f pending c = some pending') : Unclosed f pending' (c :: text) := by
  unfold readBracket at hread
  split at hread
  · next hnode =>
    obtain rfl := Option.some.inj hread
    split
    · next hbrace => exact h.close (hbrace ▸ h.all_close _ hnode.1) fun _ => hbrace
    · next hbrace => exact h.char_node hnode.1 hnode.2 hbrace
  next hnode =>
  split at hread
  · next hclose =>
    obtain rfl := Option.some.inj hread
    refine h.close hclose fun hmem => absurd ⟨hmem, ?_⟩ hnode
    rintro rfl
    cases f <;> cases hclose
  next hclose =>
  split at hread
  · cases h with
    | none _ => cases hread
    | @closing closing _ _ _ hclosing hinside hinner hright =>
      dsimp only at hread
      split at hread
      · next hopen =>
        obtain rfl := Option.some.inj hread
        exact hright.pair hinner hclosing hopen hinside
      · cases hread
  next hopen =>
  obtain rfl := Option.some.inj hread
  refine h.char (by simpa using hclose) (by simpa using hopen) fun hmem => ?_
  -- left of a brace that waits for its partner, only an opening brace comes here
  obtain rfl : c = '\x7b' := by simpa [hmem] using hnode
  exact hopen (opensGroup_of_opener? (h.all_close _ hmem) rfl).2

theorem unmatched_cons (f : Family) (c : Char) (text : List Char) :
    unmatched f (c :: text) =
      (unmatched f text).bind fun pending => readBracket f pending c := by
  rw [unmatched, List.reverse_cons, unmatchedFrom_append]
  simp only [unmatchedFrom_singleton]
  rfl

/-! ### The grammar is read -/

theorem unmatchedFrom_pair (hclose : closesGroup f closing = true)
    (hopen : opener? closing = some opening) (hnode : '\x7d' ∈ pending → closing = '\x7d')
    (hinner : unmatchedFrom f (closing :: pending) inner.reverse = some (closing :: pending))
    (hright : unmatchedFrom f pending right.reverse = some pending) :
    unmatchedFrom f pending (opening :: (inner ++ closing :: right)).reverse = some pending := by
  simp [unmatchedFrom_append, unmatchedFrom, hright, hinner,
    readBracket_of_closesGroup hclose hnode, readBracket_of_opener? hclose hopen hnode]

theorem unmatchedFrom_nodeText (hclose : closesGroup f '\x7d' = true) (h : NodeText text) :
    ∀ {pending}, '\x7d' ∈ pending → unmatchedFrom f pending text.reverse = some pending := by
  induction h with
  | nil => exact fun _ => rfl
  | @char c t hopen hclose' _ ih =>
    intro pending hnode
    have hread : readBracket f pending c = some pending := by
      unfold readBracket
      rw [if_pos ⟨hnode, hopen⟩, if_neg hclose']
    rw [List.reverse_cons, unmatchedFrom_append, ih hnode, Option.bind_some,
      unmatchedFrom_singleton, hread]
  | node _ _ ihinner ihright =>
    intro pending hnode
    exact unmatchedFrom_pair hclose rfl (fun _ => rfl) (ihinner List.mem_cons_self) (ihright hnode)

theorem unmatchedFrom_matched (h : Matched f text) :
    ∀ {pending}, '\x7d' ∉ pending → unmatchedFrom f pending text.reverse = some pending := by
  induction h with
  | nil => exact fun _ => rfl
  | char hclose hopen _ ih =>
    intro pending hnode
    rw [List.reverse_cons, unmatchedFrom_append, ih hnode, Option.bind_some,
      unmatchedFrom_singleton, readBracket_of_not_group hclose hopen fun h => absurd h hnode]
  | pair hclose hopen hne _ _ ihinner ihright =>
    intro pending hnode
    refine unmatchedFrom_pair hclose hopen (fun h => absurd h hnode) (ihinner ?_) (ihright hnode)
    simp [hne.symm, hnode]
  | node hclose hinner _ ihright =>
    intro pending hnode
    exact unmatchedFrom_pair hclose rfl (fun _ => rfl)
      (unmatchedFrom_nodeText hclose hinner List.mem_cons_self) (ihright hnode)

theorem unmatchedFrom_inside (hclose : closesGroup f closing = true)
    (hnode : '\x7d' ∈ pending → closing = '\x7d') (h : Inside f closing inner) :
    unmatchedFrom f (closing :: pending) inner.reverse = some (closing :: pending) := by
  cases h with
  | node hinner => exact unmatchedFrom_nodeText hclose hinner List.mem_cons_self
  | text hne hinner =>
    refine unmatchedFrom_matched hinner ?_
    simpa [hne.symm] using mt hnode hne

/-- **The closing brackets that reading leaves unmatched are those without a partner.** -/
theorem unmatched_eq_some_iff : unmatched f text = some pending ↔ Unclosed f pending text := by
  constructor
  · intro h
    induction text generalizing pending with
    | nil =>
      obtain rfl := Option.some.inj (h : some [] = some pending)
      exact .none .nil
    | cons c text ih =>
      rw [unmatched_cons] at h
      obtain ⟨_, htext, hread⟩ := Option.bind_eq_some_iff.1 h
      exact (ih htext).cons hread
  · intro h
    induction h with
    | none htext => exact unmatchedFrom_matched htext List.not_mem_nil
    | closing hclose hnode hinner _ ih =>
      rw [unmatched, List.reverse_append, List.reverse_cons, unmatchedFrom_append,
        unmatchedFrom_append, ← unmatched, ih, Option.bind_some, unmatchedFrom_singleton,
        readBracket_of_closesGroup hclose hnode, Option.bind_some,
        unmatchedFrom_inside hclose hnode hinner]

/-- No closing bracket is left unmatched just in the texts in which all brackets match. -/
theorem unmatched_eq_nil_iff : unmatched f text = some [] ↔ Matched f text := by
  rw [unmatched_eq_some_iff]
  constructor
  · rintro ⟨htext⟩
    exact htext
  · exact .none

-- In the text node the round bracket does not count, left of it the square one does.
example : unmatched .markup "a](b{)}c)".toList = some [']'] := by decide

end Emmet.Abbreviation
