import Emmet.Proofs.Offset.Located

/-!
# A scanner that moves to the left

The end of a tag can be looked for by one scanner that is moved over the bytes of a line. What does
not go on as it should is undone: the scanner is put back where it stood. This file says how, keeps
every offset at which the scanner stands in a trail, and shows that nothing goes on without moving
the scanner to the left, so the search ends.

* `Scanner`, `Scan` : a scanner with its trail, and what moves it;
* `Scanner.turn`, `Scanner.loop`, `Scanner.endsTag` : one turn of the search, at most so many turns,
  and the whole search;
* `Moves` : what a computation answers, where the scanner stands then, and that it has never stood
  right of a bound;
* `Tries` : the scanner is moved as the reading by offsets says, or it stands where it stood;
* `endsTag_progress` : every turn ends the search or moves the scanner to the left, so there are no
  more turns than bytes, and in the end the scanner stands where it stood.
-/

namespace Emmet.Checked

open Abbreviation Text

/-- A scanner: the offset at which it stands, and the offsets to which it was moved, last first. -/
structure Scanner where
  pos : Nat
  trail : List Nat

/-- What moves a scanner. -/
abbrev Scan (α : Type) := StateT Scanner Checked α

namespace Scanner

/-- The scanner at another offset. -/
def moveTo (pos : Nat) (k : Scanner) : Scanner := ⟨pos, pos :: k.trail⟩

/-- The offset at which the scanner stands. -/
def place : Scan Nat := do return (← get).pos

/-- Puts the scanner to an offset. -/
def goTo (pos : Nat) : Scan Unit := modify (moveTo pos)

/-- Moves the scanner by one byte. -/
def stepLeft : Scan Unit := do
  let ⟨left, _⟩ ← retreat (← place)
  goTo left

/-- Puts the scanner back where it stood unless all goes on as it should. -/
def orBack (x : Scan Bool) : Scan Bool := do
  let start ← place
  if ← x then return true
  goTo start
  return false

variable (text : List Char)

/-- The byte left of the scanner. -/
def look : Scan (Option Char) := do peek text (← place)

/-- Moves over the byte left of the scanner, if there is one. -/
def previous : Scan (Option Char) := do
  match ← look text with
  | some b =>
    stepLeft
    return some b
  | none => return none

/-- Moves over the byte left of the scanner if it is of a class. -/
def take (p : Char → Bool) : Scan Bool := do
  match ← look text with
  | some b =>
    if p b then
      stepLeft
      return true
    else return false
  | none => return false

/-- Moves to the left. For every byte `next` gives the next state and says whether the byte is
passed. -/
def back {σ : Type} (next : σ → Nat → Char → Checked (σ × Bool)) (s : σ) (k : Scanner) :
    Checked (σ × Scanner) := do
  match ← peek text k.pos with
  | none => return (s, k)
  | some b =>
    let (s, passed) ← next s k.pos b
    if passed then
      let ⟨left, _⟩ ← retreat k.pos
      back next s (k.moveTo left)
    else return (s, k)
  termination_by k.pos

/-- Moves over all bytes of a class. -/
def takeWhile (p : Char → Bool) : Scan Unit := back text (fun _ _ b => .ok ((), p b)) ()

/-- Moves over a name. -/
def name : Scan Bool := do
  let start ← place
  takeWhile text isNameChar
  return (← place) ≠ start

/-- Moves to the left of the quotation mark that opens a text. -/
def toOpening (quote : Char) (k : Scanner) : Checked (Bool × Scanner) := do
  match ← peek text k.pos with
  | none => return (false, k)
  | some b =>
    let ⟨left, _⟩ ← retreat k.pos
    if b = quote ∧ (← peek text left) ≠ some '\\' then return (true, k.moveTo left)
    else toOpening quote (k.moveTo left)
  termination_by k.pos

/-- Moves over a text in quotation marks. -/
def quoted : Scan Bool := orBack do
  match ← previous text with
  | some b => if isQuote b then toOpening text b else return false
  | none => return false

/-- Moves over an attribute whose value is in quotation marks. -/
def quotedAttribute : Scan Bool := orBack (quoted text <&&> take text (· == '=') <&&> name text)

/-- Moves over an attribute whose value has no quotation marks. -/
def bareAttribute : Scan Bool := orBack do
  let start ← place
  let _ ← back text bareValueStep []
  if (← place) = start then return false
  take text (· == '=') <&&> name text

/-- What stands left of a name: the opening of the tag, or the name is an attribute or the value of
one. It answers if the search ends with it. -/
def afterName : Scan (Option Bool) := do
  if ← take text (· == '/') then return some (← take text (· == '<'))
  else if ← take text (· == '<') then return some true
  else if ← take text isAsciiBlank then return none
  else if ← take text (· == '=') then
    if ← name text then return none else return some false
  else if ← bareAttribute text then return some true
  else return some false

/-- One turn of the search for the opening of a tag: blanks, and an attribute or the opening. It
answers if the search ends with it. -/
def turn : Scan (Option Bool) := do
  takeWhile text isAsciiBlank
  if ← name text then afterName text
  else if ← quotedAttribute text <||> bareAttribute text then return none
  else return some false

/-- At most so many turns. There is no answer if the search does not end with them. -/
def loop : (limit : Nat) → Scan (Option Bool)
  | 0 => do return if (← place) = 0 then some false else none
  | limit + 1 => do
    if (← place) = 0 then return some false
    match ← turn text with
    | some answer => return some answer
    | none => loop limit

/-- Whether a tag ends where the scanner stands, looked for with at most so many turns. -/
def endsTag (limit : Nat) : Scan (Option Bool) := do
  let start ← place
  if !(← take text (· == '>')) then return some false
  let _ ← take text (· == '/')
  let answer ← loop text limit
  goTo start
  return answer

/-! ### Where a scanner is moved -/

/-- From an offset a computation answers `a` and leaves the scanner at another one. It never moves
the scanner right of a bound. -/
def Moves {α : Type} (bound : Nat) (x : Scan α) (pos : Nat) (a : α) (left : Nat) : Prop :=
  left ≤ bound ∧ ∀ trail, ∃ way, x ⟨pos, trail⟩ = .ok (a, ⟨left, way ++ trail⟩) ∧
    ∀ p ∈ way, p ≤ bound

/-- From an offset a part of the text is read: up to another offset, or the scanner stands where it
stood. -/
def Tries (bound : Nat) (x : Scan Bool) (pos : Nat) : Option Nat → Prop
  | some left => Moves bound x pos true left
  | none => Moves bound x pos false pos

/-- From an offset a part of the text is read: up to another offset, or the scanner stands
anywhere. -/
def Attempts (bound : Nat) (x : Scan Bool) (pos : Nat) : Option Nat → Prop
  | some left => Moves bound x pos true left
  | none => ∃ left, Moves bound x pos false left

variable {text} {α β : Type} {bound pos left middle : Nat} {r : Option Nat}

theorem Moves.pure (a : α) (hpos : pos ≤ bound) : Moves bound (Pure.pure a) pos a pos :=
  ⟨hpos, fun _ => ⟨[], rfl, nofun⟩⟩

theorem Moves.bind {x : Scan α} {f : α → Scan β} {a : α} {b : β}
    (hx : Moves bound x pos a middle) (hf : Moves bound (f a) middle b left) :
    Moves bound (x >>= f) pos b left := by
  refine ⟨hf.1, fun trail => ?_⟩
  obtain ⟨way, hrun, hway⟩ := hx.2 trail
  obtain ⟨way', hrun', hway'⟩ := hf.2 (way ++ trail)
  refine ⟨way' ++ way, ?_, fun p hp => (List.mem_append.1 hp).elim (hway' p) (hway p)⟩
  have hbind : (x >>= f) ⟨pos, trail⟩ = x ⟨pos, trail⟩ >>= fun r => f r.1 r.2 := rfl
  rw [hbind, hrun, ok_bind, hrun', List.append_assoc]

theorem Moves.congr {x y : Scan α} {a : α} (h : Moves bound y pos a left)
    (hrun : ∀ trail, x ⟨pos, trail⟩ = y ⟨pos, trail⟩) : Moves bound x pos a left :=
  ⟨h.1, fun trail => hrun trail ▸ h.2 trail⟩

/-- The scanner may be moved first. -/
theorem Moves.of_moveTo {x y : Scan α} {a : α} (h : Moves bound y middle a left)
    (hmiddle : middle ≤ bound) (hrun : ∀ trail, x ⟨pos, trail⟩ = y ⟨middle, middle :: trail⟩) :
    Moves bound x pos a left := by
  refine ⟨h.1, fun trail => ?_⟩
  obtain ⟨way, hy, hway⟩ := h.2 (middle :: trail)
  refine ⟨way ++ [middle], ?_, ?_⟩
  · rw [hrun, hy, List.append_assoc, List.singleton_append]
  · exact List.forall_mem_append.2 ⟨hway, List.forall_mem_singleton.2 hmiddle⟩

theorem moves_place (hpos : pos ≤ bound) : Moves bound place pos pos pos :=
  ⟨hpos, fun _ => ⟨[], rfl, nofun⟩⟩

theorem moves_goTo (hleft : left ≤ bound) : Moves bound (goTo left) pos () left :=
  ⟨hleft, fun _ => ⟨[left], rfl, List.forall_mem_singleton.2 hleft⟩⟩

theorem moves_stepLeft (hpos : pos + 1 ≤ bound) : Moves bound stepLeft (pos + 1) () pos :=
  (moves_place hpos).bind (moves_goTo (Nat.le_of_succ_le hpos))

theorem moves_look {b : Option Char} (h : peek text pos = .ok b) (hpos : pos ≤ bound) :
    Moves bound (look text) pos b pos := by
  refine ⟨hpos, fun trail => ⟨[], ?_, nofun⟩⟩
  have hlook : look text ⟨pos, trail⟩ = peek text pos >>= fun b => .ok (b, ⟨pos, trail⟩) := rfl
  rw [hlook, h]
  rfl

/-- Only behind a byte there is one to look at. -/
theorem exists_eq_succ_of_peek {b : Char} (h : peek text pos = .ok (some b)) :
    ∃ n, pos = n + 1 := by
  cases pos with
  | zero => cases h
  | succ n => exact ⟨n, rfl⟩

/-! ### Reading what can be read -/

theorem Tries.attempts {x : Scan Bool} (h : Tries bound x pos r) : Attempts bound x pos r := by
  cases r with
  | none => exact ⟨pos, h⟩
  | some left => exact h

theorem Attempts.orBack {x : Scan Bool} (h : Attempts bound x pos r) (hpos : pos ≤ bound) :
    Tries bound (orBack x) pos r := by
  cases r with
  | none =>
    obtain ⟨left, h⟩ := h
    exact (moves_place hpos).bind (h.bind ((moves_goTo hpos).bind (.pure false hpos)))
  | some left => exact (moves_place hpos).bind (h.bind (.pure true h.1))

theorem Attempts.after {x : Scan α} {f : α → Scan Bool} {a : α}
    (hx : Moves bound x pos a middle) (hf : Attempts bound (f a) middle r) :
    Attempts bound (x >>= f) pos r := by
  cases r with
  | none =>
    obtain ⟨left, hf⟩ := hf
    exact ⟨left, hx.bind hf⟩
  | some left => exact Moves.bind hx hf

theorem Attempts.of_moveTo {x y : Scan Bool} (h : Attempts bound y middle r)
    (hmiddle : middle ≤ bound) (hrun : ∀ trail, x ⟨pos, trail⟩ = y ⟨middle, middle :: trail⟩) :
    Attempts bound x pos r := by
  cases r with
  | none =>
    obtain ⟨left, h⟩ := h
    exact ⟨left, h.of_moveTo hmiddle hrun⟩
  | some left => exact Moves.of_moveTo h hmiddle hrun

theorem Moves.andM_true {x y : Scan Bool} (hx : Moves bound x pos true middle)
    (hy : Attempts bound y middle r) : Attempts bound (x <&&> y) pos r :=
  Attempts.after hx hy

theorem Moves.andM_false {x : Scan Bool} (hx : Moves bound x pos false left) (y : Scan Bool) :
    Attempts bound (x <&&> y) pos none := ⟨left, hx.bind (.pure false hx.1)⟩

theorem tries_take {p : Char → Bool} (h : consume text p pos = .ok r) (hpos : pos ≤ bound) :
    Tries bound (take text p) pos r := by
  obtain ⟨b, hpeek, h⟩ := exists_of_bind h
  have hlook := moves_look hpeek hpos
  cases b with
  | none =>
    obtain rfl := Except.ok.inj h
    exact hlook.bind (.pure false hpos)
  | some b =>
    obtain ⟨n, rfl⟩ := exists_eq_succ_of_peek hpeek
    cases hp : p b with
    | false =>
      simp only [hp, Bool.false_eq_true, if_false, pure_eq_ok, Except.ok.injEq] at h
      subst h
      refine hlook.bind ?_
      simp only [hp, Bool.false_eq_true, if_false]
      exact .pure false hpos
    | true =>
      simp only [hp, if_true, retreat_succ, ok_bind, pure_eq_ok, Except.ok.injEq] at h
      subst h
      refine hlook.bind ?_
      simp only [hp, if_true]
      exact (moves_stepLeft hpos).bind (.pure true (Nat.le_of_succ_le hpos))

theorem moves_back {σ : Type} {next : σ → Nat → Char → Checked (σ × Bool)} {s s' : σ}
    (h : goBack text next s pos = .ok (s', left)) (hpos : pos ≤ bound) :
    Moves bound (back text next s) pos s' left := by
  induction pos using Nat.strong_induction_on generalizing s with
  | h pos ih =>
    rw [goBack] at h
    obtain ⟨b, hpeek, h⟩ := exists_of_bind h
    cases b with
    | none =>
      obtain ⟨rfl, rfl⟩ := Prod.mk.inj (Except.ok.inj h)
      refine (Moves.pure s hpos).congr fun trail => ?_
      rw [back, hpeek]
      rfl
    | some b =>
      obtain ⟨⟨s, passed⟩, hnext, h⟩ := exists_of_bind h
      cases passed with
      | false =>
        obtain ⟨rfl, rfl⟩ := Prod.mk.inj (Except.ok.inj h)
        refine (Moves.pure s hpos).congr fun trail => ?_
        rw [back, hpeek]
        simp only [ok_bind, hnext]
        rfl
      | true =>
        obtain ⟨n, rfl⟩ := exists_eq_succ_of_peek hpeek
        have hn : n ≤ bound := Nat.le_of_succ_le hpos
        refine (ih n (Nat.lt_succ_self n) h hn).of_moveTo hn fun trail => ?_
        rw [back, hpeek]
        simp only [ok_bind, hnext, if_true, retreat_succ]
        rfl

theorem moves_takeWhile {p : Char → Bool} (h : consumeWhile text p pos = .ok left)
    (hpos : pos ≤ bound) : Moves bound (takeWhile text p) pos () left := by
  obtain ⟨⟨_, left⟩, hgo, h⟩ := exists_of_bind h
  obtain rfl := Except.ok.inj h
  exact moves_back hgo hpos

theorem tries_name (h : nameAt text pos = .ok r) (hpos : pos ≤ bound) :
    Tries bound (name text) pos r := by
  obtain ⟨left, hwhile, h⟩ := exists_of_bind h
  obtain rfl := Except.ok.inj h
  have hmoves := moves_takeWhile hwhile hpos
  have hname : Moves bound (name text) pos (left ≠ pos) left :=
    (moves_place hpos).bind (hmoves.bind ((moves_place hmoves.1).bind (.pure _ hmoves.1)))
  by_cases heq : left = pos
  · subst heq
    simpa [Tries] using hname
  · simpa [Tries, heq] using hname

/-- The sign of equality and the name left of it. -/
theorem attempts_assigned {sign : Option Nat} (hsign : consume text (· == '=') pos = .ok sign)
    (hname : (match sign with
      | some left => nameAt text left
      | none => pure none) = .ok r) (hpos : pos ≤ bound) :
    Attempts bound (take text (· == '=') <&&> name text) pos r := by
  have htake := tries_take hsign hpos
  cases sign with
  | none =>
    obtain rfl := Except.ok.inj hname
    exact htake.andM_false _
  | some left => exact htake.andM_true (tries_name hname htake.1).attempts

theorem attempts_toOpening {quote : Char} (h : quoteOpeningAt text quote pos = .ok r)
    (hpos : pos ≤ bound) : Attempts bound (toOpening text quote) pos r := by
  induction pos using Nat.strong_induction_on with
  | h pos ih =>
    rw [quoteOpeningAt] at h
    obtain ⟨b, hpeek, h⟩ := exists_of_bind h
    cases b with
    | none =>
      obtain rfl := Except.ok.inj h
      refine ⟨pos, (Moves.pure false hpos).congr fun trail => ?_⟩
      rw [toOpening, hpeek]
      rfl
    | some b =>
      obtain ⟨n, rfl⟩ := exists_eq_succ_of_peek hpeek
      have hn : n ≤ bound := Nat.le_of_succ_le hpos
      simp only [retreat_succ, ok_bind] at h
      obtain ⟨c, hnext, h⟩ := exists_of_bind h
      have hrun (trail : List Nat) : toOpening text quote ⟨n + 1, trail⟩ =
          if b = quote ∧ c ≠ some '\\' then .ok (true, ⟨n, n :: trail⟩)
          else toOpening text quote ⟨n, n :: trail⟩ := by
        rw [toOpening, hpeek]
        simp only [ok_bind, retreat_succ, hnext]
        rfl
      by_cases hopening : b = quote ∧ c ≠ some '\\'
      · simp only [if_pos hopening] at h hrun
        obtain rfl := Except.ok.inj h
        exact (Moves.pure true hn).of_moveTo hn hrun
      · simp only [if_neg hopening] at h hrun
        exact (ih n (Nat.lt_succ_self n) h hn).of_moveTo hn hrun

theorem tries_quoted (h : quotedAt text pos = .ok r) (hpos : pos ≤ bound) :
    Tries bound (quoted text) pos r := by
  refine Attempts.orBack ?_ hpos
  obtain ⟨b, hpeek, h⟩ := exists_of_bind h
  have hlook := moves_look hpeek hpos
  cases b with
  | none =>
    obtain rfl := Except.ok.inj h
    have hprevious : Moves bound (previous text) pos none pos := hlook.bind (.pure none hpos)
    exact ⟨pos, hprevious.bind (.pure false hpos)⟩
  | some b =>
    obtain ⟨n, rfl⟩ := exists_eq_succ_of_peek hpeek
    have hn : n ≤ bound := Nat.le_of_succ_le hpos
    have hprevious : Moves bound (previous text) (n + 1) (some b) n :=
      hlook.bind ((moves_stepLeft hpos).bind (.pure (some b) hn))
    cases hquote : isQuote b with
    | false =>
      simp only [hquote, Bool.false_eq_true, if_false, pure_eq_ok, Except.ok.injEq] at h
      subst h
      refine ⟨n, hprevious.bind ?_⟩
      simp only [hquote, Bool.false_eq_true, if_false]
      exact .pure false hn
    | true =>
      simp only [hquote, if_true, retreat_succ, ok_bind] at h
      refine Attempts.after hprevious ?_
      simp only [hquote, if_true]
      exact attempts_toOpening h hn

theorem tries_quotedAttribute (h : quotedAttributeAt text pos = .ok r) (hpos : pos ≤ bound) :
    Tries bound (quotedAttribute text) pos r := by
  refine Attempts.orBack ?_ hpos
  obtain ⟨value, hvalue, h⟩ := exists_of_bind h
  have hquoted := tries_quoted hvalue hpos
  cases value with
  | none =>
    obtain rfl := Except.ok.inj h
    exact hquoted.andM_false _
  | some left =>
    obtain ⟨sign, hsign, h⟩ := exists_of_bind h
    exact hquoted.andM_true (attempts_assigned hsign h hquoted.1)

theorem tries_bareAttribute (h : bareAttributeAt text pos = .ok r) (hpos : pos ≤ bound) :
    Tries bound (bareAttribute text) pos r := by
  refine Attempts.orBack (Attempts.after (moves_place hpos) ?_) hpos
  obtain ⟨⟨pending, left⟩, hgo, h⟩ := exists_of_bind h
  have hback := moves_back hgo hpos
  refine Attempts.after hback (Attempts.after (moves_place hback.1) ?_)
  by_cases hleft : left = pos
  · simp only [if_pos hleft, pure_eq_ok, Except.ok.injEq] at h ⊢
    subst h
    exact ⟨left, .pure false hback.1⟩
  · simp only [if_neg hleft] at h ⊢
    obtain ⟨sign, hsign, h⟩ := exists_of_bind h
    exact attempts_assigned hsign h hback.1

theorem tries_attribute (h : attributeAt text pos = .ok r) (hpos : pos ≤ bound) :
    Tries bound (quotedAttribute text <||> bareAttribute text) pos r := by
  obtain ⟨value, hvalue, h⟩ := exists_of_bind h
  have hquoted := tries_quotedAttribute hvalue hpos
  cases value with
  | none =>
    have hbare := tries_bareAttribute h hpos
    cases r with
    | none => exact Moves.bind hquoted hbare
    | some left => exact Moves.bind hquoted hbare
  | some left =>
    obtain rfl := Except.ok.inj h
    exact Moves.bind hquoted (.pure true hquoted.1)

/-! ### Turns -/

/-- A turn ends the search, with the scanner anywhere, or leaves the scanner where the next turn
starts. -/
def Turns (bound : Nat) (x : Scan (Option Bool)) (pos : Nat) : Turn → Prop
  | .found => ∃ left, Moves bound x pos (some true) left
  | .lost => ∃ left, Moves bound x pos (some false) left
  | .more left => Moves bound x pos none left

variable {t : Turn}

theorem Turns.after {x : Scan α} {f : α → Scan (Option Bool)} {a : α}
    (hx : Moves bound x pos a middle) (hf : Turns bound (f a) middle t) :
    Turns bound (x >>= f) pos t := by
  cases t with
  | found =>
    obtain ⟨left, hf⟩ := hf
    exact ⟨left, hx.bind hf⟩
  | lost =>
    obtain ⟨left, hf⟩ := hf
    exact ⟨left, hx.bind hf⟩
  | more left => exact Moves.bind hx hf

/-- A part of the text is read, or all goes on where the scanner stood. -/
theorem Tries.turns {x : Scan Bool} {y z : Scan (Option Bool)} (hx : Tries bound x pos r)
    (hread : ∀ left, r = some left → left ≤ bound → Turns bound y left t)
    (helse : r = none → Turns bound z pos t) :
    Turns bound (x >>= fun b => if b then y else z) pos t := by
  cases r with
  | none => exact Turns.after hx (helse rfl)
  | some left => exact Turns.after hx (hread left rfl hx.1)

theorem turns_pure_some (a : Bool) (hpos : pos ≤ bound) :
    Turns bound (pure (some a)) pos (if a then .found else .lost) := by
  cases a with
  | false => exact ⟨pos, .pure _ hpos⟩
  | true => exact ⟨pos, .pure _ hpos⟩

theorem turns_afterName (h : turnAfterName text pos = .ok t) (hpos : pos ≤ bound) :
    Turns bound (afterName text) pos t := by
  have hfound {left : Nat} : left ≤ bound → Turns bound (pure (some true)) left .found :=
    turns_pure_some true
  have hlost {left : Nat} : left ≤ bound → Turns bound (pure (some false)) left .lost :=
    turns_pure_some false
  -- the alternatives in their order; each leaves the scanner where the next one looks
  obtain ⟨slash, hslash, h⟩ := exists_of_bind h
  refine (tries_take hslash hpos).turns ?_ ?_
  · rintro left rfl hleft
    obtain ⟨opening, hopening, h⟩ := exists_of_bind h
    have htake := tries_take hopening hleft
    obtain rfl := Except.ok.inj h
    cases opening with
    | none => exact ⟨left, htake.bind (.pure _ hleft)⟩
    | some left' => exact ⟨left', htake.bind (.pure _ htake.1)⟩
  rintro rfl
  obtain ⟨opening, hopening, h⟩ := exists_of_bind h
  refine (tries_take hopening hpos).turns ?_ ?_
  · rintro left rfl hleft
    obtain rfl := Except.ok.inj h
    exact hfound hleft
  rintro rfl
  obtain ⟨blank, hblank, h⟩ := exists_of_bind h
  refine (tries_take hblank hpos).turns ?_ ?_
  · rintro left rfl hleft
    obtain rfl := Except.ok.inj h
    exact Moves.pure none hleft
  rintro rfl
  obtain ⟨sign, hsign, h⟩ := exists_of_bind h
  refine (tries_take hsign hpos).turns ?_ ?_
  · rintro left rfl hleft
    obtain ⟨value, hvalue, h⟩ := exists_of_bind h
    refine (tries_name hvalue hleft).turns ?_ ?_
    · rintro left' rfl hleft'
      obtain rfl := Except.ok.inj h
      exact Moves.pure none hleft'
    · rintro rfl
      obtain rfl := Except.ok.inj h
      exact hlost hleft
  rintro rfl
  obtain ⟨value, hvalue, h⟩ := exists_of_bind h
  obtain rfl := Except.ok.inj h
  refine (tries_bareAttribute hvalue hpos).turns ?_ ?_
  · rintro left rfl hleft
    exact hfound hleft
  · rintro rfl
    exact hlost hpos

theorem turns_turn (h : Checked.turn text pos = .ok t) (hpos : pos ≤ bound) :
    Turns bound (turn text) pos t := by
  obtain ⟨middle, hblanks, h⟩ := exists_of_bind h
  have hmoves := moves_takeWhile hblanks hpos
  refine Turns.after hmoves ?_
  obtain ⟨word, hword, h⟩ := exists_of_bind h
  refine (tries_name hword hmoves.1).turns ?_ ?_
  · rintro left rfl hleft
    exact turns_afterName h hleft
  rintro rfl
  obtain ⟨value, hvalue, h⟩ := exists_of_bind h
  refine (tries_attribute hvalue hmoves.1).turns ?_ ?_
  · rintro left rfl hleft
    obtain rfl := Except.ok.inj h
    exact Moves.pure none hleft
  · rintro rfl
    obtain rfl := Except.ok.inj h
    exact turns_pure_some false hmoves.1

/-! ### The whole search -/

theorem exists_turn_of_opensTagAt {a : Bool} (hzero : pos ≠ 0)
    (h : opensTagAt text pos = .ok a) : ∃ t, Checked.turn text pos = .ok t ∧
      (match t with
        | .found => .ok true
        | .lost => .ok false
        | .more left => opensTagAt text left) = (.ok a : Checked Bool) := by
  cases hturn : Checked.turn text pos with
  | error fault =>
    rw [opensTagAt, if_neg hzero] at h
    split at h <;> simp_all
  | ok t => exact ⟨t, rfl, (opensTagAt_of_turn hzero hturn).symm.trans h⟩

/-- At the start of the text no turn is needed. -/
theorem moves_loop_start {a : Bool} (h : opensTagAt text 0 = .ok a) (limit : Nat) :
    Moves bound (loop text limit) 0 (some a) 0 := by
  rw [opensTagAt, if_pos rfl] at h
  obtain rfl := Except.ok.inj h
  have hplace : Moves bound place 0 0 0 := moves_place (Nat.zero_le bound)
  cases limit with
  | zero => exact hplace.bind (.pure (some false) (Nat.zero_le bound))
  | succ limit => exact hplace.bind (.pure (some false) (Nat.zero_le bound))

/-- Every turn that goes on is one byte less to go, so as many turns as bytes are enough. -/
theorem moves_loop {limit : Nat} {a : Bool} (hlimit : pos ≤ limit)
    (h : opensTagAt text pos = .ok a) (hpos : pos ≤ bound) :
    ∃ left, Moves bound (loop text limit) pos (some a) left := by
  induction limit generalizing pos with
  | zero =>
    obtain rfl := Nat.le_zero.1 hlimit
    exact ⟨0, moves_loop_start h 0⟩
  | succ limit ih =>
    by_cases hzero : pos = 0
    · subst hzero
      exact ⟨0, moves_loop_start h (limit + 1)⟩
    obtain ⟨t, hturn, h⟩ := exists_turn_of_opensTagAt hzero h
    have hturns := turns_turn hturn hpos
    have hloop {left : Nat} (hrest : Moves bound (do
        match ← turn text with
        | some answer => return some answer
        | none => loop text limit) pos (some a) left) :
        Moves bound (loop text (limit + 1)) pos (some a) left := by
      refine (moves_place hpos).bind ?_
      rw [if_neg hzero]
      exact hrest
    cases t with
    | found =>
      obtain rfl := Except.ok.inj h
      obtain ⟨left, hturns⟩ := hturns
      exact ⟨left, hloop (hturns.bind (.pure _ hturns.1))⟩
    | lost =>
      obtain rfl := Except.ok.inj h
      obtain ⟨left, hturns⟩ := hturns
      exact ⟨left, hloop (hturns.bind (.pure _ hturns.1))⟩
    | more middle =>
      have hlt := lt_of_turn hturn
      obtain ⟨left, hrest⟩ := ih (by omega) h hturns.1
      exact ⟨left, hloop (Moves.bind hturns hrest)⟩

/-- With or without the reading of a part of the text, the scanner is moved as said. -/
theorem Tries.exists_moves {x : Scan Bool} (h : Tries bound x pos r) :
    ∃ b, Moves bound x pos b (r.getD pos) := by
  cases r with
  | none => exact ⟨false, h⟩
  | some left => exact ⟨true, h⟩

theorem moves_endsTag {limit : Nat} {a : Bool} (hlimit : pos ≤ limit)
    (h : endsTagAt text pos = .ok a) (hpos : pos ≤ bound) :
    Moves bound (endsTag text limit) pos (some a) pos := by
  refine (moves_place hpos).bind ?_
  obtain ⟨bracket, hbracket, h⟩ := exists_of_bind h
  have htake := tries_take hbracket hpos
  cases bracket with
  | none =>
    obtain rfl := Except.ok.inj h
    exact Moves.bind htake (.pure (some false) hpos)
  | some middle =>
    -- the offset itself is a bound, so the loop starts at most there
    have hmiddle : middle ≤ pos := (tries_take hbracket (Nat.le_refl pos)).1
    obtain ⟨slash, hslash, h⟩ := exists_of_bind h
    obtain ⟨slashed, hdrop⟩ := (tries_take hslash htake.1).exists_moves
    have hle : slash.getD middle ≤ middle :=
      (tries_take hslash (Nat.le_refl middle)).exists_moves.choose_spec.1
    obtain ⟨left, hloop⟩ := moves_loop (hle.trans (hmiddle.trans hlimit)) h hdrop.1
    refine Moves.bind htake (hdrop.bind (hloop.bind ?_))
    exact (moves_goTo hpos).bind (.pure (some a) hpos)

/-! ### Progress -/

theorem at_take (text : List Char) (pos : Nat) : At text (text.take pos).reverse := by
  rw [At, List.reverse_reverse]
  exact List.take_prefix pos text

theorem exists_turn (text : List Char) {pos : Nat} (h : pos ≤ text.length) :
    ∃ t, Checked.turn text pos = .ok t := by
  have hturn := turn_eq (at_take text pos)
  rw [List.length_reverse, List.length_take_of_le h] at hturn
  exact ⟨_, hturn⟩

theorem endsTagAt_take (text : List Char) {pos : Nat} (h : pos ≤ text.length) :
    endsTagAt text pos = .ok (Abbreviation.endsTag (text.take pos).reverse) := by
  have hends := endsTagAt_eq (at_take text pos)
  rwa [List.length_reverse, List.length_take_of_le h] at hends

/-- A turn that goes on leaves the scanner left of where it stood. -/
theorem exists_moves_turn (text : List Char) {pos : Nat} (h : pos ≤ text.length) :
    ∃ outcome left, Moves pos (turn text) pos outcome left ∧ (outcome = none → left < pos) := by
  obtain ⟨t, hturn⟩ := exists_turn text h
  have hturns := turns_turn hturn (Nat.le_refl pos)
  cases t with
  | found =>
    obtain ⟨left, hturns⟩ := hturns
    exact ⟨_, left, hturns, nofun⟩
  | lost =>
    obtain ⟨left, hturns⟩ := hturns
    exact ⟨_, left, hturns, nofun⟩
  | more left => exact ⟨_, left, hturns, fun _ => lt_of_turn hturn⟩

/-- The offsets at which the scanner stands, if it stood nowhere before. -/
theorem Moves.exists_way {x : Scan α} {a : α} (h : Moves bound x pos a left) :
    ∃ way, x ⟨pos, []⟩ = .ok (a, ⟨left, way⟩) ∧ ∀ p ∈ way, p ≤ bound := by
  obtain ⟨way, hrun, hway⟩ := h.2 []
  rw [List.append_nil] at hrun
  exact ⟨way, hrun, hway⟩

/-- **The search for the end of a tag ends.** From every offset of a line, without a fault: a turn
ends the search or leaves the scanner left of where it stood, and never right of it. With as many
turns as there are bytes left of the start, or more, the search says whether a tag ends there. It
never moves the scanner right of the start, and in the end the scanner stands at the start. -/
theorem endsTag_progress {line : String} {start : Nat} (h : start ≤ line.utf8ByteSize) :
    (∀ pos ≤ line.utf8ByteSize, ∃ outcome left way,
      turn (encode line.toList) ⟨pos, []⟩ = .ok (outcome, ⟨left, way⟩) ∧
        (outcome = none → left < pos) ∧ ∀ p ∈ way, p ≤ pos) ∧
    (∀ limit ≥ start, ∃ way, endsTag (encode line.toList) limit ⟨start, []⟩ =
      .ok (some (Abbreviation.endsTag ((encode line.toList).take start).reverse), ⟨start, way⟩) ∧
        ∀ p ∈ way, p ≤ start) ∧
    ∀ front back, line.toList = front ++ back → bytes front = start →
      Abbreviation.endsTag ((encode line.toList).take start).reverse =
        Abbreviation.endsTag front.reverse := by
  have hlength : (encode line.toList).length = line.utf8ByteSize := by
    rw [length_encode, utf8ByteSize_eq]
  refine ⟨fun pos hpos => ?_, fun limit hlimit => ?_, ?_⟩
  · obtain ⟨outcome, left, hmoves, hlt⟩ := exists_moves_turn (encode line.toList) (hlength ▸ hpos)
    obtain ⟨way, hrun, hway⟩ := hmoves.exists_way
    exact ⟨outcome, left, way, hrun, hlt, hway⟩
  · have hends := endsTagAt_take (encode line.toList) (hlength ▸ h)
    exact (moves_endsTag hlimit hends (Nat.le_refl start)).exists_way
  · rintro front back hline rfl
    rw [hline, encode_append, ← length_encode, List.take_left, ← encodeBack_reverse,
      endsTag_encodeBack]

/-- Behind a tag with an attribute in quotation marks that has a character of two bytes, and with an
attribute without quotation marks. -/
theorem endsTag_progress_quoted :
    let line := "é <a b=\"é\" c=d>ul"
    17 ≤ line.utf8ByteSize ∧ ∃ way, (∀ p ∈ way, p ≤ 17) ∧
      endsTag (encode line.toList) 17 ⟨17, []⟩ = .ok (some true, ⟨17, way⟩) := by
  intro line
  have hsize : 17 ≤ line.utf8ByteSize := by decide
  obtain ⟨-, hends, hfront⟩ := endsTag_progress hsize
  obtain ⟨way, hrun, hway⟩ := hends 17 (Nat.le_refl 17)
  have htag : Abbreviation.endsTag "é <a b=\"é\" c=d>".toList.reverse = true := by
    decide +kernel
  rw [hfront "é <a b=\"é\" c=d>".toList "ul".toList (by decide) (by decide), htag] at hrun
  exact ⟨hsize, way, hway, hrun⟩

end Scanner

end Emmet.Checked
