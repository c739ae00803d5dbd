import Emmet.Abbreviation.Scan
import Mathlib.Data.List.TakeWhile

/-!
# What a walk takes

The walk to the left takes a front part of the reversed text and keeps the closing brackets that are
still to be matched. This file says how a walk over a text is put together from walks over its
parts, and what the text found by a scan is.

* `Takes f pending cs pending' left` : from `pending` the walk takes all of `cs`, standing right of
  `left`, and goes on from `pending'`; `Takes.trans` chains such walks.
* `exists_taken_of_pending` : a text without opening brackets is taken whole or leaves brackets
  unmatched.
* `scan_eq_some` : what a scan finds is the text between a place left of the offset and the end of
  the brackets ahead that count as typed;
* `scan_front`, `scan_end` : what a scan finds, by the walk through the text left of it.
-/

namespace Emmet.Abbreviation

/-! ### Walks over parts of a text -/

/-- A walk that took some characters before. -/
def Walk.after (taken : List Char) (w : Walk) : Walk := ⟨taken ++ w.taken, w.pending⟩

/-- From the unmatched brackets `pending` the walk takes all of `cs` and goes on with `pending'` at
`left`. -/
def Takes (f : Family) (pending cs pending' left : List Char) : Prop :=
  walk f pending (cs ++ left) = (walk f pending' left).after cs

variable {f : Family} {pending pending' pending'' left : List Char} {c : Char}

theorem walk_cons_take (h : step f pending c left = .take pending') :
    walk f pending (c :: left) = (walk f pending' left).after [c] := by
  rw [walk, h]; rfl

theorem walk_cons_stop (h : step f pending c left = .stop pending') :
    walk f pending (c :: left) = ⟨[], pending'⟩ := by
  rw [walk, h]

theorem Takes.nil : Takes f pending [] pending left := rfl

theorem Takes.single (h : step f pending c left = .take pending') :
    Takes f pending [c] pending' left :=
  walk_cons_take h

theorem Takes.trans {cs ds : List Char} (h₁ : Takes f pending cs pending' (ds ++ left))
    (h₂ : Takes f pending' ds pending'' left) : Takes f pending (cs ++ ds) pending'' left := by
  unfold Takes at *
  rw [List.append_assoc, h₁, h₂]
  simp [Walk.after]

/-! ### Characters that open no group -/

/-- A character that opens no group leaves no bracket matched. -/
theorem step_of_not_opensGroup (pending left : List Char) (h : opensGroup f c = false) :
    (∃ more, step f pending c left = .take (more ++ pending)) ∨
      step f pending c left = .stop pending := by
  simp only [step, h, Bool.false_eq_true, ↓reduceIte]
  split
  · split
    · exact .inl ⟨[c], rfl⟩
    · exact .inl ⟨[], rfl⟩
  split
  · exact .inl ⟨[c], rfl⟩
  split
  · exact .inl ⟨[], rfl⟩
  split
  · exact .inr rfl
  · exact .inl ⟨[], rfl⟩

/-- A text without opening brackets is taken whole unless a bracket stays unmatched. -/
theorem exists_taken_of_pending {cs : List Char} (hcs : ∀ c ∈ cs, opensGroup f c = false)
    (hp : pending ≠ []) (h : (walk f pending (cs ++ left)).pending = []) :
    ∃ rest, (walk f pending (cs ++ left)).taken = cs ++ rest ∧ rest <+: left := by
  -- without an opening bracket the unmatched ones only become more
  induction cs generalizing pending with
  | nil => exact ⟨_, rfl, taken_prefix f pending left⟩
  | cons c cs ih =>
    obtain ⟨more, hs⟩ | hs :=
      step_of_not_opensGroup pending (cs ++ left) (hcs c List.mem_cons_self)
    · rw [List.cons_append, walk_cons_take hs] at h ⊢
      obtain ⟨rest, hr, hl⟩ := ih (fun d hd => hcs d (List.mem_cons_of_mem c hd)) (by simp [hp]) h
      exact ⟨rest, by simp [Walk.after, hr], hl⟩
    · rw [List.cons_append, walk_cons_stop hs] at h
      exact absurd h hp

/-! ### Brackets ahead of the cursor -/

theorem closersAhead_isPrefix (f : Family) (right : List Char) : closersAhead f right <+: right := by
  unfold closersAhead
  split
  · split
    · exact List.cons_prefix_cons.2 ⟨rfl, List.takeWhile_prefix _⟩
    · exact List.takeWhile_prefix _
  · exact List.nil_prefix

theorem mem_closersAhead {right : List Char} (h : c ∈ closersAhead f right) :
    isQuote c = true ∨ closesGroup f c = true := by
  unfold closersAhead at h
  split at h
  · split at h
    · next hq =>
      obtain rfl | h := List.mem_cons.1 h
      · exact .inl hq
      · exact .inr (List.mem_takeWhile_imp h)
    · exact .inr (List.mem_takeWhile_imp h)
  · cases h

theorem not_opensGroup_of_ahead (h : isQuote c = true ∨ closesGroup f c = true) :
    opensGroup f c = false := by
  simp only [isQuote, closesGroup, Bool.or_eq_true, Bool.and_eq_true, beq_iff_eq] at h
  rcases h with (rfl | rfl) | rfl | ⟨-, rfl | rfl⟩ <;> cases f <;> decide

theorem not_isJoining_of_ahead (h : isQuote c = true ∨ closesGroup f c = true) :
    isJoining c = false := by
  simp only [isQuote, closesGroup, Bool.or_eq_true, Bool.and_eq_true, beq_iff_eq] at h
  rcases h with (rfl | rfl) | rfl | ⟨-, rfl | rfl⟩ <;> decide

/-- With nothing unmatched, a quotation mark ends the walk. -/
theorem step_nil_of_isQuote (h : isQuote c = true) : step f [] c left = .stop [] := by
  simp only [isQuote, Bool.or_eq_true, beq_iff_eq] at h
  rcases h with rfl | rfl <;> cases f <;> simp [step, closesGroup, opensGroup, endsTag] <;> decide

theorem step_of_closesGroup (h : closesGroup f c = true) (hp : '\x7d' ∉ pending) :
    step f pending c left = .take (c :: pending) := by
  simp [step, hp, h]

/-- A walk that takes something and leaves nothing unmatched takes all characters ahead of the
cursor: the first of them it meets is a closing bracket, whose partner stands further left. -/
theorem exists_taken_of_ahead {ds : List Char}
    (hds : ∀ c ∈ ds, isQuote c = true ∨ closesGroup f c = true)
    (hp : (walk f [] (ds ++ left)).pending = []) (ht : (walk f [] (ds ++ left)).taken ≠ []) :
    ∃ rest, (walk f [] (ds ++ left)).taken = ds ++ rest ∧ rest <+: left := by
  cases ds with
  | nil => exact ⟨_, rfl, taken_prefix f [] left⟩
  | cons d ds =>
    rw [List.cons_append] at hp ht ⊢
    rcases hds d List.mem_cons_self with hd | hd
    · rw [walk_cons_stop (step_nil_of_isQuote hd)] at ht
      exact absurd rfl ht
    · rw [walk_cons_take (step_of_closesGroup hd List.not_mem_nil)] at hp ⊢
      have hds' : ∀ c ∈ ds, opensGroup f c = false := fun c hc =>
        not_opensGroup_of_ahead (hds c (List.mem_cons_of_mem d hc))
      obtain ⟨rest, hr, hl⟩ := exists_taken_of_pending hds' (List.cons_ne_nil d []) hp
      exact ⟨rest, by simp [Walk.after, hr], hl⟩

/-! ### What a scan finds -/

/-- The characters right of an offset that count as typed. -/
def ahead (line : List Char) (offset : Nat) (o : ScanOptions) : List Char :=
  if o.lookAhead then closersAhead o.family (Text.cut Text.utf8 line offset).2 else []

theorem reach_eq (line : List Char) (offset : Nat) (o : ScanOptions) :
    reach line offset o = (Text.cut Text.utf8 line offset).1 ++ ahead line offset o := by
  cases h : o.lookAhead <;> simp [reach, ahead, h]

theorem ahead_isPrefix (line : List Char) (offset : Nat) (o : ScanOptions) :
    ahead line offset o <+: (Text.cut Text.utf8 line offset).2 := by
  unfold ahead
  split
  · exact closersAhead_isPrefix _ _
  · exact List.nil_prefix

theorem reach_isPrefix (line : List Char) (offset : Nat) (o : ScanOptions) :
    reach line offset o <+: line := by
  obtain ⟨rest, hrest⟩ := ahead_isPrefix line offset o
  refine ⟨rest, ?_⟩
  rw [reach_eq, List.append_assoc, hrest, Text.cut_append]

theorem mem_ahead {line : List Char} {offset : Nat} {o : ScanOptions}
    (h : c ∈ ahead line offset o) : isQuote c = true ∨ closesGroup o.family c = true := by
  unfold ahead at h
  split at h
  · exact mem_closersAhead h
  · cases h

/-- Operators at the front are dropped from what stands left of the cursor only. -/
theorem dropWhile_isJoining_append {as bs : List Char} (h : ∀ c ∈ bs, isJoining c = false) :
    (as ++ bs).dropWhile isJoining = as.dropWhile isJoining ++ bs := by
  rw [List.dropWhile_append]
  split
  · next he =>
    have hb : bs.dropWhile isJoining = bs := by
      cases bs with
      | nil => rfl
      | cons b bs => simp [h b List.mem_cons_self]
    rw [List.isEmpty_iff.1 he, hb, List.nil_append]
  · rfl

/-- What a scan finds starts left of the offset and reaches to the end of the characters ahead of it
that count as typed. -/
theorem scan_eq_some {line a : List Char} {offset start : Nat} {o : ScanOptions}
    (h : scan line offset o = some (a, start)) :
    ∃ front back, (Text.cut Text.utf8 line offset).1 = front ++ back ∧
      a = back ++ ahead line offset o ∧ start = Text.bytes front := by
  simp only [scan, reach_eq, List.reverse_append] at h
  split at h
  · cases h
  next hw =>
  obtain ⟨hp, ht⟩ := not_or.1 hw
  obtain ⟨ha, hstart⟩ : _ = a ∧ _ = start := by simpa using h
  set left := (Text.cut Text.utf8 line offset).1
  set typed := ahead line offset o
  -- the walk meets what is ahead of the cursor first, and takes all of it
  obtain ⟨rest, hr, hl⟩ := exists_taken_of_ahead (fun c hc => mem_ahead (List.mem_reverse.1 hc))
    (not_not.1 hp) ht
  have hdrop : a = rest.reverse.dropWhile isJoining ++ typed := by
    rw [← ha, hr, List.reverse_append, List.reverse_reverse]
    exact dropWhile_isJoining_append fun c hc => not_isJoining_of_ahead (mem_ahead hc)
  obtain ⟨front, hfront⟩ : rest.reverse.dropWhile isJoining <:+ left :=
    (List.dropWhile_suffix _).trans (by simpa using List.reverse_suffix.2 hl)
  refine ⟨front, rest.reverse.dropWhile isJoining, hfront.symm, hdrop, ?_⟩
  rw [← hstart, ha, hdrop, ← hfront]
  simp only [Text.bytes, Text.size_append]
  omega

theorem closersAhead_eq_nil {right : List Char}
    (h : ∀ c ∈ right.head?, isQuote c = false ∧ closesGroup f c = false) :
    closersAhead f right = [] := by
  cases right with
  | nil => rfl
  | cons c rest =>
    obtain ⟨hquote, hclose⟩ := h c rfl
    rw [closersAhead, if_neg (by simp [hquote]), List.takeWhile_cons_of_neg (by simp [hclose])]

/-- A scan reaches no further than its offset if nothing right of it counts as typed. -/
theorem reach_front {right : List Char} {o : ScanOptions}
    (h : closersAhead o.family right = []) :
    reach (left ++ right) (Text.bytes left) o = left := by
  rw [reach_eq, ahead, Text.cut_bytes rfl, h, ite_self, List.append_nil]

/-- A scan finds what the walk through the text left of it takes, without the operators at its
front, if nothing right of it counts as typed. -/
theorem scan_front {right taken : List Char} {o : ScanOptions}
    (hright : closersAhead o.family right = [])
    (hwalk : walk o.family [] left.reverse = ⟨taken, []⟩) (hne : taken ≠ []) :
    scan (left ++ right) (Text.bytes left) o = some (taken.reverse.dropWhile isJoining,
      Text.bytes left - Text.bytes (taken.reverse.dropWhile isJoining)) := by
  simp only [scan, reach_front hright, hwalk]
  exact if_neg (by simp [hne])

/-- A scan from the end of a line finds what the walk through the line takes, since nothing is ahead
of it. -/
theorem scan_end {line taken : List Char} {o : ScanOptions}
    (hwalk : walk o.family [] line.reverse = ⟨taken, []⟩) (hne : taken ≠ []) :
    scan line (Text.bytes line) o = some (taken.reverse.dropWhile isJoining,
      Text.bytes line - Text.bytes (taken.reverse.dropWhile isJoining)) := by
  simpa using @scan_front line [] taken o rfl hwalk hne

end Emmet.Abbreviation
