import Emmet.Proofs.Abbreviation.TagEnd
import Emmet.Proofs.Abbreviation.Walk

/-!
# What the detection of tags changes in a scan

In a line without `<` there is no tag, so a scan should find what it finds without the detection of
tags. It does not always: the detection takes a `>` right of a value for the end of a tag. This file
says in which lines that changes what is found.

* `scanBy`, `walkBy`, `stepBy` : the scan with another detection, `neverTag` the one that finds no
  tag;
* `Misread` : the `>` that are taken for the end of a tag in a text without `<`;
* `MeetsMisread` : the walk without detection comes to such a `>`, and to no other before it;
* `scan_eq_scanBy_neverTag_iff` : the scan finds the same as without detection exactly if the cut at
  that `>` is `Unnoticed`.
-/

namespace Emmet.Abbreviation

/-! ### Scans with another detection of tags -/

/-- `step` with another detection of tags. -/
def stepBy (tagEnd : List Char → Bool) (f : Family) (pending : List Char) (c : Char)
    (left : List Char) : Step :=
  if '\x7d' ∈ pending ∧ c ≠ '\x7b' then .take (if c = '\x7d' then c :: pending else pending)
  else if closesGroup f c then .take (c :: pending)
  else if opensGroup f c then stepOpening c pending
  else if ']' ∈ pending ∨ '\x7d' ∈ pending then .take pending
  else if tagEnd (c :: left) || !isAbbreviationChar c then .stop pending
  else .take pending

/-- `walk` with another detection of tags. -/
def walkBy (tagEnd : List Char → Bool) (f : Family) : (pending left : List Char) → Walk
  | pending, [] => ⟨[], pending⟩
  | pending, c :: left =>
    match stepBy tagEnd f pending c left with
    | .take pending => (walkBy tagEnd f pending left).after [c]
    | .stop pending => ⟨[], pending⟩

/-- What a scan finds if its walk through `before` is `w`. -/
def found? (before : List Char) (w : Walk) : Option (List Char × Nat) :=
  if w.pending ≠ [] ∨ w.taken = [] then none
  else
    let abbreviation := w.taken.reverse.dropWhile isJoining
    some (abbreviation, Text.bytes before - Text.bytes abbreviation)

/-- `scan` with another detection of tags. -/
def scanBy (tagEnd : List Char → Bool) (line : List Char) (offset : Nat) (o : ScanOptions) :
    Option (List Char × Nat) :=
  let before := reach line offset o
  found? before (walkBy tagEnd o.family [] before.reverse)

/-- The detection that finds no tag. -/
def neverTag (_ : List Char) : Bool := false

variable {f : Family} {pending pending' text left near unmatched far : List Char} {c : Char}

theorem stepBy_endsTag (f : Family) (pending : List Char) (c : Char) (left : List Char) :
    stepBy endsTag f pending c left = step f pending c left := rfl

theorem walkBy_cons_take {tagEnd : List Char → Bool}
    (h : stepBy tagEnd f pending c left = .take pending') :
    walkBy tagEnd f pending (c :: left) = (walkBy tagEnd f pending' left).after [c] := by
  rw [walkBy, h]

theorem walkBy_cons_stop {tagEnd : List Char → Bool}
    (h : stepBy tagEnd f pending c left = .stop pending') :
    walkBy tagEnd f pending (c :: left) = ⟨[], pending'⟩ := by
  rw [walkBy, h]

theorem walkBy_endsTag (f : Family) (pending text : List Char) :
    walkBy endsTag f pending text = walk f pending text := by
  induction text generalizing pending with
  | nil => rfl
  | cons c left ih =>
    have hstep : stepBy endsTag f pending c left = step f pending c left := stepBy_endsTag ..
    cases h : step f pending c left with
    | take pending' => rw [walk_cons_take h, walkBy_cons_take (hstep.trans h), ih]
    | stop pending' => rw [walk_cons_stop h, walkBy_cons_stop (hstep.trans h)]

theorem scanBy_endsTag (line : List Char) (offset : Nat) (o : ScanOptions) :
    scanBy endsTag line offset o = scan line offset o := by
  rw [scanBy, walkBy_endsTag]
  rfl

/-! ### Where the detection errs -/

/-- At the head of the text stands a `>` that is the child operator but is taken for the end of a
tag: outside of attribute sets and text nodes, and right of a value. -/
def Misread (pending : List Char) : List Char → Prop
  | '>' :: far => ']' ∉ pending ∧ '\x7d' ∉ pending ∧ EndsInValue (dropSlash far)
  | _ => False

theorem misread_iff (hlt : '<' ∉ text) : Misread pending text ↔
    ']' ∉ pending ∧ '\x7d' ∉ pending ∧ endsTag text = true := by
  unfold Misread
  split
  · next far =>
    have hfar : '<' ∉ dropSlash far := fun h =>
      hlt (List.mem_cons_of_mem _ ((dropSlash_suffix far).subset h))
    rw [endsTag_eq_opensTag, opensTag_iff_endsInValue hfar]
  · next hhead =>
    cases text with
    | nil => simp [endsTag]
    | cons c left =>
      have hc : c ≠ '>' := fun h => hhead left (h ▸ rfl)
      simp [endsTag_eq_false hc]

theorem Misread.exists_cons (h : Misread pending text) : ∃ far, text = '>' :: far := by
  unfold Misread at h
  split at h
  · exact ⟨_, rfl⟩
  · cases h

/-- The detection ends the walk at a misread `>`, which belongs to the abbreviation otherwise. -/
theorem step_of_misread (hlt : '<' ∉ '>' :: far) (h : Misread pending ('>' :: far)) :
    step f pending '>' far = .stop pending ∧ stepBy neverTag f pending '>' far = .take pending := by
  obtain ⟨hset, hnode, htag⟩ := (misread_iff hlt).1 h
  have hgroup : closesGroup f '>' = false ∧ opensGroup f '>' = false := by cases f <;> decide
  constructor
  · simp [step, hset, hnode, hgroup, htag]
  · simp [stepBy, neverTag, hset, hnode, hgroup, show isAbbreviationChar '>' = true from rfl]

/-- Everywhere else the detection makes no difference. -/
theorem step_of_not_misread (hlt : '<' ∉ c :: left) (h : ¬ Misread pending (c :: left)) :
    step f pending c left = stepBy neverTag f pending c left := by
  rw [misread_iff hlt] at h
  simp only [step, stepBy, neverTag]
  by_cases hbracket : ']' ∈ pending ∨ '\x7d' ∈ pending
  · simp only [if_pos hbracket]
  · obtain ⟨hset, hnode⟩ := not_or.1 hbracket
    have htag : endsTag (c :: left) = false := by
      rw [← Bool.not_eq_true]
      exact fun htag => h ⟨hset, hnode, htag⟩
    rw [htag]
    rfl

/-! ### The first misread on the way -/

/-- Without detection, the walk through a text takes `near` and comes to a misread `>` with the
brackets `unmatched`; what is left of it is `far`. It is the first one. -/
inductive MeetsMisread (f : Family) : (pending text near unmatched far : List Char) → Prop where
  | here {pending far : List Char} (h : Misread pending ('>' :: far)) :
      MeetsMisread f pending ('>' :: far) [] pending far
  | later {pending pending' left near unmatched far : List Char} {c : Char}
      (hread : ¬ Misread pending (c :: left))
      (hstep : stepBy neverTag f pending c left = .take pending')
      (h : MeetsMisread f pending' left near unmatched far) :
      MeetsMisread f pending (c :: left) (c :: near) unmatched far

/-- Both walks up to the first misread `>`: with detection the walk ends there, without it the walk
goes on. -/
theorem MeetsMisread.walks (h : MeetsMisread f pending text near unmatched far)
    (hlt : '<' ∉ text) : text = near ++ '>' :: far ∧ walk f pending text = ⟨near, unmatched⟩ ∧
      walkBy neverTag f pending text =
        (walkBy neverTag f unmatched far).after (near ++ ['>']) := by
  -- up to there no `>` is misread, so both walks take the same steps
  induction h with
  | here h =>
    obtain ⟨hstop, htake⟩ := step_of_misread (f := f) hlt h
    exact ⟨rfl, walk_cons_stop hstop, walkBy_cons_take htake⟩
  | @later pending pending' left near unmatched far c hread hstep h ih =>
    obtain ⟨rfl, hwalk, hwalkBy⟩ := ih fun hmem => hlt (List.mem_cons_of_mem c hmem)
    refine ⟨rfl, ?_, ?_⟩
    · rw [walk_cons_take ((step_of_not_misread hlt hread).trans hstep), hwalk]
      rfl
    · rw [walkBy_cons_take hstep, hwalkBy]
      rfl

/-- Without a misread `>` on the way, the detection makes no difference. -/
theorem walk_eq_walkBy_neverTag (hlt : '<' ∉ text)
    (h : ∀ near unmatched far, ¬ MeetsMisread f pending text near unmatched far) :
    walk f pending text = walkBy neverTag f pending text := by
  induction text generalizing pending with
  | nil => rfl
  | cons c left ih =>
    have hread : ¬ Misread pending (c :: left) := by
      intro hread
      obtain ⟨far, hfar⟩ := hread.exists_cons
      obtain ⟨rfl, rfl⟩ := List.cons.inj hfar
      exact h _ _ _ (.here hread)
    have hstep : step f pending c left = stepBy neverTag f pending c left :=
      step_of_not_misread hlt hread
    cases htake : stepBy neverTag f pending c left with
    | take pending' =>
      rw [walk_cons_take (hstep.trans htake), walkBy_cons_take htake,
        ih (fun hmem => hlt (List.mem_cons_of_mem c hmem)) fun near unmatched far hmeets =>
          h _ _ _ (.later hread htake hmeets)]
    | stop pending' =>
      rw [walk_cons_stop (hstep.trans htake), walkBy_cons_stop htake]

/-! ### When a cut at a misread is unnoticed -/

/-- It makes no difference to what a scan finds whether its walk ends after `near`, at a misread
`>`, or goes on with `beyond`: either something was found by then and the walk adds nothing but
operators that no abbreviation starts with, or nothing was found by then and nothing is found. -/
def Unnoticed (near unmatched : List Char) (beyond : Walk) : Prop :=
  if unmatched = [] ∧ near ≠ [] then beyond.pending = [] ∧ ∀ c ∈ beyond.taken, isJoining c = true
  else beyond.pending ≠ []

theorem dropWhile_append_eq_iff {α : Type} {p : α → Bool} {as bs : List α} :
    (as ++ bs).dropWhile p = bs.dropWhile p ↔ ∀ a ∈ as, p a = true := by
  constructor
  · intro h
    by_contra hall
    rw [← List.dropWhile_eq_nil_iff, ← List.isEmpty_iff] at hall
    rw [List.dropWhile_append, if_neg hall] at h
    -- the right end of a text is not longer than the text
    have hlength := congrArg List.length h
    have hle : (bs.dropWhile p).length ≤ bs.length := List.length_dropWhile_le p bs
    rw [List.isEmpty_iff, ← List.length_eq_zero_iff] at hall
    rw [List.length_append] at hlength
    omega
  · exact fun h => List.dropWhile_append_of_pos h

theorem found?_eq_found?_iff {before near unmatched : List Char} {beyond : Walk} :
    found? before ⟨near, unmatched⟩ = found? before (beyond.after (near ++ ['>'])) ↔
      Unnoticed near unmatched beyond := by
  unfold Unnoticed
  by_cases hnear : unmatched = [] ∧ near ≠ []
  · have hdrop : near.reverse.dropWhile isJoining =
        (near ++ '>' :: beyond.taken).reverse.dropWhile isJoining ↔
        ∀ c ∈ beyond.taken, isJoining c = true := by
      rw [List.reverse_append, eq_comm, dropWhile_append_eq_iff, List.reverse_cons]
      simp [or_imp, forall_and, show isJoining '>' = true from rfl]
    rw [if_pos hnear, ← hdrop]
    by_cases hpending : beyond.pending = []
    · simp only [found?, Walk.after, hnear, hpending, List.append_assoc, List.singleton_append]
      rw [if_neg (by simp), if_neg (by simp), Option.some.injEq, Prod.mk.injEq]
      exact ⟨fun h => ⟨trivial, h.1⟩, fun h => ⟨h.2, by rw [h.2]⟩⟩
    · simp [found?, Walk.after, hnear, hpending]
  · rw [if_neg hnear]
    have hnone : found? before ⟨near, unmatched⟩ = none := by
      rw [found?, if_pos]
      by_cases hunmatched : unmatched = []
      · exact .inr (by simpa [hunmatched] using hnear)
      · exact .inl hunmatched
    rw [hnone, eq_comm, found?]
    simp [Walk.after]

/-! ### What the detection changes -/

theorem reach_sublist (line : List Char) (offset : Nat) (o : ScanOptions) :
    (reach line offset o).Sublist line := by
  have h := (List.Sublist.refl (Text.cut Text.utf8 line offset).1).append
    (ahead_isPrefix line offset o).sublist
  rwa [← reach_eq, Text.cut_append] at h

/-- **In a line without `<`, the `>` right of a value are taken for the ends of tags**, and the scan
finds what it finds without the detection of tags exactly if its cut at the first of them that it
comes to is unnoticed. -/
theorem scan_eq_scanBy_neverTag_iff {line : List Char} (hlt : '<' ∉ line) (offset : Nat)
    (o : ScanOptions) :
    (∀ left, '<' ∉ left → (endsTag left = true ↔ Misread [] left)) ∧
    (scan line offset o = scanBy neverTag line offset o ↔
      ∀ near unmatched far,
        MeetsMisread o.family [] (reach line offset o).reverse near unmatched far →
          Unnoticed near unmatched (walkBy neverTag o.family unmatched far)) := by
  refine ⟨fun left h => by simp [misread_iff h], ?_⟩
  have hreach : '<' ∉ (reach line offset o).reverse := fun h =>
    hlt ((reach_sublist line offset o).subset (List.mem_reverse.1 h))
  rw [← scanBy_endsTag, scanBy, scanBy, walkBy_endsTag]
  -- with a misread on the way both walks are known up to it, and without one they are the same
  by_cases hmeets : ∃ near unmatched far,
      MeetsMisread o.family [] (reach line offset o).reverse near unmatched far
  · obtain ⟨near, unmatched, far, hmeets⟩ := hmeets
    obtain ⟨-, hwalk, hwalkBy⟩ := hmeets.walks hreach
    rw [hwalk, hwalkBy, found?_eq_found?_iff]
    refine ⟨fun h near' unmatched' far' hmeets' => ?_, fun h => h _ _ _ hmeets⟩
    -- there is only one first misread
    obtain ⟨htext, hwalk', -⟩ := hmeets'.walks hreach
    obtain ⟨rfl, rfl⟩ := Walk.mk.inj (hwalk.symm.trans hwalk')
    rw [(hmeets.walks hreach).1] at htext
    obtain ⟨-, rfl⟩ := List.cons.inj (List.append_cancel_left htext)
    exact h
  · have hnone : ∀ near unmatched far,
        ¬ MeetsMisread o.family [] (reach line offset o).reverse near unmatched far :=
      fun near unmatched far h => hmeets ⟨near, unmatched, far, h⟩
    rw [walk_eq_walkBy_neverTag hreach hnone]
    exact iff_of_true rfl fun near unmatched far h => absurd h (hnone near unmatched far)

/-- The abbreviation `a[x=y].b>c` is cut at its `>`. -/
theorem scan_ne_scanBy_neverTag :
    let line := "a[x=y].b>c".toList
    '<' ∉ line ∧ scan line 10 ⟨.markup, true⟩ = some (['c'], 9) ∧
      scanBy neverTag line 10 ⟨.markup, true⟩ = some (line, 0) := by
  decide +kernel

/-- The cut of `a[x=y].b>c` is noticed, and so is not the cut of `a=b.c >d`. -/
theorem scan_eq_scanBy_neverTag_iff_unnoticed :
    let noticed := "a[x=y].b>c".toList
    let unnoticed := "a=b.c >d".toList
    '<' ∉ noticed ∧ '<' ∉ unnoticed ∧
      (¬ ∀ near unmatched far,
        MeetsMisread .markup [] (reach noticed 10 ⟨.markup, true⟩).reverse near unmatched far →
          Unnoticed near unmatched (walkBy neverTag .markup unmatched far)) ∧
      ∀ near unmatched far,
        MeetsMisread .markup [] (reach unnoticed 8 ⟨.markup, true⟩).reverse near unmatched far →
          Unnoticed near unmatched (walkBy neverTag .markup unmatched far) := by
  have hnoticed : '<' ∉ "a[x=y].b>c".toList := by decide
  have hunnoticed : '<' ∉ "a=b.c >d".toList := by decide
  refine ⟨hnoticed, hunnoticed, fun h => ?_, ?_⟩
  · have heq := (scan_eq_scanBy_neverTag_iff hnoticed 10 ⟨.markup, true⟩).2.2 h
    exact absurd heq (by decide +kernel)
  · exact (scan_eq_scanBy_neverTag_iff hunnoticed 8 ⟨.markup, true⟩).2.1 (by decide +kernel)

end Emmet.Abbreviation
