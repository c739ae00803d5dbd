import Emmet.Proofs.Abbreviation.Brackets
import Emmet.Proofs.Abbreviation.TagContext
import Mathlib.Data.List.DropRight

/-!
# Scanning an abbreviation again

A scan takes a text from the right as far as it belongs to an abbreviation. The brackets of this
text match, or one closing bracket is left over, because the scan stopped at an opening bracket of
another kind. If they match, a scan of the abbreviation alone finds it whole: the detection of tags
looks at the text left of the abbreviation, but with less text there it finds no more tags.

* `exists_walk_reads` : the walk of a scan reads the brackets of what it takes. At its end they are
  the unmatched brackets of the text, or it has dropped the innermost of them in front of an opening
  bracket of another kind;
* `walk_of_taken` : what a walk takes of a text, it takes without the text left of it;
* `find?_brackets` : the brackets of what a scan takes, and the scan of what it finds.
-/

namespace Emmet.Abbreviation

variable {f : Family} {pending pending' left rest more cs ds : List Char} {c closing : Char}

/-! ### The walk reads brackets -/

/-- Outside of attribute sets and text nodes, a character that is no bracket ends the abbreviation
if it ends a tag or belongs to no abbreviation. -/
structure EndsHere (f : Family) (pending : List Char) (c : Char) (left : List Char) : Prop where
  closes : closesGroup f c = false
  opens : opensGroup f c = false
  set : ']' ∉ pending
  node : '\x7d' ∉ pending
  stops : endsTag (c :: left) = true ∨ isAbbreviationChar c = false

/-- The step at a character that is read. If it is refused, the innermost bracket is dropped. -/
def stepReading (pending : List Char) : Option (List Char) → Step
  | some next => .take next
  | none => .stop pending.tail

theorem step_of_endsHere (h : EndsHere f pending c left) :
    step f pending c left = .stop pending := by
  simp [step, h.closes, h.opens, h.set, h.node, h.stops]

/-- Everywhere else the walk reads brackets. -/
theorem step_of_not_endsHere (h : ¬ EndsHere f pending c left) :
    step f pending c left = stepReading pending (readBracket f pending c) := by
  unfold step readBracket
  by_cases hnode : '\x7d' ∈ pending ∧ c ≠ '\x7b'
  · rw [if_pos hnode, if_pos hnode]
    rfl
  rw [if_neg hnode, if_neg hnode]
  by_cases hclose : closesGroup f c = true
  · rw [if_pos hclose, if_pos hclose]
    rfl
  rw [if_neg hclose, if_neg hclose]
  by_cases hopen : opensGroup f c = true
  · rw [if_pos hopen, if_pos hopen]
    cases pending with
    | nil => rfl
    | cons top pending =>
      dsimp only [stepOpening]
      split <;> rfl
  rw [if_neg hopen, if_neg hopen]
  by_cases hinside : ']' ∈ pending ∨ '\x7d' ∈ pending
  · rw [if_pos hinside]
    rfl
  rw [if_neg hinside, if_neg]
  · rfl
  · intro hstop
    rw [not_or] at hinside
    exact h ⟨by simpa using hclose, by simpa using hopen, hinside.1, hinside.2,
      by simpa using hstop⟩

/-- What the walk takes, it reads. -/
theorem readBracket_of_step (h : step f pending c left = .take pending') :
    readBracket f pending c = some pending' := by
  by_cases hends : EndsHere f pending c left
  · rw [step_of_endsHere hends] at h
    cases h
  rw [step_of_not_endsHere hends] at h
  cases hread : readBracket f pending c with
  | some next =>
    rw [hread] at h
    exact congrArg some (Step.take.inj h)
  | none =>
    rw [hread] at h
    cases h

/-- An opening bracket is refused if it is not the partner of the innermost closing bracket. -/
theorem opener?_of_readBracket_eq_none (h : readBracket f pending c = none) :
    opensGroup f c = true ∧ ∀ closing ∈ pending.head?, opener? closing ≠ some c := by
  unfold readBracket at h
  split at h
  · cases h
  split at h
  · cases h
  split at h
  · next hopen =>
    refine ⟨hopen, fun closing hclosing => ?_⟩
    cases pending with
    | nil => cases hclosing
    | cons top pending =>
      obtain rfl := Option.some.inj hclosing
      intro htop
      simp [htop] at h
  · cases h

/-- Where the walk stops, the unmatched brackets stay as they are, or the innermost is dropped in
front of an opening bracket that is not its partner. -/
theorem cases_of_step_stop (h : step f pending c left = .stop pending') :
    pending' = pending ∨ ∃ closing, pending = closing :: pending' ∧ opensGroup f c = true ∧
      opener? closing ≠ some c := by
  by_cases hends : EndsHere f pending c left
  · rw [step_of_endsHere hends] at h
    exact .inl (Step.stop.inj h).symm
  rw [step_of_not_endsHere hends] at h
  cases hread : readBracket f pending c with
  | some next =>
    rw [hread] at h
    cases h
  | none =>
    rw [hread] at h
    obtain rfl := Step.stop.inj h
    obtain ⟨hopen, hclosing⟩ := opener?_of_readBracket_eq_none hread
    cases pending with
    | nil => exact .inl rfl
    | cons closing pending => exact .inr ⟨closing, rfl, hopen, hclosing closing rfl⟩

/-- How a walk ends, with the brackets `unread` that are unmatched in what it took: it left all of
them, or it dropped the innermost one in front of another opening bracket. -/
inductive Ends (f : Family) (unread : List Char) : (pending rest : List Char) → Prop where
  | all {rest : List Char} : Ends f unread unread rest
  | dropped {closing opening : Char} {pending rest : List Char}
      (hunread : unread = closing :: pending) (hopening : opensGroup f opening = true)
      (hclosing : opener? closing ≠ some opening) : Ends f unread pending (opening :: rest)

/-- The walk reads the brackets of what it takes. -/
theorem exists_walk_reads (f : Family) (pending text : List Char) :
    ∃ unread rest, text = (walk f pending text).taken ++ rest ∧
      unmatchedFrom f pending (walk f pending text).taken = some unread ∧
      Ends f unread (walk f pending text).pending rest := by
  induction text generalizing pending with
  | nil => exact ⟨pending, [], rfl, rfl, .all⟩
  | cons c left ih =>
    cases hstep : step f pending c left with
    | take next =>
      obtain ⟨unread, rest, htext, hread, hends⟩ := ih next
      rw [walk_cons_take hstep]
      refine ⟨unread, rest, congrArg (c :: ·) htext, ?_, hends⟩
      simpa [Walk.after, unmatchedFrom, readBracket_of_step hstep] using hread
    | stop next =>
      rw [walk_cons_stop hstep]
      refine ⟨pending, c :: left, rfl, rfl, ?_⟩
      rcases cases_of_step_stop hstep with rfl | ⟨closing, hpending, hopening, hclosing⟩
      · exact .all
      · exact .dropped hpending hopening hclosing

/-! ### The walk through less text -/

theorem EndsHere.append (h : EndsHere f pending c left) (more : List Char) :
    EndsHere f pending c (left ++ more) :=
  ⟨h.closes, h.opens, h.set, h.node, h.stops.imp_left fun htag => endsTag_append htag more⟩

/-- What the walk takes with more text left of it, it takes without. -/
theorem step_of_append (h : step f pending c (left ++ more) = .take pending') :
    step f pending c left = .take pending' := by
  by_cases hends : EndsHere f pending c (left ++ more)
  · rw [step_of_endsHere hends] at h
    cases h
  rw [step_of_not_endsHere hends] at h
  rwa [step_of_not_endsHere fun hshort => hends (hshort.append more)]

/-- A front part of what the walk takes is taken whole without the text left of it, and read. -/
theorem walk_of_taken (h : (walk f pending (cs ++ more)).taken = cs ++ ds) :
    ∃ unread, walk f pending cs = ⟨cs, unread⟩ ∧ unmatchedFrom f pending cs = some unread := by
  have htaken : (walk f pending cs).taken = cs := by
    induction cs generalizing pending with
    | nil => rfl
    | cons c cs ih =>
      cases hstep : step f pending c (cs ++ more) with
      | take next =>
        rw [List.cons_append, walk_cons_take hstep] at h
        rw [walk_cons_take (step_of_append hstep)]
        exact congrArg (c :: ·) (ih (List.cons.inj h).2)
      | stop next =>
        rw [List.cons_append, walk_cons_stop hstep] at h
        cases h
  obtain ⟨unread, rest, htext, hread, hends⟩ := exists_walk_reads f pending cs
  rw [htaken] at htext hread
  obtain rfl : rest = [] := by simpa using htext
  cases hends
  exact ⟨_, congrArg (Walk.mk · _) htaken, hread⟩

/-! ### The brackets of what a scan takes -/

/-- The text `span` that a scan takes: it stands right of `left`, where the scan stops, and ends
with what counts as typed. Without the operators at its front it is what the scan finds. -/
structure Consumed (line : String) (offset : Nat) (o : ScanOptions) (found : Found)
    (left span : List Char) : Prop where
  reach_eq : reach line.toList offset o = left ++ span
  taken_eq : (walk o.family [] (reach line.toList offset o).reverse).taken = span.reverse
  abbreviation_eq : found.abbreviation = String.ofList (span.dropWhile isJoining)
  start_eq : found.start = Text.bytes (left ++ span.takeWhile isJoining)

/-- A text with one closing bracket that has no partner, right of an opening bracket of another
kind. -/
inductive Mismatched : (left span : List Char) → Prop where
  | intro {front span : List Char} {opening closing : Char}
      (hspan : Unclosed .markup [closing] span) (hopening : opensGroup .markup opening = true)
      (hclosing : opener? closing ≠ some opening) : Mismatched (front ++ [opening]) span

variable {line : String} {offset : Nat} {o : ScanOptions} {found : Found} {span unread : List Char}

/-- What a scan takes if it finds something, with the closing brackets that are unmatched in it. The
scan keeps none of them. -/
theorem exists_consumed (h : find? line offset o = some found) :
    ∃ left span unread, Consumed line offset o found left span ∧
      unmatched o.family span = some unread ∧ Ends o.family unread [] left.reverse := by
  obtain ⟨⟨a, start⟩, hscan, rfl⟩ := Option.map_eq_some_iff.1 h
  obtain ⟨unread, rest, htext, hread, hends⟩ :=
    exists_walk_reads o.family [] (reach line.toList offset o).reverse
  simp only [scan] at hscan
  split at hscan
  · cases hscan
  next hw =>
  obtain ⟨hpending, -⟩ := not_or.1 hw
  rw [not_not.1 hpending] at hends
  generalize htaken : (walk o.family [] (reach line.toList offset o).reverse).taken = taken at *
  obtain ⟨ha, hstart⟩ : taken.reverse.dropWhile isJoining = a ∧ _ = start := by simpa using hscan
  have hreach : reach line.toList offset o = rest.reverse ++ taken.reverse := by
    rw [← List.reverse_append, ← htext, List.reverse_reverse]
  have hsplit : reach line.toList offset o =
      rest.reverse ++ taken.reverse.takeWhile isJoining ++ a := by
    rw [hreach, ← ha, List.append_assoc, List.takeWhile_append_dropWhile]
  refine ⟨rest.reverse, taken.reverse, unread, ⟨hreach, ?_, by rw [ha], ?_⟩, ?_, ?_⟩
  · rw [htaken, List.reverse_reverse]
  · change start = _
    rw [← hstart, ha, hsplit, Text.bytes, Text.size_append, Nat.add_sub_cancel]
  · rwa [unmatched, List.reverse_reverse]
  · rwa [List.reverse_reverse]

/-- Operators at the front are no brackets. -/
theorem unmatchedFrom_of_isJoining (f : Family) (hcs : ∀ c ∈ cs, isJoining c = true) :
    unmatchedFrom f pending cs = some pending := by
  have hchar : ∀ c, isJoining c = true →
      closesGroup f c = false ∧ opensGroup f c = false ∧ c ≠ '\x7d' := by
    intro c hc
    simp only [isJoining, Bool.or_eq_true, beq_iff_eq] at hc
    rcases hc with ((rfl | rfl) | rfl) | rfl <;> cases f <;> decide
  induction cs with
  | nil => rfl
  | cons c cs ih =>
    obtain ⟨hc, hcs⟩ := List.forall_mem_cons.1 hcs
    obtain ⟨hclose, hopen, hbrace⟩ := hchar c hc
    rw [unmatchedFrom, readBracket_of_not_group hclose hopen fun _ => hbrace, Option.bind_some,
      ih hcs]

/-- If all brackets match, a scan of the abbreviation alone finds all of it. -/
theorem Consumed.find?_abbreviation (h : Consumed line offset o found left span)
    (hmatched : Matched o.family span) (hne : found.abbreviation ≠ "") :
    find? found.abbreviation (Text.bytes found.abbreviation.toList) ⟨o.family, false⟩ =
      some ⟨found.abbreviation, 0⟩ := by
  have hspan : span.reverse = (span.dropWhile isJoining).reverse ++
      (span.takeWhile isJoining).reverse := by
    rw [← List.reverse_append, List.takeWhile_append_dropWhile]
  have htaken := h.taken_eq
  have habbreviation := h.abbreviation_eq
  have hidem : (span.dropWhile isJoining).dropWhile isJoining = span.dropWhile isJoining :=
    List.dropWhile_idempotent isJoining span
  generalize span.dropWhile isJoining = a at *
  rw [h.reach_eq, List.reverse_append, hspan, List.append_assoc] at htaken
  obtain ⟨unread, hwalk, hread⟩ := walk_of_taken htaken
  -- the operators leave the brackets as they are, so none is unmatched in the abbreviation either
  have hunread : unread = [] := by
    have hall := unmatched_eq_nil_iff.2 hmatched
    rw [unmatched, hspan, unmatchedFrom_append, hread, Option.bind_some,
      unmatchedFrom_of_isJoining] at hall
    · exact Option.some.inj hall
    · exact fun c hc => List.mem_takeWhile_imp (List.mem_reverse.1 hc)
  have hanil : a ≠ [] := by
    rintro rfl
    exact hne habbreviation
  have hscan := scan_end (o := ⟨o.family, false⟩) (hunread ▸ hwalk) (by simpa using hanil)
  rw [List.reverse_reverse, hidem, Nat.sub_self] at hscan
  rw [find?, habbreviation, String.toList_ofList, hscan]
  rfl

/-- In a style sheet every opening bracket is the partner of every closing one. -/
theorem opener?_of_stylesheet (hclose : closesGroup .stylesheet closing = true)
    (hopen : opensGroup .stylesheet c = true) : opener? closing = some c := by
  obtain rfl : closing = ')' := by simpa [closesGroup] using hclose
  obtain rfl : c = '(' := by simpa [opensGroup] using hopen
  rfl

/-- A bracket that the walk dropped stays without a partner, and this happens in markup only. -/
theorem mismatched_of_dropped {front : List Char} (hspan : Unclosed f [closing] span)
    (hopening : opensGroup f c = true) (hclosing : opener? closing ≠ some c) :
    f = .markup ∧ Mismatched (front ++ [c]) span := by
  cases f with
  | markup => exact ⟨rfl, .intro hspan hopening hclosing⟩
  | stylesheet =>
    exact absurd (opener?_of_stylesheet (hspan.all_close _ List.mem_cons_self) hopening) hclosing

/-- **The brackets of what a scan takes match**, or in markup the scan stops at an opening bracket
of another kind than the only closing bracket that is left over. If they match, scanning the
abbreviation again finds it whole. -/
theorem find?_brackets (h : find? line offset o = some found) :
    ∃ left span, Consumed line offset o found left span ∧
      (Matched o.family span ∨ o.family = .markup ∧ Mismatched left span) ∧
      (Matched o.family span → found.abbreviation ≠ "" →
        find? found.abbreviation (Text.bytes found.abbreviation.toList) ⟨o.family, false⟩ =
          some ⟨found.abbreviation, 0⟩) := by
  obtain ⟨left, span, unread, hconsumed, hread, hends⟩ := exists_consumed h
  refine ⟨left, span, hconsumed, ?_, hconsumed.find?_abbreviation⟩
  generalize hleft : left.reverse = rest at hends
  cases hends with
  | all => exact .inl (unmatched_eq_nil_iff.1 hread)
  | @dropped closing opening _ rest hunread hopening hclosing =>
    obtain rfl : left = rest.reverse ++ [opening] := by
      rw [← List.reverse_cons, ← hleft, List.reverse_reverse]
    rw [hunread, unmatched_eq_some_iff] at hread
    exact .inr (mismatched_of_dropped hread hopening hclosing)

/-- A text node with a bracket that does not count and a brace ahead of the cursor, behind a tag and
an operator; and a group that a square bracket does not close. -/
theorem find?_brackets_leftOver :
    let o : ScanOptions := ⟨.markup, true⟩
    let node : Found := ⟨"a{)}", 4⟩
    let group : Found := ⟨"a]", 1⟩
    find? "<p>*a{)}" 7 o = some node ∧ find? "(a]" 3 o = some group ∧
      (∃ left span, Consumed "<p>*a{)}" 7 o node left span ∧
        (Matched o.family span ∨ o.family = .markup ∧ Mismatched left span) ∧
        (Matched o.family span → node.abbreviation ≠ "" →
          find? node.abbreviation (Text.bytes node.abbreviation.toList) ⟨o.family, false⟩ =
            some ⟨node.abbreviation, 0⟩)) ∧
      ∃ left span, Consumed "(a]" 3 o group left span ∧
        (Matched o.family span ∨ o.family = .markup ∧ Mismatched left span) ∧
        (Matched o.family span → group.abbreviation ≠ "" →
          find? group.abbreviation (Text.bytes group.abbreviation.toList) ⟨o.family, false⟩ =
            some ⟨group.abbreviation, 0⟩) := by
  have hnode : find? "<p>*a{)}" 7 ⟨.markup, true⟩ = some ⟨"a{)}", 4⟩ := by decide +kernel
  have hgroup : find? "(a]" 3 ⟨.markup, true⟩ = some ⟨"a]", 1⟩ := by decide +kernel
  exact ⟨hnode, hgroup, find?_brackets hnode, find?_brackets hgroup⟩

end Emmet.Abbreviation
