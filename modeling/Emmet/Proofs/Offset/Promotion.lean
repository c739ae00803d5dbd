import Emmet.Completion.Candidate
import Emmet.Proofs.Offset.Checked
import Emmet.Proofs.Template.Final

/-!
# The final tab stop by offsets

The tab stops that become the final one are found with the places of their digits, and then the
digits are replaced in the text, from the right to the left: a place that is still to be replaced
stands left of all changes, so it stays where it was found.

* `Place`, `placesFrom` : tab stops with the places of their digits;
* `replaceDigits_placesFrom` : replacing the digits at the places of one number renumbers its tab
  stops;
* `promoteChars_eq`, `finish_eq` : the template of an expansion is finished without a fault.
-/

namespace Emmet.Checked

open Text Template

/-- A tab stop, and the offsets between which its digits stand. -/
structure Place where
  start : Nat
  stop : Nat
  target : Stop
  deriving DecidableEq, Repr

/-- The tab stop that an opener opens, if its digits start at an offset. -/
def placeAt (text : List Char) (start : Nat) (o : Opener) : Checked (Option Place) := do
  let stop := start + bytes o.digits
  match number? o.digits with
  | none => return none
  | some n =>
    if o.colon then
      let behind ← slice text (stop + 1) (bytes text)
      return some ⟨start, stop, n, behind.head? != some '\x7d'⟩
    else return some ⟨start, stop, n, false⟩

/-- The tab stops of a text from an offset on. -/
def places (text : List Char) : Bool → Nat → List Char → Checked (List Place)
  | _, _, [] => return []
  | escaped, offset, c :: cs => do
    if c = '$' ∧ escaped = false then
      let place ← match opener? cs with
        | some o => placeAt text (offset + 2) o
        | none => pure none
      return place.toList ++ (← places text false (offset + 1) cs)
    else places text (c == '\\') (offset + utf8 c) cs

/-- The text with something in place of what stands between two offsets. -/
def replaceRange (text : List Char) (start stop : Nat) (new : List Char) :
    Checked (List Char) := do
  let front ← slice text 0 start
  let _ ← slice text start stop
  let back ← slice text stop (bytes text)
  return front ++ (new ++ back)

/-- Turns the tab stops with the highest number into the final one. -/
def promoteChars (text : List Char) : Checked (List Char) := do
  if trim text = [] then return text
  else
    let places ← places text false 0 text
    if places.any fun p => p.target.number == 0 then return text
    else match (places.map fun p => p.target.number).max? with
      | none => return text
      | some top =>
        let highest := places.filter fun p => p.target.number == top
        if highest.any fun p => p.target.hasText then return text
        else highest.foldrM (fun p text => replaceRange text p.start p.stop ['0']) text

/-- The template that is inserted for an expansion. -/
def finish (expansion : String) : Checked String := do
  return escapeDollars (String.ofList (← promoteChars expansion.toList))

/-- The candidate that inserts an expansion. -/
def ofExpansion (label expansion detail : String) (range : Range) (kind : CandidateKind) :
    Checked Candidate := do
  let template ← finish expansion
  return {
    label := label
    template := template
    preview := preview expansion
    detail := detail
    range := range
    kind := kind }

/-! ### Places without checks -/

/-- The place of the tab stop that opens behind a dollar sign, if its digits start at an offset. -/
def place? (start : Nat) (cs : List Char) : Option Place :=
  (opener? cs).bind fun o => (number? o.digits).map fun n =>
    ⟨start, start + bytes o.digits, n, o.hasText⟩

/-- The places of the tab stops of a text from an offset on. -/
def placesFrom : Bool → Nat → List Char → List Place
  | _, _, [] => []
  | escaped, offset, c :: cs =>
    if c = '$' ∧ escaped = false then
      (place? (offset + 2) cs).toList ++ placesFrom false (offset + 1) cs
    else placesFrom (c == '\\') (offset + utf8 c) cs

variable {text pre : List Char}

theorem bytes_singleton (c : Char) : bytes [c] = utf8 c := rfl

theorem bytes_head (o : Opener) : bytes o.head = bytes o.digits + 2 := by
  have hsign : utf8 o.sign = 1 := by
    rcases o.sign_eq_or with h | h <;> rw [h] <;> rfl
  rw [Opener.head, ← List.singleton_append, bytes_append, bytes_append, bytes_singleton,
    bytes_singleton, hsign, show utf8 '\x7b' = 1 from rfl]
  omega

theorem placeAt_eq {o : Opener} (htext : text = pre ++ '$' :: (o.head ++ o.rest)) :
    placeAt text (bytes pre + 2) o = .ok ((number? o.digits).map fun n =>
      ⟨bytes pre + 2, bytes pre + 2 + bytes o.digits, n, o.hasText⟩) := by
  unfold placeAt
  cases number? o.digits with
  | none => rfl
  | some n =>
    have hback : slice text (bytes pre + 2 + bytes o.digits + 1) (bytes text) = .ok o.rest := by
      have hstop : bytes pre + 2 + bytes o.digits + 1 = bytes (pre ++ '$' :: o.head) := by
        rw [← List.singleton_append, bytes_append, bytes_append, bytes_head, bytes_singleton,
          show utf8 '$' = 1 from rfl]
        omega
      rw [hstop]
      exact slice_back (by rw [htext, List.append_assoc, List.cons_append])
    cases hcolon : o.colon with
    | true => simp [hback, Opener.hasText, hcolon]
    | false => simp [Opener.hasText, hcolon]

theorem places_eq (escaped : Bool) {cs : List Char} (htext : text = pre ++ cs) :
    places text escaped (bytes pre) cs = .ok (placesFrom escaped (bytes pre) cs) := by
  induction cs generalizing pre escaped with
  | nil => rfl
  | cons c cs ih =>
    have hnext : text = (pre ++ [c]) ++ cs := by rw [htext, List.append_assoc]; rfl
    have hbytes : bytes (pre ++ [c]) = bytes pre + utf8 c := bytes_append ..
    rw [places, placesFrom]
    split
    · next hc =>
      obtain ⟨rfl, rfl⟩ := hc
      have hrest := ih false hnext
      rw [hbytes, show utf8 '$' = 1 from rfl] at hrest
      rw [hrest, place?]
      cases ho : opener? cs with
      | none => rfl
      | some o =>
        have hcs := (opener?_eq_some_iff.1 ho).2
        simp only [placeAt_eq (htext.trans (by rw [← hcs])), ok_bind, Option.bind_some]
        rfl
    · have hrest := ih (c == '\\') hnext
      rwa [hbytes] at hrest

theorem map_target_place? (start : Nat) (cs : List Char) :
    (place? start cs).map Place.target = stop? cs := by
  rw [place?, stop?_eq_bind, Option.map_bind]
  congr 1
  funext o
  rw [Function.comp_apply, Option.map_map]
  rfl

theorem map_target_placesFrom (escaped : Bool) (offset : Nat) (cs : List Char) :
    (placesFrom escaped offset cs).map Place.target = stopsAfter escaped cs := by
  induction cs generalizing escaped offset with
  | nil => rfl
  | cons c cs ih =>
    rw [placesFrom, stopsAfter]
    split
    · rw [List.map_append, ih, ← Option.toList_map, map_target_place?]
    · exact ih _ _

theorem placesFrom_append {p : List Char} (hp : ∀ c ∈ p, IsPlain c) (offset : Nat)
    (cs : List Char) :
    placesFrom false offset (p ++ cs) = placesFrom false (offset + bytes p) cs := by
  induction p generalizing offset with
  | nil => rfl
  | cons c p ih =>
    obtain ⟨hc, hp⟩ := List.forall_mem_cons.1 hp
    rw [List.cons_append, placesFrom, if_neg fun h => hc.1 h.1, beq_false_of_ne hc.2, ih hp,
      Nat.add_assoc]
    rfl

/-! ### Replacing the digits -/

theorem replaceRange_eq {front old back : List Char} (htext : text = front ++ (old ++ back))
    (new : List Char) : replaceRange text (bytes front) (bytes front + bytes old) new =
      .ok (front ++ (new ++ back)) := by
  have hback : text = (front ++ old) ++ back := by rw [htext, List.append_assoc]
  rw [replaceRange, slice_front htext, ok_bind, ← bytes_append, slice_append htext, ok_bind,
    slice_back hback]
  rfl

/-- The digits of an opener are replaced by the number of the final tab stop. -/
theorem replaceRange_digits (pre : List Char) (o : Opener) (back : List Char) :
    replaceRange (pre ++ '$' :: (o.head ++ back)) (bytes pre + 2)
      (bytes pre + 2 + bytes o.digits) ['0'] = .ok (pre ++ '$' :: (o.final.head ++ back)) := by
  have hdigits : pre ++ '$' :: (o.head ++ back) =
      (pre ++ ['$', '\x7b']) ++ (o.digits ++ (o.sign :: back)) := by
    simp [Opener.head]
  have hstart : bytes pre + 2 = bytes (pre ++ ['$', '\x7b']) :=
    (bytes_append pre ['$', '\x7b']).symm
  have hfinal : o.final.head = '\x7b' :: (['0'] ++ [o.sign]) := rfl
  rw [hstart, replaceRange_eq hdigits, hfinal]
  simp

variable {n : Nat}

theorem placesFrom_head {o : Opener} (h : o.IsNumbered) (hn : number? o.digits = some n)
    (pre : List Char) : placesFrom false (bytes pre) ('$' :: (o.head ++ o.rest)) =
      ⟨bytes pre + 2, bytes pre + 2 + bytes o.digits, n, o.hasText⟩ ::
        placesFrom false (bytes (pre ++ '$' :: o.head)) o.rest := by
  have hbytes : bytes (pre ++ '$' :: o.head) = bytes pre + 1 + bytes o.head := by
    rw [← List.singleton_append, bytes_append, bytes_append, Nat.add_assoc]
    rfl
  rw [placesFrom, if_pos ⟨rfl, rfl⟩, place?, opener?_head h, Option.bind_some, hn,
    placesFrom_append h.isPlain, hbytes]
  rfl

/-- The places of the tab stops of one number. -/
def placesOf (n : Nat) (ps : List Place) : List Place := ps.filter fun p => p.target.number == n

theorem placesOf_placesFrom_cons {escaped : Bool} {c : Char} {cs : List Char}
    (hc : ¬(c = '$' ∧ escaped = false ∧ (stop? cs).map Stop.number = some n)) (offset : Nat) :
    placesOf n (placesFrom escaped offset (c :: cs)) =
      placesOf n (placesFrom (c == '\\') (offset + utf8 c) cs) := by
  rw [placesFrom]
  by_cases hdollar : c = '$' ∧ escaped = false
  · obtain ⟨rfl, rfl⟩ := hdollar
    have hother : placesOf n (place? (offset + 2) cs).toList = [] := by
      cases hplace : place? (offset + 2) cs with
      | none => rfl
      | some p =>
        have hne : p.target.number ≠ n := fun hn => hc ⟨rfl, rfl, by
          rw [← map_target_place? (offset + 2), hplace, Option.map_some, Option.map_some, hn]⟩
        simp [placesOf, hne]
    rw [if_pos ⟨rfl, rfl⟩, placesOf, List.filter_append, ← placesOf, hother]
    rfl
  · rw [if_neg hdollar]

/-- Replaces the digits at some places, the last ones first. -/
def replaceDigits (ps : List Place) (text : List Char) : Checked (List Char) :=
  ps.foldrM (fun p text => replaceRange text p.start p.stop ['0']) text

/-- What is replaced behind an offset leaves the text before it as it is. -/
theorem replaceDigits_placesFrom (n : Nat) (escaped : Bool) (cs : List Char) :
    ∀ pre, replaceDigits (placesOf n (placesFrom escaped (bytes pre) cs)) (pre ++ cs) =
      .ok (pre ++ renumberAfter n escaped cs) := by
  -- the digits behind are replaced first; `pre` then has the opener that was read
  induction escaped, cs using renumber_induction (n := n) with
  | nil escaped =>
    intro pre
    rw [(keepsDollars_renumber n).nil]
    rfl
  | head o h hn ih =>
    intro pre
    have hopen (back : List Char) :
        pre ++ '$' :: (o.head ++ back) = (pre ++ '$' :: o.head) ++ back := by
      rw [List.append_assoc, List.cons_append]
    have hrest := ih (pre ++ '$' :: o.head)
    rw [replaceDigits] at hrest ⊢
    rw [placesFrom_head h hn, placesOf, List.filter_cons_of_pos (by simp), ← placesOf,
      List.foldrM_cons, hopen, hrest, ok_bind, ← hopen, replaceRange_digits,
      renumberAfter_head h hn]
  | cons escaped c cs hc ih =>
    intro pre
    have hrest := ih (pre ++ [c])
    rw [bytes_append, bytes_singleton, List.append_assoc, List.append_assoc,
      List.singleton_append, List.singleton_append] at hrest
    rw [renumberAfter_cons hc, placesOf_placesFrom_cons hc, hrest]

theorem stopsAfter_eq_nil_of_trim {cs : List Char} (h : trim cs = []) :
    stopsAfter false cs = [] := by
  have hplain : ∀ c ∈ cs, IsPlain c := by
    intro c hc
    have hblank := trim_eq_nil_iff.1 h c hc
    constructor <;> rintro rfl <;> exact absurd hblank (by decide)
  have hstops := stopsAfter_append hplain []
  rwa [List.append_nil] at hstops

/-- **The final tab stop is found by offsets** as it is found on the list of characters. -/
theorem promoteChars_eq (cs : List Char) :
    promoteChars cs = .ok (Template.promoteChars cs) := by
  have hplaces : places cs false 0 cs = .ok (placesFrom false 0 cs) :=
    places_eq false (List.nil_append cs).symm
  have hstops := map_target_placesFrom false 0 cs
  have hreplace : ∀ n, replaceDigits (placesOf n (placesFrom false 0 cs)) cs =
      .ok (renumberAfter n false cs) := fun n => replaceDigits_placesFrom n false cs []
  generalize placesFrom false 0 cs = ps at *
  rw [promoteChars, Template.promoteChars]
  simp only [hplaces, ok_bind, ← hstops, List.map_map, List.any_map, List.any_filter]
  split
  · next hblank =>
    -- a blank text is not looked at, and there are no tab stops in it
    have hnone : ps = [] := by
      rw [stopsAfter_eq_nil_of_trim hblank, List.map_eq_nil_iff] at hstops
      exact hstops
    rw [hnone]
    rfl
  · cases hzero : ps.any fun p => p.target.number == 0 with
    | true =>
      have hzero' : ps.any ((fun s => s.number == 0) ∘ Place.target) = true := hzero
      simp only [if_true, hzero', Bool.true_or]
      split <;> rfl
    | false =>
      have hzero' : ps.any ((fun s => s.number == 0) ∘ Place.target) = false := hzero
      simp only [hzero', Bool.false_or, Bool.false_eq_true, if_false]
      have hnumber : (fun p : Place => p.target.number) = Stop.number ∘ Place.target := rfl
      rw [hnumber]
      cases (ps.map (Stop.number ∘ Place.target)).max? with
      | none => rfl
      | some top =>
        simp only [Function.comp_def]
        split
        · rfl
        · exact hreplace top

theorem finish_eq (expansion : String) : finish expansion = .ok (Template.finish expansion) := by
  rw [finish, promoteChars_eq]
  rfl

theorem ofExpansion_eq (label expansion detail : String) (range : Range) (kind : CandidateKind) :
    ofExpansion label expansion detail range kind =
      .ok (.ofExpansion label expansion detail range kind) := by
  rw [ofExpansion, finish_eq]
  rfl

end Emmet.Checked
