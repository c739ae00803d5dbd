import Emmet.Text.Blank

/-!
# Lines and fields of a text

`lines` breaks a text at its line feeds, `splitOnce` at the first separator. The fields of a comma
list are trimmed.
-/

namespace Emmet.Text

/-- Removes a carriage return that stands at the end of a reversed line. -/
def dropReturn : List Char → List Char
  | '\r' :: before => before
  | before => before

/-- The lines of a text, after a line whose characters so far are given in reverse. -/
def linesAfter : List Char → List Char → List (List Char)
  | [], [] => []
  | before, [] => [before.reverse]
  | before, c :: cs =>
    if c = '\n' then (dropReturn before).reverse :: linesAfter [] cs
    else linesAfter (c :: before) cs

/-- The lines of a text. A line ends at a line feed, with one carriage return before it belonging
to the line end; a text that ends with a line feed has no empty line after it. -/
def lines (cs : List Char) : List (List Char) := linesAfter [] cs

/-- The text before the first separator and the text after it. -/
def splitOnce (sep : Char) : List Char → Option (List Char × List Char)
  | [] => none
  | c :: cs =>
    if c = sep then some ([], cs) else (splitOnce sep cs).map fun p => (c :: p.1, p.2)

/-- The trimmed fields of a comma list. -/
def commaFields (cs : List Char) : List (List Char) := (cs.splitOn ',').map trim

theorem splitOnce_eq_some {sep : Char} {cs before after : List Char}
    (h : splitOnce sep cs = some (before, after)) :
    cs = before ++ sep :: after ∧ sep ∉ before := by
  induction cs generalizing before with
  | nil => simp [splitOnce] at h
  | cons c cs ih =>
    simp only [splitOnce] at h
    split at h
    · next hc =>
      obtain ⟨rfl, rfl⟩ := by simpa using h
      simp [hc]
    · next hc =>
      obtain ⟨⟨b, a⟩, hp, heq⟩ := Option.map_eq_some_iff.1 h
      obtain ⟨rfl, rfl⟩ := by simpa using heq
      obtain ⟨h1, h2⟩ := ih hp
      exact ⟨by simp [h1], by simp [h2, Ne.symm hc]⟩

theorem splitOnce_append {sep : Char} {before : List Char} (h : sep ∉ before)
    (after : List Char) : splitOnce sep (before ++ sep :: after) = some (before, after) := by
  induction before with
  | nil => simp [splitOnce]
  | cons c before ih =>
    obtain ⟨hc, hbefore⟩ := List.ne_and_not_mem_of_not_mem_cons h
    rw [List.cons_append, splitOnce, if_neg (Ne.symm hc), ih hbefore]
    rfl

theorem splitOnce_eq_none_iff {sep : Char} {cs : List Char} :
    splitOnce sep cs = none ↔ sep ∉ cs := by
  induction cs with
  | nil => simp [splitOnce]
  | cons c cs ih =>
    rw [splitOnce, List.mem_cons]
    split
    · next hc => simp [hc]
    · next hc => simp [ih, Ne.symm hc]

/-- A part of a text without separators is a field if separators stand at its two ends, or the ends
of the text. -/
theorem mem_splitOn_iff {sep : Char} {cs field : List Char} : field ∈ cs.splitOn sep ↔
    sep ∉ field ∧ ∃ before after, cs = before ++ (field ++ after) ∧
      (∀ c ∈ before.getLast?, c = sep) ∧ ∀ c ∈ after.head?, c = sep := by
  constructor
  · intro h
    -- on the length, since a whole field is passed in one step
    induction hlength : cs.length using Nat.strongRecOn generalizing cs with
    | _ n ih =>
      by_cases hsep : sep ∈ cs
      · obtain ⟨first, rest, rfl, hfirst⟩ := List.eq_append_cons_of_mem hsep
        rw [List.splitOn_append_cons_self_of_not_mem hfirst, List.mem_cons] at h
        rcases h with rfl | h
        · exact ⟨hfirst, [], sep :: rest, rfl, by simp, by simp⟩
        · have hlt : rest.length < n := by
            rw [← hlength, List.length_append, List.length_cons]
            omega
          obtain ⟨hfield, before, after, rfl, hbefore, hafter⟩ := ih _ hlt h rfl
          refine ⟨hfield, first ++ sep :: before, after, by simp, ?_, hafter⟩
          cases before with
          | nil => simp
          | cons b before => simpa using hbefore
      · rw [List.splitOn_eq_singleton hsep, List.mem_singleton] at h
        exact ⟨h ▸ hsep, [], [], by simp [h], by simp, by simp⟩
  · rintro ⟨hfield, before, after, rfl, hbefore, hafter⟩
    have hback : field ∈ (field ++ after).splitOn sep := by
      cases after with
      | nil => rw [List.append_nil, List.splitOn_eq_singleton hfield]; exact List.mem_cons_self
      | cons c after =>
        obtain rfl := hafter c rfl
        rw [List.splitOn_append_cons_self_of_not_mem hfield]
        exact List.mem_cons_self
    rcases List.eq_nil_or_concat before with rfl | ⟨front, c, rfl⟩
    · exact hback
    · obtain rfl := hbefore c (by simp)
      rw [List.concat_eq_append, List.append_assoc, List.singleton_append,
        List.splitOn_append_cons_self]
      exact List.mem_append_right _ hback

end Emmet.Text
