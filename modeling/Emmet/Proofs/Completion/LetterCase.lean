import Emmet.Engine.Lookup
import Emmet.Proofs.Completion.Shape
import Emmet.Proofs.Text.LowerCase

/-!
# Keys with capital letters

What is typed of a key is lower-cased before keys are looked for, so its letter case does not
matter. The keys are not lower-cased. This file compares what is suggested with what would be
suggested if letter case did not matter at all.

* `Query.Matches`, `Query.remainder` : a key goes on from what is typed, and what is left of it;
* `Query.candidate?` : the candidate for a key if letter case does not matter;
* `keyCandidate?_eq` : just keys that start in lower case get it;
* `suggestions_eq_filter` : these are all suggestions, and no key is lost iff no other key would get
  a candidate.
-/

namespace Emmet.Completion

open Text (lower IsLower)

/-! ### Keys without letter case -/

/-- A key goes on from what is typed, whatever the letter case of the two. A key that is typed in
full may be left out. -/
def Query.Matches (q : Query) (key : String) : Prop :=
  lower q.typed.toList <+: lower key.toList ∧
    (q.skipFull = true → lower key.toList ≠ lower q.typed.toList)

instance (q : Query) (key : String) : Decidable (q.Matches key) :=
  inferInstanceAs (Decidable (_ ∧ _))

/-- The rest of a text behind the characters that a number of lower-case characters come from. -/
def behindLower : List Char → Nat → List Char
  | [], _ => []
  | c :: cs, n => if n = 0 then c :: cs else behindLower cs (n - (Text.lowerChar c).length)

/-- What is left of a key behind what is typed. -/
def Query.remainder (q : Query) (key : String) : String :=
  String.ofList (behindLower key.toList (lower q.typed.toList).length)

/-- The candidate for a key if letter case does not matter; none if the key does not go on from what
is typed, or if nothing is expanded. -/
def Query.candidate? (q : Query) (engine : Engine) (options : ExpansionOptions) (key : String) :
    Option Candidate :=
  if q.Matches key then
    match engine.expand (q.abbreviation ++ q.remainder key) options with
    | .ok expansion =>
      if expansion = "" then none
      else some (.ofExpansion (q.typed ++ q.remainder key) expansion q.detail q.range q.kind)
    | .error _ => none
  else none

/-- A key starts with what is typed, in lower case. -/
def Query.StartsLower (q : Query) (key : String) : Prop := lower q.typed.toList <+: key.toList

instance (q : Query) (key : String) : Decidable (q.StartsLower key) :=
  inferInstanceAs (Decidable (_ <+: _))

/-! ### Keys that start in lower case -/

variable {engine : Engine} {q : Query} {options : ExpansionOptions} {key : String}
  {rest : List Char}

theorem behindLower_append {cs : List Char} (h : ∀ c ∈ cs, IsLower c) (rest : List Char) :
    behindLower (cs ++ rest) cs.length = rest := by
  induction cs with
  | nil =>
    cases rest with
    | nil => rfl
    | cons c rest => exact if_pos rfl
  | cons c cs ih =>
    obtain ⟨hc, hcs⟩ := List.forall_mem_cons.1 h
    have hone : (Text.lowerChar c).length = 1 := congrArg List.length hc
    rw [List.length_cons, List.cons_append, behindLower, if_neg (Nat.succ_ne_zero _), hone]
    exact ih hcs

/-- What is left of such a key is what follows. -/
theorem remainder_of_append (h : key.toList = lower q.typed.toList ++ rest) :
    q.remainder key = String.ofList rest := by
  rw [Query.remainder, h, behindLower_append fun c hc => Text.isLower_of_mem_lower hc]

/-- Such a key goes on from what is typed unless it is typed in full and left out. -/
theorem matches_iff_of_append (h : key.toList = lower q.typed.toList ++ rest) :
    q.Matches key ↔ ¬ (q.skipFull = true ∧ rest = []) := by
  have hlower : lower key.toList = lower q.typed.toList ++
      Text.lowerAfter ((lower q.typed.toList).reverse ++ []) rest := by
    rw [h]
    exact Text.lowerAfter_append (fun c hc => Text.isLower_of_mem_lower hc) [] rest
  have hfull : lower key.toList = lower q.typed.toList ↔ rest = [] := by
    rw [hlower, List.append_right_eq_self, Text.lowerAfter_eq_nil_iff]
  rw [Query.Matches, ne_eq, hfull, not_and]
  exact and_iff_right ⟨_, hlower.symm⟩

theorem restOf?_of_append (h : key.toList = lower q.typed.toList ++ rest) :
    q.restOf? key = if q.Matches key then some (q.remainder key) else none := by
  unfold Query.restOf?
  rw [List.isPrefixOf?_eq_some_iff_append_eq.2 h.symm, remainder_of_append h]
  by_cases hfull : q.skipFull = true ∧ rest = []
  · rw [if_neg fun hmatches => (matches_iff_of_append h).1 hmatches hfull]
    exact if_pos hfull
  · rw [if_pos ((matches_iff_of_append h).2 hfull)]
    exact if_neg hfull

theorem restOf?_eq_none (h : ¬ q.StartsLower key) : q.restOf? key = none :=
  Option.eq_none_iff_forall_ne_some.2 fun rest hrest =>
    h ⟨rest.toList, (restOf?_eq_some hrest).1.symm⟩

/-- Just keys that start in lower case get the candidate that they would get without letter case. -/
theorem keyCandidate?_eq (engine : Engine) (q : Query) (options : ExpansionOptions) (key : String) :
    keyCandidate? engine q options key =
      if q.StartsLower key then q.candidate? engine options key else none := by
  unfold keyCandidate?
  by_cases hstarts : q.StartsLower key
  · obtain ⟨rest, hrest⟩ := id hstarts
    rw [if_pos hstarts, restOf?_of_append hrest.symm, Query.candidate?]
    split
    · rfl
    · rfl
  · rw [if_neg hstarts, restOf?_eq_none hstarts, Option.bind_none]

/-! ### Lost keys -/

/-- Nothing that a function gives is lost with the elements that are filtered out iff it gives
nothing for them. -/
theorem filterMap_filter_eq_iff {α β : Type} {p : α → Bool} {f : α → Option β} {as : List α} :
    (as.filter p).filterMap f = as.filterMap f ↔ ∀ a ∈ as, (f a).isSome = true → p a = true := by
  induction as with
  | nil => exact iff_of_true rfl nofun
  | cons a as ih =>
    rw [List.forall_mem_cons, ← ih, List.filterMap_cons]
    cases hp : p a with
    | true =>
      rw [List.filter_cons_of_pos hp, List.filterMap_cons, and_iff_right fun _ => rfl]
      cases f a with
      | none => rfl
      | some b => exact List.cons_inj_right b
    | false =>
      rw [List.filter_cons_of_neg (by simp [hp])]
      cases f a with
      | none => exact (and_iff_right nofun).symm
      | some b =>
        -- what is left after filtering is too short
        refine iff_of_false (fun h => ?_) fun h => Bool.false_ne_true (h.1 rfl)
        have hlength := congrArg List.length h
        have hle := (List.filter_sublist (p := p) (l := as)).filterMap f |>.length_le
        simp only [List.length_cons] at hlength
        omega

/-- **Suggestions are lost with capital letters.** What is suggested for keys, in their order, are
the candidates that they would get if letter case did not matter, but only of the keys that start
with what is typed in lower case. So nothing is lost just if all keys with such a candidate start
so. -/
theorem suggestions_eq_filter (htyped : q.typed ≠ "") (keys : List String) :
    (suggestions engine keys q options).value =
        (keys.filter fun key => q.StartsLower key).filterMap (q.candidate? engine options) ∧
      ((suggestions engine keys q options).value = keys.filterMap (q.candidate? engine options) ↔
        ∀ key ∈ keys, (q.candidate? engine options key).isSome = true → q.StartsLower key) := by
  have hvalue : (suggestions engine keys q options).value =
      (keys.filter fun key => q.StartsLower key).filterMap (q.candidate? engine options) := by
    rw [value_suggestions, keyCandidates, if_neg htyped, List.filterMap_filter]
    refine List.filterMap_congr fun key _ => ?_
    rw [keyCandidate?_eq]
    simp only [decide_eq_true_eq]
  refine ⟨hvalue, ?_⟩
  rw [hvalue, filterMap_filter_eq_iff]
  simp only [decide_eq_true_eq]

/-- An engine that knows one tag, in two letter cases. -/
def linkOnly : Engine :=
  Lookup.engine {
    expansions := [("link", some "<link>$\x7b1\x7d</link>"),
      ("LInk", some "<LInk>$\x7b1\x7d</LInk>")] }

/-- A query for the keys that go on from some letters. -/
def lettersQuery (letters : String) : Query :=
  ⟨letters, letters, Range.onLine 0 0 2, snippetDetail, .snippet, true⟩

/-- The key `Link` goes on from `li`, and the engine has an expansion of `link`, but nothing is
suggested. -/
theorem suggestions_lose_capitalLink :
    let options := (ExpansionOptions.resolve "html" {} none {}).value
    (lettersQuery "li").typed ≠ "" ∧ (lettersQuery "li").Matches "Link" ∧
      linkOnly.expand "link" options = .ok "<link>$\x7b1\x7d</link>" ∧
      (suggestions linkOnly ["Link"] (lettersQuery "li") options).value = [] ∧
      (["Link"].filterMap ((lettersQuery "li").candidate? linkOnly options)).map Candidate.label =
        ["link"] :=
  ⟨by decide, by decide +kernel, rfl, by decide +kernel, by decide +kernel⟩

/-- Capitals may be typed: `LI` goes on to `link`. Only the key with a capital is lost. -/
theorem suggestions_eq_filter_capitals :
    let options := (ExpansionOptions.resolve "html" {} none {}).value
    let q := lettersQuery "LI"
    let keys := ["li", "link", "Link"]
    q.typed ≠ "" ∧
      (suggestions linkOnly keys q options).value.map Candidate.label = ["LInk"] ∧
      (suggestions linkOnly keys q options).value ≠
        keys.filterMap (q.candidate? linkOnly options) := by
  intro options q keys
  have htyped : q.typed ≠ "" := by decide
  obtain ⟨hvalue, hall⟩ := @suggestions_eq_filter linkOnly q options htyped keys
  refine ⟨htyped, ?_, fun h => ?_⟩
  · rw [hvalue]
    decide +kernel
  · have hsome : (q.candidate? linkOnly options "Link").isSome = true := by decide +kernel
    have hcapital : ¬ q.StartsLower "Link" := by decide +kernel
    exact hcapital (hall.1 h "Link" (by decide) hsome)

end Emmet.Completion
