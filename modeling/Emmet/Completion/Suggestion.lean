import Emmet.Completion.Candidate
import Emmet.Engine.Basic
import Emmet.Text.Lower

/-!
# Suggestions by key

Keys are the names of tags and snippets. A key that goes on from what is typed is suggested with the
expansion of the abbreviation that typing the rest of the key would give: for the key `link` and the
abbreviation `ul>li` with `li` typed last, that is `ul>link`.
-/

namespace Emmet

/-- Something that comes up while completions are computed: a notice, or a question to an engine. -/
inductive Event where
  | notice (n : Notice)
  | expand (abbreviation : String) (options : ExpansionOptions)

/-- A computation that reports and asks an engine. -/
abbrev Asking := Traced Event

namespace Completion

/-- Reports something. -/
def report (n : Notice) : Asking Unit := Traced.emit (.notice n)

/-- A computation that only reports, among those that ask engines. -/
def reporting {α : Type} (x : Traced Notice α) : Asking α := x.mapEvents Event.notice

/-- Asks an engine for an expansion. -/
def ask (engine : Engine) (abbreviation : String) (options : ExpansionOptions) :
    Asking (Except ExpansionError String) :=
  ⟨engine.expand abbreviation options, [.expand abbreviation options]⟩

@[simp] theorem value_reporting {α : Type} (x : Traced Notice α) :
    (reporting x).value = x.value := rfl

@[simp] theorem value_ask (engine : Engine) (abbreviation : String) (options : ExpansionOptions) :
    (ask engine abbreviation options).value = engine.expand abbreviation options := rfl

/-- What keys are looked for, and how a candidate for a key looks. -/
structure Query where
  /-- What is typed of the key, in any letter case. -/
  typed : String
  /-- The abbreviation that the rest of the key is added to. -/
  abbreviation : String
  range : Range
  detail : String
  kind : CandidateKind
  /-- A key that is typed in full is left out. -/
  skipFull : Bool

/-- The rest of a key behind what is typed; none if the key is not suggested. -/
def Query.restOf? (q : Query) (key : String) : Option String :=
  match (Text.lower q.typed.toList).isPrefixOf? key.toList with
  | some rest => if q.skipFull ∧ rest = [] then none else some (String.ofList rest)
  | none => none

/-- The candidate for a key; none if the key is not suggested or expands to nothing. -/
def suggest (engine : Engine) (q : Query) (options : ExpansionOptions) (key : String) :
    Asking (Option Candidate) :=
  match q.restOf? key with
  | none => pure none
  | some rest => do
    let abbreviation := q.abbreviation ++ rest
    match ← ask engine abbreviation options with
    | .ok expansion =>
      if expansion = "" then return none
      else return some (.ofExpansion (q.typed ++ rest) expansion q.detail q.range q.kind)
    | .error e => do
      report (.suggestionFailed abbreviation e)
      return none

/-- The candidates for all keys that go on from what is typed; none if nothing is typed. -/
def suggestions (engine : Engine) (keys : List String) (q : Query) (options : ExpansionOptions) :
    Asking (List Candidate) :=
  if q.typed = "" then pure [] else Traced.filterMap (suggest engine q options) keys

end Completion

end Emmet
