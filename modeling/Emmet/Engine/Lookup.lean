import Emmet.Engine.Basic

/-!
# Engines with fixed answers

A `Lookup` lists the expansions of some abbreviations and says what happens to the others.
`Lookup.engine` is the engine that answers so.
-/

namespace Emmet

/-- What happens to an abbreviation that is not listed. -/
inductive Fallback where
  /-- It has the empty expansion. -/
  | empty
  /-- It is repeated as an element or a property without content. -/
  | echo
  /-- It is refused. -/
  | refuse
  deriving DecidableEq, Repr

/-- How the abbreviation of a line is found. -/
inductive Finding where
  /-- By the scan to the left. -/
  | scan
  | never
  | always (found : Found)
  deriving DecidableEq, Repr

/-- The answers of an engine. -/
structure Lookup where
  /-- Abbreviations that are keys of the user's snippets expand to them. -/
  useSnippets : Bool := false
  /-- The expansions; an abbreviation without one cannot be parsed. -/
  expansions : Table (Option String) := []
  fallback : Fallback := .refuse
  finding : Finding := .scan
  keys : List String := []

namespace Lookup

/-- An abbreviation repeated as an element or a property, with a tab stop for its content. -/
def echo (abbreviation : String) (options : ExpansionOptions) : String :=
  let stop := options.output.field 1 ""
  match options.family with
  | .markup => "<" ++ abbreviation ++ ">" ++ stop ++ "</" ++ abbreviation ++ ">"
  | .stylesheet =>
    abbreviation ++ (options.output.string? "stylesheet.between").getD "" ++ stop ++
      (options.output.string? "stylesheet.after").getD ""

/-- The expansion of an abbreviation: a snippet of the user, a listed one, or the fallback. -/
def expand (l : Lookup) (abbreviation : String) (options : ExpansionOptions) :
    Except ExpansionError String :=
  let snippet := if l.useSnippets then
      options.snippets.bind fun snippets => Table.find? snippets abbreviation
    else none
  match snippet with
  | some text => .ok text
  | none =>
    match Table.find? l.expansions abbreviation with
    | some (some text) => .ok text
    | some none => .error (.unparseable abbreviation)
    | none =>
      match l.fallback with
      | .empty => .ok ""
      | .echo => .ok (echo abbreviation options)
      | .refuse => .error (.unsupported abbreviation)

/-- The engine with the listed answers. -/
def engine (l : Lookup) : Engine where
  expand := l.expand
  find line offset o :=
    match l.finding with
    | .scan => Abbreviation.find? line offset o
    | .never => none
    | .always found => some found
  snippetKeys _ := l.keys

end Lookup

end Emmet
