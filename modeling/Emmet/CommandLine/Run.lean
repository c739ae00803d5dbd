import Emmet.Abbreviation.Extract
import Emmet.Abbreviation.Validity
import Emmet.Completion.Candidate
import Emmet.CommandLine.Arguments
import Emmet.Engine.Basic
import Emmet.Json.Printer
import Emmet.Library.Loading
import Emmet.Settings.Profile

/-!
# The program

`run` carries out a command and says what the program prints and how it ends: with code 0 if there
is a result, 1 if nothing was found, and 2 if something went wrong.
-/

namespace Emmet.CommandLine

/-- The name and the version of the program. -/
def versionLine : String := "emmet-assist 0.1.0"

/-- How the program ends. -/
inductive ExitCode where
  | success
  | nothingFound
  | failure
  deriving DecidableEq, Repr

/-- The number of an exit code. -/
def ExitCode.toNat : ExitCode → Nat
  | success => 0
  | nothingFound => 1
  | failure => 2

/-- What the program does. -/
structure Outcome where
  code : ExitCode
  output : String := ""
  /-- What went wrong, and why. -/
  problem : Option (String × String) := none
  deriving DecidableEq, Repr

/-- Some lines, each with its end. -/
def linesOf (ls : List String) : String := String.join (ls.map (· ++ "\n"))

/-- The abbreviation that was found, in words. -/
def extractionLines (e : Extraction) : List String :=
  ["abbreviation: " ++ e.abbreviation,
    "columns: " ++ toString e.range.start.column ++ ".." ++ toString e.range.stop.column] ++
    (Filter.joined? e.filters).toList.map ("filter: " ++ ·)

/-- The abbreviation that was found, as JSON. -/
def extractionJson (e : Extraction) : Json := .object [
  ("abbreviation", .string e.abbreviation),
  ("filter", Json.ofString? (Filter.joined? e.filters)),
  ("range", e.range.toJson)]

/-- Finds the abbreviation of a line. -/
def runExtract (line : String) (column : Option Nat) (dialect : String) (json : Bool) :
    Traced Notice Outcome := do
  let found ← Extraction.ofLine Engine.scanOnly.find line ⟨0, column.getD line.toList.length⟩
    (.forFamily (Dialect.family dialect)) Filter.defaultLimit
  return match found, json with
    | none, true => { code := .nothingFound }
    | none, false => { code := .nothingFound, output := linesOf ["No abbreviation found"] }
    | some e, true => { code := .success, output := linesOf [(extractionJson e).compact] }
    | some e, false => { code := .success, output := linesOf (extractionLines e) }

/-- Tells whether a text is a plausible abbreviation. -/
def runValidate (dialect abbreviation : String) (explain : Bool) : Outcome :=
  let decision := Abbreviation.decideBy (Dialect.family dialect) abbreviation.toList
  let verdict := if decision.valid then "valid" else "invalid"
  { code := if decision.valid then .success else .nothingFound
    output := linesOf [if explain then verdict ++ " (" ++ decision.rule ++ ")" else verdict] }

/-- Gives the dialect of a language. -/
def runMode (language : String) (excluded : List String) : Outcome :=
  match Dialect.ofLanguage? language excluded with
  | some dialect => { code := .success, output := linesOf [dialect] }
  | none =>
    { code := .nothingFound, output := linesOf ["No Emmet syntax for '" ++ language ++ "'"] }

/-- Gives a profile current names and values. -/
def runProfile (json : String) : Traced Notice Outcome :=
  match Json.parse json.toList with
  | .ok profile => do
    let current ← Profile.modernize profile
    return { code := .success, output := linesOf [(Json.object current).pretty] }
  | .error _ =>
    pure { code := .failure, problem := some ("Profile must be valid JSON", "<json>") }

/-- A text with blanks behind it up to a width. -/
def padded (width : Nat) (s : String) : String :=
  s ++ String.ofList (List.replicate (width - s.toList.length) ' ')

/-- A library in words. -/
def libraryLines (directory : String) (l : Library) : List String :=
  ["Loaded " ++ directory, "variables: " ++ toString l.bindings.length] ++
    l.snippetsByName.map (fun e =>
      "  " ++ padded 10 e.1 ++ " " ++ toString e.2.length ++ " snippets") ++
    (if l.profiles.isEmpty then []
      else ["profiles: " ++ ", ".intercalate (Table.keys l.profiles)])

/-- Loads the library of a directory and sums it up. -/
def runCustomizations (fs : FileSystem) (directory : String) : Traced Notice Outcome := do
  match ← Library.load fs directory with
  | .ok l => return { code := .success, output := linesOf (libraryLines directory l) }
  | .error e =>
    return {
      code := .failure
      problem := some ("Failed to load customizations from " ++ directory, e.message) }

/-- Carries out a command. -/
def run (fs : FileSystem) : Command → Traced Notice Outcome
  | .extract line column dialect json => runExtract line column dialect json
  | .validate dialect abbreviation explain => pure (runValidate dialect abbreviation explain)
  | .mode language excluded => pure (runMode language excluded)
  | .profile json => runProfile json
  | .customizations directory => runCustomizations fs directory

/-- How the arguments are written. -/
def usage : List String := [
  "Usage: emmet-assist [-v] COMMAND",
  "",
  "Commands:",
  "  extract LINE [-c COLUMN] [-s SYNTAX] [--json]",
  "  validate SYNTAX ABBREVIATION [--explain]",
  "  mode LANGUAGE [-e LANGUAGE]...",
  "  profile JSON",
  "  customizations DIRECTORY"]

/-- The outcome of a request, the notices to show, and whether usage is to be explained. -/
structure Ending where
  outcome : Outcome
  /-- The notices that are shown. -/
  notices : List Notice := []
  /-- The arguments do not fit together. -/
  misused : Bool := false

/-- The files whose content a request depends on. -/
def filesOf (args : List String) : List String :=
  match Request.parse args with
  | .ok ⟨.customizations directory, _⟩ =>
    [Path.join directory Library.snippetsFile, Path.join directory Library.profilesFile]
  | _ => []

/-- How the program ends when there is no command to carry out. -/
def Stop.ending : Stop → Ending
  | help => { outcome := { code := .success, output := linesOf usage } }
  | version => { outcome := { code := .success, output := linesOf [versionLine] } }
  | misuse => { outcome := { code := .failure }, misused := true }

/-- Runs the program on its arguments. Notices below a warning are shown only if asked for. -/
def runArguments (fs : FileSystem) (args : List String) : Ending :=
  match Request.parse args with
  | .error reason => reason.ending
  | .ok request =>
    let result := run fs request.command
    { outcome := result.value
      notices := result.events.filter fun n => request.verbose || n.level == .warn }

end Emmet.CommandLine
