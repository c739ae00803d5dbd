import Emmet.Text.Numeral

/-!
# Arguments of the command line

`Request.parse` reads the arguments of the program: flags, a command, and then the positional
arguments and the options of the command, in any order. An option is written `--name value`,
`--name=value`, `-n value` or `-nvalue`; flags of one letter may be joined. What follows `--` is
positional. A value in an argument of its own does not start with a hyphen.

Arguments are taken from the left and each counts as soon as it is read. So the first one that asks
for help, asks for the version or does not fit decides, whatever stands after it.
-/

namespace Emmet.CommandLine

/-- What the program is asked to do. -/
inductive Command where
  /-- Find the abbreviation that ends at a column of a line, or at its end. -/
  | extract (line : String) (column : Option Nat) (dialect : String) (json : Bool)
  /-- Tell whether a text is a plausible abbreviation. -/
  | validate (dialect abbreviation : String) (explain : Bool)
  /-- Give the dialect of a language. -/
  | mode (language : String) (excluded : List String)
  /-- Give a profile current names and values. -/
  | profile (json : String)
  /-- Load the library of a directory and sum it up. -/
  | customizations (directory : String)
  deriving DecidableEq, Repr

/-- A command to carry out. -/
structure Request where
  command : Command
  verbose : Bool
  deriving DecidableEq, Repr

/-- Why arguments name no command to carry out. -/
inductive Stop where
  | help
  | version
  /-- The arguments do not fit together. -/
  | misuse
  deriving DecidableEq, Repr

/-! ### Options -/

/-- What an option does where it stands. -/
inductive Effect where
  /-- It switches something on; it stands once. -/
  | flag
  /-- It has a value that fits; it stands once. -/
  | value (fits : String → Bool)
  /-- It has a value, and it may stand more than once. -/
  | values
  /-- It ends the reading. -/
  | stop (reason : Stop)

/-- An option. -/
structure Choice where
  long : String
  short : Option Char
  effect : Effect

/-- Whether an option has a value. -/
def Choice.takesValue (o : Choice) : Bool :=
  match o.effect with
  | .value _ => true
  | .values => true
  | .flag => false
  | .stop _ => false

/-- What was given so far. -/
structure Given where
  flags : List String := []
  /-- The options that have a value, with the value. -/
  values : List (String × String) := []
  positionals : List String := []
  deriving DecidableEq, Repr

namespace Given

/-- Whether a flag is given. -/
def hasFlag (g : Given) (long : String) : Bool := g.flags.contains long

/-- The value of an option that stands once. -/
def value? (g : Given) (long : String) : Option String := g.values.lookup long

/-- The values of an option, in order. -/
def valuesOf (g : Given) (long : String) : List String :=
  (g.values.filter fun v => v.1 == long).map Prod.snd

/-- Takes an option that stands without a value. -/
def takeFlag (g : Given) (o : Choice) : Except Stop Given :=
  match o.effect with
  | .stop reason => .error reason
  | .flag =>
    if g.hasFlag o.long then .error .misuse else .ok { g with flags := g.flags ++ [o.long] }
  | .value _ => .error .misuse
  | .values => .error .misuse

/-- Takes an option and its value. -/
def takeValue (g : Given) (o : Choice) (text : String) : Except Stop Given :=
  let more : Given := { g with values := g.values ++ [(o.long, text)] }
  match o.effect with
  | .value fits => if fits text && (g.value? o.long).isNone then .ok more else .error .misuse
  | .values => .ok more
  | .flag => .error .misuse
  | .stop _ => .error .misuse

end Given

/-! ### Reading options -/

/-- A step of the reading: what was given after it, and the arguments that are left. -/
abbrev Step := Except Stop (Given × List String)

/-- Whether an argument may be the value of the option before it. -/
def isValue (text : String) : Bool := text == "-" || text.toList.head? != some '-'

/-- Takes an option with the next argument as its value. -/
def takeNext (g : Given) (o : Choice) : List String → Step
  | [] => .error .misuse
  | text :: rest =>
    if isValue text then (g.takeValue o text).map fun g => (g, rest) else .error .misuse

/-- Takes the letters of an argument with one hyphen, one after the other. What stands after the
letter of an option with a value is the value; an equals sign may stand between them. -/
def takeLetters (choices : List Choice) (g : Given) : List Char → List String → Step
  | [], rest => .ok (g, rest)
  | c :: cs, rest =>
    match choices.find? fun o => o.short == some c with
    | none => .error .misuse
    | some o =>
      if o.takesValue then
        match cs with
        | [] => takeNext g o rest
        | '=' :: value => (g.takeValue o (String.ofList value)).map fun g => (g, rest)
        | value => (g.takeValue o (String.ofList value)).map fun g => (g, rest)
      else do
        let g ← g.takeFlag o
        takeLetters choices g cs rest

/-- Splits a text at its first equals sign. -/
def splitEquals : List Char → List Char × Option (List Char)
  | [] => ([], none)
  | c :: cs =>
    if c = '=' then ([], some cs) else ((c :: (splitEquals cs).1), (splitEquals cs).2)

/-- Takes the name of an argument with two hyphens. -/
def takeName (choices : List Choice) (g : Given) (text : List Char) (rest : List String) : Step :=
  let (name, value) := splitEquals text
  match choices.find? fun o => o.long == String.ofList name with
  | none => .error .misuse
  | some o =>
    match o.takesValue, value with
    | true, some value => (g.takeValue o (String.ofList value)).map fun g => (g, rest)
    | true, none => takeNext g o rest
    | false, some _ => .error .misuse
    | false, none => (g.takeFlag o).map fun g => (g, rest)

/-! ### The commands -/

/-- The flag for more notices, which stands before or after a command. -/
def verboseChoice : Choice := ⟨"verbose", some 'v', .flag⟩

/-- The option for help, which stands before or after a command. -/
def helpChoice : Choice := ⟨"help", some 'h', .stop .help⟩

/-- The option for the version, which stands before a command. -/
def versionChoice : Choice := ⟨"version", some 'V', .stop .version⟩

/-- The options that stand before a command. -/
def commonChoices : List Choice := [verboseChoice, helpChoice, versionChoice]

/-- A column: a number of 32 bits. -/
def column? (text : String) : Option Nat :=
  match Text.integer? text.toList with
  | some n => if 0 ≤ n ∧ n < UInt32.size then some n.toNat else none
  | none => none

/-- The arguments that a command has. -/
structure Signature where
  /-- The options besides those of every command. -/
  own : List Choice := []
  /-- How many positional arguments there are. -/
  arity : Nat := 1
  /-- Whether a positional argument fits. -/
  fits : String → Bool := fun _ => true

namespace Signature

/-- All options of a command. -/
def choices (s : Signature) : List Choice := s.own ++ [verboseChoice, helpChoice]

/-- The signature of a command; none if there is no such command. -/
def ofName? (name : String) : Option Signature :=
  if name = "extract" then some
    { own := [⟨"column", some 'c', .value fun text => (column? text).isSome⟩,
        ⟨"syntax", some 's', .value fun _ => true⟩, ⟨"json", none, .flag⟩] }
  else if name = "validate" then some { own := [⟨"explain", none, .flag⟩], arity := 2 }
  else if name = "mode" then some { own := [⟨"exclude", some 'e', .values⟩] }
  else if name = "profile" then some {}
  else if name = "customizations" then some { fits := fun text => text != "" }
  else none

/-- Takes a positional argument. -/
def takePositional (s : Signature) (g : Given) (text : String) : Except Stop Given :=
  if g.positionals.length < s.arity ∧ s.fits text then
    .ok { g with positionals := g.positionals ++ [text] }
  else .error .misuse

/-- Takes the arguments of a command; the fuel is their number. -/
def takeAll (s : Signature) : Nat → Given → List String → Except Stop Given
  | _, g, [] => .ok g
  | 0, _, _ :: _ => .error .misuse
  | fuel + 1, g, text :: rest =>
    match text.toList with
    | ['-', '-'] => rest.foldlM s.takePositional g
    | '-' :: '-' :: name => do
      let (g, rest) ← takeName s.choices g name rest
      takeAll s fuel g rest
    | '-' :: c :: cs => do
      let (g, rest) ← takeLetters s.choices g (c :: cs) rest
      takeAll s fuel g rest
    | _ => do
      let g ← s.takePositional g text
      takeAll s fuel g rest

end Signature

/-- The command of a name with what was given for it; none if a positional argument is missing. -/
def Command.ofGiven? (name : String) (g : Given) : Option Command :=
  match name, g.positionals with
  | "extract", [line] => some (.extract line ((g.value? "column").bind column?)
      ((g.value? "syntax").getD "html") (g.hasFlag "json"))
  | "validate", [dialect, abbreviation] =>
      some (.validate dialect abbreviation (g.hasFlag "explain"))
  | "mode", [language] => some (.mode language (g.valuesOf "exclude"))
  | "profile", [json] => some (.profile json)
  | "customizations", [directory] => some (.customizations directory)
  | _, _ => none

namespace Request

/-- What the command `help` comes to, which may name the command to explain. -/
def helpOn : List String → Stop
  | [] => .help
  | [name] => if name = "help" ∨ (Signature.ofName? name).isSome then .help else .misuse
  | _ => .misuse

/-- Reads a command and the arguments after it. -/
def ofCommand (name : String) (verbose : Bool) (args : List String) : Except Stop Request :=
  if name = "help" then .error (helpOn args)
  else match Signature.ofName? name with
    | none => .error .misuse
    | some s => do
      let g ← s.takeAll args.length {} args
      match Command.ofGiven? name g with
      | some command => return ⟨command, verbose || g.hasFlag "verbose"⟩
      | none => throw .misuse

/-- Reads the options before a command, and the command; the fuel is the number of arguments. -/
def parseFrom : Nat → Given → List String → Except Stop Request
  | _, _, [] => .error .misuse
  | 0, _, _ :: _ => .error .misuse
  | fuel + 1, g, text :: rest =>
    match text.toList with
    | ['-', '-'] => .error .misuse
    | '-' :: '-' :: name => do
      let (g, rest) ← takeName commonChoices g name rest
      parseFrom fuel g rest
    | '-' :: c :: cs => do
      let (g, rest) ← takeLetters commonChoices g (c :: cs) rest
      parseFrom fuel g rest
    | _ => ofCommand text (g.hasFlag "verbose") rest

/-- What the arguments ask for. -/
def parse (args : List String) : Except Stop Request := parseFrom args.length {} args

end Request

end Emmet.CommandLine
