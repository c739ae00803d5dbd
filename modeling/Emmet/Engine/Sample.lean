import Emmet.Engine.Basic
import Emmet.Text.Numeral

/-!
# A small engine

An engine for a small part of the language: in markup chains of elements, each with an optional
count, such as `ul>li*3`; in style sheets a property with an optional number, such as `m10`.
Snippets of the user come first.
-/

namespace Emmet.Sample

/-- The snippets of markup. -/
def snippets : Table String := [
  ("a:link", "<a href=\"http://$\x7b1\x7d\">$\x7b2\x7d</a>"),
  ("a:mail", "<a href=\"mailto:$\x7b1\x7d\">$\x7b2\x7d</a>"),
  ("link:css", "<link rel=\"stylesheet\" href=\"$\x7b1:style\x7d.css\">"),
  ("input:text", "<input type=\"text\" name=\"$\x7b1\x7d\" id=\"$\x7b2\x7d\">")]

/-- The elements without content. -/
def emptyElements : List String := ["br", "hr", "img", "input", "link", "meta"]

/-- The short forms of properties. -/
def properties : Table String := [
  ("m", "margin"), ("p", "padding"), ("w", "width"), ("h", "height"), ("c", "color"),
  ("d", "display"), ("pos", "position"), ("bd", "border")]

/-- The name of an element. -/
def isName (cs : List Char) : Bool :=
  cs.head?.any Char.isAlpha && cs.all fun c => c.isAlphanum || c == '-' || c == ':'

/-- An element with the number of its copies. -/
structure Node where
  name : String
  copies : Nat

/-- The element that a part of a chain stands for. -/
def node? (limit : Nat) (part : List Char) : Option Node :=
  match Text.splitOnce '*' part with
  | some (name, count) =>
    match Text.natural? (UInt64.size - 1) count with
    | some n => if isName name then some ⟨String.ofList name, min n limit⟩ else none
    | none => none
  | none => if isName part then some ⟨String.ofList part, 1⟩ else none

/-- Runs a step a number of times with a running number and collects the results. -/
def repeatWith (f : Nat → String × Nat) : Nat → Nat → List String × Nat
  | 0, stop => ([], stop)
  | n + 1, stop =>
    let (text, stop) := f stop
    let (texts, stop) := repeatWith f n stop
    (text :: texts, stop)

/-- Writes a chain of elements, one a line and indented, and numbers the tab stops after `stop`. -/
def render (field : Nat → String → String) : Nat → List Node → Nat → String × Nat
  | _, [], stop => ("", stop)
  | depth, node :: rest, stop =>
    let indent := String.ofList (List.replicate depth '\t')
    let element := fun stop =>
      if emptyElements.contains node.name then (indent ++ "<" ++ node.name ++ ">", stop)
      else if rest.isEmpty then
        (indent ++ "<" ++ node.name ++ ">" ++ field (stop + 1) "" ++ "</" ++ node.name ++ ">",
          stop + 1)
      else
        let (inner, stop) := render field (depth + 1) rest stop
        (indent ++ "<" ++ node.name ++ ">\n" ++ inner ++ "\n" ++ indent ++ "</" ++ node.name ++ ">",
          stop)
    let (texts, stop) := repeatWith element node.copies stop
    ("\n".intercalate texts, stop)

/-- Expands an abbreviation of markup. -/
def expandMarkup (abbreviation : String) (options : ExpansionOptions) :
    Except ExpansionError String :=
  match Table.find? snippets abbreviation with
  | some text => .ok text
  | none =>
    match (abbreviation.toList.splitOn '>').mapM (node? options.repeatLimit) with
    | some nodes => .ok (render options.output.field 0 nodes 0).1
    | none => .error (.unparseable abbreviation)

/-- The value of a property: a number with its unit, or a tab stop. -/
def value? (number : List Char) (output : Output) : Option String :=
  if number = [] then some (output.field 1 "")
  else (Text.integer? number).map fun n =>
    if n = 0 then "0" else toString n ++ (output.string? "stylesheet.intUnit").getD "px"

/-- Expands an abbreviation of a style sheet. -/
def expandStylesheet (abbreviation : String) (options : ExpansionOptions) :
    Except ExpansionError String :=
  let cs := abbreviation.toList
  if cs.head? = some '!' then .ok "!important"
  else
    let inName := fun c : Char => !(c.isDigit || c == '-')
    let name := cs.takeWhile inName
    if name = [] ∨ !name.all Char.isAlpha then .error (.unparseable abbreviation)
    else match value? (cs.dropWhile inName) options.output with
      | some value =>
        let short := String.ofList name
        .ok ((Table.find? properties short).getD short ++ options.output.between ++ value ++
          options.output.after)
      | none => .error (.unparseable abbreviation)

/-- The content of a snippet that is a text node, any other snippet as it is. -/
def snippetText (text : String) : String :=
  match (['\x7b'].isPrefixOf? text.toList).bind ['\x7d'].isSuffixOf? with
  | some content => String.ofList content
  | none => text

/-- Expands an abbreviation. -/
def expand (abbreviation : String) (options : ExpansionOptions) : Except ExpansionError String :=
  match options.snippets.bind fun own => Table.find? own abbreviation with
  | some text => .ok (snippetText text)
  | none =>
    match options.family with
    | .markup => expandMarkup abbreviation options
    | .stylesheet => expandStylesheet abbreviation options

/-- The engine for a small part of the language. -/
def engine : Engine where
  expand := expand
  snippetKeys dialect := match Dialect.family dialect with
    | .markup => Table.keys snippets
    | .stylesheet => []

end Emmet.Sample
