/-!
# Dialects

Abbreviations are written in dialects of markup and of style sheets, named as in editor settings:
`html`, `jsx`, `scss` and so on. A `Family` says which of the two kinds of document a dialect is
for; a name that is not known belongs to markup.
-/

namespace Emmet

/-- The two kinds of document. -/
inductive Family where
  | markup
  | stylesheet
  deriving DecidableEq, Repr, Inhabited

/-- The written name of a family. -/
def Family.name : Family → String
  | markup => "markup"
  | stylesheet => "stylesheet"

namespace Dialect

/-- The markup dialects that a document may be written in. -/
def markup : List String := ["html", "xml", "xsl", "jsx", "js", "pug", "slim", "haml"]

/-- The style sheet dialects that a document may be written in. -/
def stylesheet : List String := ["css", "sass", "scss", "less", "sss", "stylus"]

/-- The dialects whose abbreviations are read as properties. The indentation dialect `sss` is not
among them. -/
def properties : List String := ["css", "scss", "sass", "less", "stylus"]

/-- Whether abbreviations of a dialect are read as properties. -/
def isStylesheet (dialect : String) : Bool := properties.contains dialect

/-- The family of a dialect. -/
def family (dialect : String) : Family :=
  if isStylesheet dialect then .stylesheet else .markup

/-- The dialect whose snippets all dialects of the family share. -/
def base (dialect : String) : String := if isStylesheet dialect then "css" else "html"

/-- How a dialect closes an element without content. -/
def closingStyle (dialect : String) : String :=
  if dialect = "xhtml" ∨ dialect = "jsx" then "xhtml"
  else if dialect = "xml" ∨ dialect = "xsl" then "xml"
  else "html"

/-- The dialect of an editor's language, unless the language is excluded or has none. -/
def ofLanguage? (language : String) (excluded : List String) : Option String :=
  if language = "" ∨ excluded.contains language then none
  else if ["typescriptreact", "javascriptreact", "jsx-tags"].contains language then some "jsx"
  else if language = "sass-indented" then some "sass"
  else if language = "jade" then some "pug"
  else if markup.contains language || stylesheet.contains language then some language
  else none

theorem family_eq_stylesheet_iff {dialect : String} :
    family dialect = .stylesheet ↔ isStylesheet dialect = true := by
  unfold family; split <;> simp_all

theorem base_base (dialect : String) : base (base dialect) = base dialect := by
  unfold base; split <;> decide

end Dialect

end Emmet
