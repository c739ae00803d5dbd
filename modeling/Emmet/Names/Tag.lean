/-!
# Tag names

The elements of HTML, and the names that are offered as tags: the elements and the filler text
`lorem`.
-/

namespace Emmet.Tag

/-- The elements of HTML. -/
def html : List String := [
  "html", "head", "title", "base", "link", "meta", "style", "body", "article", "section", "nav",
  "aside", "h1", "h2", "h3", "h4", "h5", "h6", "hgroup", "header", "footer", "address", "p",
  "hr", "pre", "blockquote", "ol", "ul", "menu", "li", "dl", "dt", "dd", "figure", "figcaption",
  "main", "search", "div", "a", "em", "strong", "small", "s", "cite", "q", "dfn", "abbr", "ruby",
  "rb", "rt", "rp", "time", "code", "var", "samp", "kbd", "sub", "sup", "i", "b", "u", "mark",
  "bdi", "bdo", "span", "br", "wbr", "ins", "del", "picture", "img", "iframe", "embed", "object",
  "param", "video", "audio", "source", "track", "map", "area", "table", "caption", "colgroup",
  "col", "tbody", "thead", "tfoot", "tr", "td", "th", "form", "label", "input", "button",
  "select", "datalist", "optgroup", "option", "textarea", "output", "progress", "meter",
  "fieldset", "legend", "details", "summary", "dialog", "script", "noscript", "template", "slot",
  "canvas", "data"
]

/-- The names offered as tags, in the order in which they are offered. -/
def common : List String := html ++ ["lorem"]

/-- Whether a name is an element of HTML. -/
def isHtml (name : String) : Bool := html.contains name

/-- Whether a name is offered as a tag. -/
def isCommon (name : String) : Bool := common.contains name

end Emmet.Tag
