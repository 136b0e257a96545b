import Shorthand.Markup.DefaultSnippets
import Shorthand.Markup.Html
import Shorthand.Stylesheet.Declaration
import Shorthand.Stylesheet.DefaultSnippets

/-!
# Configurations

A configuration says which grammar an abbreviation is read with, which snippets there are, and what
the output looks like.  Every field has a default; `Config.Option` says how they are overridden.

* `Config` : the configuration, with its defaults.
* `Config.htmlStyle`, `Config.declarationStyle`, `Config.vocabulary` : the parts that the two
  grammars use.
-/

set_option autoImplicit false

namespace Shorthand

/-- The language an abbreviation is written in. -/
inductive Grammar where
  | markup
  | stylesheet
  deriving DecidableEq, Inhabited

namespace Grammar

/-- The name of a grammar. -/
def name : Grammar → String
  | .markup => "markup"
  | .stylesheet => "stylesheet"

/-- The grammar of a name. -/
def ofName? (s : String) : Option Grammar :=
  if s == "markup" then some .markup
  else if s == "stylesheet" then some .stylesheet
  else none

@[simp] theorem ofName?_name (g : Grammar) : ofName? g.name = some g := by
  cases g <;> decide

end Grammar

/-- How a tag without contents and closing tag ends. -/
inductive SelfClosing where
  | html
  | xhtml
  | xml
  deriving DecidableEq, Inhabited

namespace SelfClosing

/-- The name of a way to end a tag. -/
def name : SelfClosing → String
  | .html => "html"
  | .xhtml => "xhtml"
  | .xml => "xml"

/-- What ends the tag. -/
def tagEnd : SelfClosing → String
  | .html => ">"
  | .xhtml => " />"
  | .xml => "/>"

end SelfClosing

/-- The quotes around attribute values. -/
inductive Quotes where
  | double
  | single
  deriving DecidableEq, Inhabited

namespace Quotes

/-- The name of the quotes. -/
def name : Quotes → String
  | .double => "double"
  | .single => "single"

/-- The quote itself. -/
def sign : Quotes → String
  | .double => "\""
  | .single => "'"

end Quotes

/-- Everything that the expansion of an abbreviation depends on besides its text. -/
structure Config where
  grammar : Grammar := .markup
  formatters : Formatters := {}
  indent : String := "\t"
  newline : String := "\n"
  selfClosing : SelfClosing := .html
  /-- The names of elements without contents, sorted. -/
  voidTags : List String := [
    "area", "base", "br", "col", "command", "embed", "hr", "img", "input", "keygen", "link",
    "meta", "param", "source", "track", "wbr"]
  inlineBreak : Nat := 3
  quotes : Quotes := .double
  /-- The greatest number of copies that multipliers together may ask of one node. -/
  maxRepeat : Nat := 1000
  markupSnippets : Table String := Markup.defaultSnippets
  stylesheetSnippets : Table String := Stylesheet.defaultSnippets
  intUnit : String := "px"
  floatUnit : String := "em"
  unitAliases : Table String := [("e", "em"), ("p", "%"), ("x", "ex"), ("r", "rem")]
  /-- The properties whose numbers have no unit, sorted. -/
  unitless : List String := [
    "flex", "flex-grow", "flex-shrink", "font-weight", "line-height", "opacity", "order",
    "orphans", "widows", "z-index", "zoom"]
  keywords : List String := ["auto", "inherit", "unset", "none"]
  between : String := ": "
  after : String := ";"
  /-- The names of the options that could not be used, in the order in which they were given. -/
  rejected : List String := []
  deriving Inhabited

namespace Config

/-- What markup output looks like. -/
def htmlStyle (c : Config) : Markup.Html.Style where
  indent := c.indent
  newline := c.newline
  quote := c.quotes.sign
  emptyTagEnd := c.selfClosing.tagEnd
  voidTags := c.voidTags
  inlineBreak := c.inlineBreak

/-- What stylesheet output looks like. -/
def declarationStyle (c : Config) : Stylesheet.Declaration.Style where
  newline := c.newline
  between := c.between
  after := c.after

/-- What style values are made of. -/
def vocabulary (c : Config) : Stylesheet.Vocabulary where
  keywords := c.keywords
  intUnit := c.intUnit
  floatUnit := c.floatUnit
  unitAliases := c.unitAliases
  unitless := c.unitless

/-- The snippets of the configured grammar. -/
def snippets (c : Config) : Table String :=
  match c.grammar with
  | .markup => c.markupSnippets
  | .stylesheet => c.stylesheetSnippets

end Config

end Shorthand
