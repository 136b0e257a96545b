import Shorthand.Config.Basic

/-!
# Documents

An editor keeps a document as lines, each with whatever ends it, and may say in which language it is
written.  The language decides the grammar of the abbreviations in it.

* `Document.grammar` : the grammar of the abbreviations in a document.
* `Document.line?` : a line without its end.
-/

set_option autoImplicit false

namespace Shorthand.Editor

/-- A document that is open in the editor. -/
structure Document where
  lines : List String
  language : Option String := none
  deriving DecidableEq, Inhabited

/-- A place in a document; both numbers begin at zero.  The requests of an editor have no negative
line. -/
structure Place where
  line : Int
  character : Int
  deriving DecidableEq, Inhabited

/-- The languages of style sheets. -/
def styleLanguages : List String := ["css", "scss", "less"]

/-- The grammar of the abbreviations in a document of a language. -/
def grammarOf : Option String → Grammar
  | some language => if styleLanguages.contains language then .stylesheet else .markup
  | none => .markup

/-- A line without the line feeds and carriage returns that end it. -/
def withoutEnd (line : String) : String :=
  String.ofList
    (line.toList.reverse.dropWhile fun c ↦ c == '\r' || c == '\n').reverse

namespace Document

/-- The grammar of the abbreviations in the document. -/
def grammar (d : Document) : Grammar := grammarOf d.language

/-- The line of a number, without its end; there is none before the first one. -/
def line? (d : Document) (number : Int) : Option String :=
  if 0 ≤ number then d.lines[number.toNat]?.map withoutEnd else none

end Document

end Shorthand.Editor
