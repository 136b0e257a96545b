import Shorthand.Markup.Node
import Shorthand.Text.LowerCase

/-!
# Tag names for elements written without one

An element without a name gets the tag that usually stands in its parent: `li` in `ul`, `span` in an
inline element, else `div`.  Tags are compared without regard to case.

* `implicitTag` : the tag of a nameless child.
* `Node.nameAll` : a tree in which every element outside a group has a name.
-/

set_option autoImplicit false

namespace Shorthand.Markup

/-- Parents whose nameless children have a tag of their own. -/
def childTags : List (String × String) := [
  ("p", "span"), ("ul", "li"), ("ol", "li"), ("table", "tr"), ("tr", "td"), ("tbody", "tr"),
  ("thead", "tr"), ("tfoot", "tr"), ("colgroup", "col"), ("select", "option"),
  ("optgroup", "option"), ("audio", "source"), ("video", "source"), ("object", "param"),
  ("map", "area")]

/-- Tags of inline elements. -/
def inlineTags : List String := [
  "a", "abbr", "acronym", "applet", "b", "basefont", "bdo", "big", "br", "button", "cite", "code",
  "del", "dfn", "em", "font", "i", "iframe", "img", "input", "ins", "kbd", "label", "map", "object",
  "q", "s", "samp", "select", "small", "span", "strike", "strong", "sub", "sup", "textarea", "tt",
  "u", "var"]

/-- Is this the name of an inline element? -/
def isInlineTag (name : Option String) : Bool :=
  match name with
  | none => false
  | some name => inlineTags.contains (Text.lower name)

/-- The tag of a nameless element inside a parent. -/
def implicitTag (parent : Option String) : String :=
  match parent with
  | none => "div"
  | some parent =>
    let parent := Text.lower parent
    match childTags.lookup parent with
    | some tag => tag
    | none => if inlineTags.contains parent then "span" else "div"

/-- The name of an element inside a parent. -/
def Element.nameIn (parent : Option String) (e : Element) : String :=
  match e.name with
  | none => implicitTag parent
  | some name => if name.isEmpty then implicitTag parent else name

mutual

/-- Names a node and the nodes below it; what is in a group is left alone. -/
def Node.named (parent : Option String) : Node → Node
  | .element e times children =>
    let name := e.nameIn parent
    .element { e with name := some name } times (Node.nameAll (some name) children)
  | .text value times offset => .text value times offset
  | .group children times offset => .group children times offset

/-- Names a list of nodes. -/
def Node.nameAll (parent : Option String) : List Node → List Node
  | [] => []
  | n :: ns => n.named parent :: Node.nameAll parent ns

end

end Shorthand.Markup
