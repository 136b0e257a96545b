import Shorthand.Markup.ImplicitTag
import Shorthand.Failure
import Shorthand.Segment

/-!
# Markup output

A tree is written as HTML by these rules.

* Top-level nodes, and the contents of block elements, go on lines of their own, one indent deeper
  for every element around them.
* Contents that are all inline stay on one line, unless there are `inlineBreak` or more elements
  among them (0 means no limit).
* Empty elements and empty attribute values become tab stops.

Tab stops are numbered in the order in which they are written.

* `Html.node`, `Html.contents` : the segments of a node and of what an element holds.
* `Html.write` : the segments of a tree; fails on a group.
-/

set_option autoImplicit false

namespace Shorthand.Markup.Html

/-- What the output looks like. -/
structure Style where
  indent : String
  newline : String
  quote : String
  /-- What ends a tag without contents and closing tag. -/
  emptyTagEnd : String
  /-- Names of elements that have neither contents nor a closing tag. -/
  voidTags : List String
  /-- The number of inline elements that do not stay on one line; 0 for no limit. -/
  inlineBreak : Nat
  deriving Inhabited

/-! ## Values and attributes -/

/-- The segments of a value. -/
def value (v : Value) (stops : TabStops) : List Segment × TabStops :=
  Segment.ofValue (·.scope) v stops

/-- The segments of an attribute value; an empty one is a tab stop. -/
def attributeValue (v : Value) (stops : TabStops) : List Segment × TabStops :=
  if v.isEmpty then Segment.blank stops else value v stops

/-- A value between quotes, after a name and an equals sign. -/
def assignment (style : Style) (name : List Segment) (v : Value) (stops : TabStops) :
    List Segment × TabStops :=
  let (written, stops) := attributeValue v stops
  (.raw " " :: name ++ [.raw "=", .raw style.quote] ++ written ++ [.raw style.quote], stops)

/-- The value of a class attribute: the classes with a blank between them. -/
def joinClasses (classes : List Value) : Value :=
  classes.foldl (fun joined v ↦ if joined.isEmpty then v else joined ++ .text " " :: v) []

/-- The segments of attributes. -/
def attributes (style : Style) : List Attribute → TabStops → List Segment × TabStops
  | [], stops => ([], stops)
  | a :: as, stops =>
    let (first, stops) := assignment style [.text a.name] a.value stops
    let (rest, stops) := attributes style as stops
    (first ++ rest, stops)

/-- The segments of an opening tag up to its closing bracket. -/
def opening (style : Style) (e : Element) (stops : TabStops) : List Segment × TabStops :=
  let (id, stops) := match e.id with
    | none => ([], stops)
    | some v => assignment style [.raw "id"] v stops
  let (classes, stops) :=
    if e.classes.isEmpty then ([], stops)
    else assignment style [.raw "class"] (joinClasses e.classes) stops
  let (rest, stops) := attributes style e.attributes stops
  (.raw "<" :: .text (e.name.getD "") :: id ++ classes ++ rest, stops)

/-! ## Layout -/

mutual

/-- Can a node be written within a line? -/
def isInline : Node → Bool
  | .element e _ children => isInlineTag e.name && allInline children
  | .text _ _ _ => true
  | .group _ _ _ => false

/-- Can all nodes of a list be written within a line? -/
def allInline : List Node → Bool
  | [] => true
  | n :: ns => isInline n && allInline ns

end

/-- Is a list of nodes written on one line?  The text of an element is inline and counts as no
element, so the children decide about the contents. -/
def staysOnLine (style : Style) (nodes : List Node) : Bool :=
  allInline nodes &&
    (style.inlineBreak == 0 || (nodes.filter Node.isElement).length < style.inlineBreak)

/-- The indent at a depth. -/
def indentAt (style : Style) (depth : Nat) : String :=
  String.join (List.replicate depth style.indent)

/-- Does an element have neither contents nor a closing tag, if it is empty? -/
def isVoid (style : Style) (e : Element) : Bool :=
  e.selfClosing || style.voidTags.contains (Text.lower (e.name.getD ""))

/-- The text of an element, if it has some. -/
def textOf (e : Element) : Option Value := e.text.filter fun v ↦ !v.isEmpty

/-! ## Nodes -/

mutual

/-- The segments of a node at a depth. -/
def node (style : Style) (depth : Nat) : Node → TabStops → List Segment × TabStops
  | .text v _ _, stops => value v stops
  | .group _ _ _, stops => ([], stops)
  | .element e _ children, stops =>
    let (start, stops) := opening style e stops
    let finish := [.raw "</", .text (e.name.getD ""), .raw ">"]
    match textOf e, children with
    | none, [] =>
      if isVoid style e then (start ++ [.raw style.emptyTagEnd], stops)
      else
        let (blank, stops) := Segment.blank stops
        (start ++ .raw ">" :: blank ++ finish, stops)
    | text, children =>
      let lead := if staysOnLine style children then []
        else [.raw (style.newline ++ indentAt style (depth + 1))]
      let tail := if staysOnLine style children then []
        else [.raw (style.newline ++ indentAt style depth)]
      let (own, stops) := match text with
        | none => ([], stops)
        | some v =>
          let (written, stops) := value v stops
          (lead ++ written, stops)
      let (below, stops) := lines style (depth + 1) lead children stops
      (start ++ .raw ">" :: own ++ below ++ tail ++ finish, stops)

/-- The segments of a list of nodes at a depth, with `lead` before each of them. -/
def lines (style : Style) (depth : Nat) (lead : List Segment) :
    List Node → TabStops → List Segment × TabStops
  | [], stops => ([], stops)
  | n :: ns, stops =>
    let (first, stops) := node style depth n stops
    let (rest, stops) := lines style depth lead ns stops
    (lead ++ first ++ rest, stops)

end

/-- The segments of a tree without groups: its top-level nodes on one line if they stay on it, else
on lines of their own. -/
def segments (style : Style) (nodes : List Node) : List Segment :=
  let lead := if staysOnLine style nodes then [] else [.raw style.newline]
  match nodes with
  | [] => []
  | n :: ns =>
    let (first, stops) := node style 0 n {}
    let (rest, _) := lines style 0 lead ns stops
    first ++ rest

/-- The segments of a tree; a group cannot be written. -/
def write (style : Style) (nodes : List Node) : Except Failure (List Segment) :=
  if Node.anyGroup nodes then .error .groupInOutput else .ok (segments style nodes)

end Shorthand.Markup.Html
