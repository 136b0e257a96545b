import Shorthand.Markup.Node
import Shorthand.Failure
import Shorthand.Text.Blank
import Shorthand.Text.LowerCase
import Shorthand.Text.Tiling

/-!
# Attribute sets

The inside of `[...]` is a row of attributes with blanks between them: `name`, `name=value`,
`name="value"` or `name='value'`.  A quoted value may hold blanks; a backslash in it stands for the
character after it.  An unquoted value goes to the next blank, whatever it holds.

* `AttributeSet.read` : the attributes of a set, with their values taken apart.
* `Element.fold` : an attribute is put on an element, where `id` and `class` go to the parts of the
  element that they name.
-/

set_option autoImplicit false

namespace Shorthand.Markup

namespace AttributeSet

/-- A character that an attribute name may hold. -/
def isNameChar (c : Char) : Bool := !Text.isBlank c && c != '=' && c != '\'' && c != '"'

/-- A value from the character after its opening quote: what it stands for, and the number of
characters that it takes with its closing quote.  A dollar sign keeps its backslash. -/
def quotedChars (quote : Char) : List Char → Option (List Char × Nat)
  | [] => none
  | c :: cs =>
    if c == quote then some ([], 1)
    else
      match c, cs with
      | '\\', d :: cs => (quotedChars quote cs).map fun (out, size) ↦
          ((if d == '$' then ['\\', '$'] else [d]) ++ out, size + 2)
      | c, cs => (quotedChars quote cs).map fun (out, size) ↦ (c :: out, size + 1)

/-- The value that begins a text at an offset, and the number of characters that it takes. -/
def valueChars (pos : Nat) : List Char → Except Fault (List Char × Nat)
  | [] => .ok ([], 0)
  | c :: cs =>
    if Text.isBlank c then .ok ([], 0)
    else if c == '\'' || c == '"' then
      match quotedChars c cs with
      | some (out, size) => .ok (out, size + 1)
      | none => .error (.malformed .openAttributeValue (pos + cs.length + 1))
    else
      let out := (c :: cs).takeWhile fun c ↦ !Text.isBlank c
      .ok (out, out.length)

/-- The attribute that begins a text at an offset, or the blank. -/
def step (pos : Nat) (cs : List Char) : Except Fault (List Attribute × Nat) :=
  if (cs.take 1).all Text.isBlank then .ok ([], 1)
  else
    let name := cs.takeWhile isNameChar
    if name.isEmpty then .error (.malformed .noAttributeName pos)
    else
      match cs.dropWhile isNameChar with
      | '=' :: rest => do
        let (value, size) ← valueChars (pos + name.length + 1) rest
        return ([{ name := String.ofList name, value := Value.parse (String.ofList value) }],
          name.length + 1 + size)
      | _ => .ok ([{ name := String.ofList name }], name.length)

/-- The attributes of a set whose inside begins at an offset. -/
def read (pos : Nat) (inner : String) : Except Fault (List Attribute) :=
  Text.tileFrom step pos 0 inner.toList

end AttributeSet

/-- The classes that a `class` attribute stands for: the words of a plain text; a value with
fields is one class. -/
def classesOf (value : Value) : List Value :=
  match value with
  | [] => []
  | [.text s] => (Text.words s).map fun word ↦ [.text word]
  | value => [value]

/-- Puts an attribute on an element; `id` and `class`, in any case, go where they belong. -/
def Element.fold (e : Element) (a : Attribute) : Element :=
  let name := Text.lower a.name
  if name == "id" then { e with id := some a.value }
  else if name == "class" then (classesOf a.value).foldl Element.addClass e
  else e.putAttribute a

end Shorthand.Markup
