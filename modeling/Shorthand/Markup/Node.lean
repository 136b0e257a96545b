import Shorthand.Value

/-!
# Markup trees

A markup abbreviation stands for a list of nodes: elements, texts between elements, and groups.  A
group carries a multiplier for what it encloses; it is dissolved when multipliers are carried out.

What a user typed on a snippet that stands for several elements is shown on each of them, and for
attributes this is one attribute on several elements: whoever rewrites it in one place has
rewritten it in all.  A `link` tells which attributes are one.

* `Element`, `Node` : the tree; `Node.decideEq` tells whether two nodes are the same.
* `Element.addClass`, `Element.putAttribute` : the ways in which an element grows.
* `Node.visit` : rewrites the values and attributes of a tree from left to right, with a state.
-/

set_option autoImplicit false

namespace Shorthand.Markup

/-- A multiplier: how many copies there are, and which of them a node is, counted from 1. -/
structure Multiplier where
  count : Nat
  index : Nat := 1
  deriving DecidableEq, Inhabited

/-- An attribute; an empty value is left for the user to type. -/
structure Attribute where
  name : String
  value : Value := []
  /-- Attributes of one tree with the same link are one attribute. -/
  link : Option Nat := none
  deriving DecidableEq, Inhabited

/-- An element without its multiplier and its children. -/
structure Element where
  name : Option String := none
  id : Option Value := none
  classes : List Value := []
  attributes : List Attribute := []
  text : Option Value := none
  selfClosing : Bool := false
  /-- Where in the abbreviation the element begins. -/
  offset : Nat := 0
  deriving DecidableEq, Inhabited

/-- A node of a markup tree. -/
inductive Node where
  | element (element : Element) (times : Option Multiplier) (children : List Node)
  | text (value : Value) (times : Option Multiplier) (offset : Nat)
  | group (children : List Node) (times : Option Multiplier) (offset : Nat)
  deriving Inhabited

namespace Node

mutual

/-- Are two nodes the same? -/
def decideEq : (n m : Node) → Decidable (n = m)
  | .element e t ns, .element f u ms =>
    have := decideAllEq ns ms
    decidable_of_iff (e = f ∧ t = u ∧ ns = ms) (Node.element.injEq ..).to_iff.symm
  | .text v t i, .text w u j =>
    decidable_of_iff (v = w ∧ t = u ∧ i = j) (Node.text.injEq ..).to_iff.symm
  | .group ns t i, .group ms u j =>
    have := decideAllEq ns ms
    decidable_of_iff (ns = ms ∧ t = u ∧ i = j) (Node.group.injEq ..).to_iff.symm
  | .element .., .text .. | .element .., .group .. | .text .., .element ..
  | .text .., .group .. | .group .., .element .. | .group .., .text .. => isFalse nofun

/-- Are the nodes of two lists the same? -/
def decideAllEq : (ns ms : List Node) → Decidable (ns = ms)
  | [], [] => isTrue rfl
  | n :: ns, m :: ms =>
    have := decideEq n m
    have := decideAllEq ns ms
    decidable_of_iff (n = m ∧ ns = ms) (List.cons.injEq ..).to_iff.symm
  | [], _ :: _ | _ :: _, [] => isFalse nofun

end

instance : DecidableEq Node := decideEq

end Node

/-! ## Elements -/

/-- Puts an attribute among others: its value replaces that of the one with its name, which keeps
its place; else it comes last. -/
def Attribute.putInto (a : Attribute) : List Attribute → List Attribute
  | [] => [a]
  | b :: bs => if b.name == a.name then { b with value := a.value } :: bs else b :: a.putInto bs

namespace Element

/-- Adds a class unless it is empty or already there. -/
def addClass (e : Element) (value : Value) : Element :=
  if value.isEmpty || e.classes.contains value then e
  else { e with classes := e.classes ++ [value] }

/-- Adds text after what there is. -/
def addText (e : Element) (value : Value) : Element :=
  { e with text := some (e.text.getD [] ++ value) }

/-- Puts an attribute on an element. -/
def putAttribute (e : Element) (a : Attribute) : Element :=
  { e with attributes := a.putInto e.attributes }

/-- Does the element have nothing but text? -/
def isBare (e : Element) : Bool :=
  e.name.isNone && e.id.isNone && e.classes.isEmpty && e.attributes.isEmpty && !e.selfClosing

/-- The values of an element, in reading order. -/
def values (e : Element) : List Value :=
  e.id.toList ++ e.classes ++ e.attributes.map (·.value) ++ e.text.toList

end Element

/-! ## Nodes -/

namespace Node

/-- The multiplier of a node. -/
def times : Node → Option Multiplier
  | .element _ times _ => times
  | .text _ times _ => times
  | .group _ times _ => times

/-- Where in the abbreviation a node begins. -/
def offset : Node → Nat
  | .element e _ _ => e.offset
  | .text _ _ offset => offset
  | .group _ _ offset => offset

/-- The nodes below a node. -/
def children : Node → List Node
  | .element _ _ children => children
  | .text _ _ _ => []
  | .group children _ _ => children

/-- The node with other nodes below it; a text takes none. -/
def withChildren (n : Node) (children : List Node) : Node :=
  match n with
  | .element e times _ => .element e times children
  | .text value times offset => .text value times offset
  | .group _ times offset => .group children times offset

/-- The attributes of a node itself; only an element has some. -/
def attributes : Node → List Attribute
  | .element e _ _ => e.attributes
  | .text _ _ _ | .group _ _ _ => []

/-- Is the node a text? -/
def isText : Node → Bool
  | .text _ _ _ => true
  | _ => false

/-- Is the node an element? -/
def isElement : Node → Bool
  | .element _ _ _ => true
  | _ => false

/-! ### Measures and views -/

mutual

/-- The height of a node; a leaf has height 1. -/
def height : Node → Nat
  | .element _ _ children => heights children + 1
  | .text _ _ _ => 1
  | .group children _ _ => heights children + 1

/-- The greatest height of a list of nodes. -/
def heights : List Node → Nat
  | [] => 0
  | n :: ns => max n.height (heights ns)

end

mutual

/-- Does a node hold a group? -/
def hasGroup : Node → Bool
  | .element _ _ children => anyGroup children
  | .text _ _ _ => false
  | .group _ _ _ => true

/-- Does a list of nodes hold a group? -/
def anyGroup : List Node → Bool
  | [] => false
  | n :: ns => n.hasGroup || anyGroup ns

end

mutual

/-- The values of a node and of all nodes below it, in reading order. -/
def values : Node → List Value
  | .element e _ children => e.values ++ allValues children
  | .text value _ _ => [value]
  | .group children _ _ => allValues children

/-- The values of a list of nodes, in reading order. -/
def allValues : List Node → List Value
  | [] => []
  | n :: ns => n.values ++ allValues ns

end

mutual

/-- The links of a node and of all nodes below it. -/
def links : Node → List Nat
  | .element e _ children => e.attributes.filterMap (·.link) ++ allLinks children
  | .text _ _ _ => []
  | .group children _ _ => allLinks children

/-- The links of a list of nodes. -/
def allLinks : List Node → List Nat
  | [] => []
  | n :: ns => n.links ++ allLinks ns

end

end Node

/-! ## Visits -/

section Visit

variable {σ : Type}

/-- Rewrites a list from left to right, passing a state along. -/
def walk {α β : Type} (f : α → σ → β × σ) : List α → σ → List β × σ
  | [], s => ([], s)
  | a :: as, s =>
    let (b, s) := f a s
    let (bs, s) := walk f as s
    (b :: bs, s)

/-- Rewrites what may be there, passing a state along. -/
def walkOption {α β : Type} (f : α → σ → β × σ) : Option α → σ → Option β × σ
  | none, s => (none, s)
  | some a, s =>
    let (b, s) := f a s
    (some b, s)

@[simp] theorem walk_nil {α β : Type} (f : α → σ → β × σ) (s : σ) : walk f [] s = ([], s) := rfl

theorem walk_cons {α β : Type} (f : α → σ → β × σ) (a : α) (as : List α) (s : σ) :
    walk f (a :: as) s =
      ((f a s).1 :: (walk f as (f a s).2).1, (walk f as (f a s).2).2) := rfl

/-- A visit that leaves the state alone is a map. -/
theorem walk_eq_map {α β : Type} {f : α → σ → β × σ} {g : α → β} (h : ∀ a s, f a s = (g a, s))
    (as : List α) (s : σ) : walk f as s = (as.map g, s) := by
  induction as with
  | nil => rfl
  | cons a as ih => rw [walk_cons, h, ih]; rfl

/-- What a visit does to the names, values and attributes that it meets. -/
structure Visitor (σ : Type) where
  name : String → String := fun s ↦ s
  value : Value → σ → Value × σ
  attr : Attribute → σ → Attribute × σ

/-- Visits the parts of an element in reading order: id, classes, attributes, text. -/
def Element.visit (v : Visitor σ) (e : Element) (s : σ) : Element × σ :=
  let (id, s) := walkOption v.value e.id s
  let (classes, s) := walk v.value e.classes s
  let (attributes, s) := walk v.attr e.attributes s
  let (text, s) := walkOption v.value e.text s
  ({ e with name := e.name.map v.name, id, classes, attributes, text }, s)

mutual

/-- Visits a node, then the nodes below it; the visitor may depend on the node's multiplier. -/
def Node.visit (v : Option Multiplier → Visitor σ) : Node → σ → Node × σ
  | .element e times children, s =>
    let (e, s) := e.visit (v times) s
    let (children, s) := Node.visitAll v children s
    (.element e times children, s)
  | .text value times offset, s =>
    let (value, s) := (v times).value value s
    (.text value times offset, s)
  | .group children times offset, s =>
    let (children, s) := Node.visitAll v children s
    (.group children times offset, s)

/-- Visits a list of nodes from left to right. -/
def Node.visitAll (v : Option Multiplier → Visitor σ) : List Node → σ → List Node × σ
  | [], s => ([], s)
  | n :: ns, s =>
    let (n, s) := n.visit v s
    let (ns, s) := Node.visitAll v ns s
    (n :: ns, s)

end

mutual

/-- A visit keeps the height of a node. -/
theorem Node.height_visit (v : Option Multiplier → Visitor σ) (n : Node) (s : σ) :
    (n.visit v s).1.height = n.height := by
  cases n with
  | element e times children => simp [Node.visit, Node.height, Node.heights_visitAll v children]
  | text value times offset => simp [Node.visit, Node.height]
  | group children times offset =>
    simp [Node.visit, Node.height, Node.heights_visitAll v children]

/-- A visit keeps the greatest height of a list of nodes. -/
theorem Node.heights_visitAll (v : Option Multiplier → Visitor σ) (ns : List Node) (s : σ) :
    Node.heights (Node.visitAll v ns s).1 = Node.heights ns := by
  cases ns with
  | nil => simp [Node.visitAll]
  | cons n ns =>
    simp [Node.visitAll, Node.heights, Node.height_visit v n, Node.heights_visitAll v ns]

end

end Visit

/-! ## Linked attributes -/

/-- The states of linked attributes that were rewritten, latest first. -/
abbrev Shown := List (Nat × Attribute)

namespace Attribute

/-- An attribute as it is now: a linked one may have been rewritten elsewhere. -/
def current (shown : Shown) (a : Attribute) : Attribute :=
  match a.link with
  | none => a
  | some link => (shown.lookup link).getD a

/-- Remembers the state of an attribute if it is linked. -/
def note (shown : Shown) (a : Attribute) : Shown :=
  match a.link with
  | none => shown
  | some link => (link, a) :: shown

@[simp] theorem current_nil (a : Attribute) : a.current [] = a := by
  cases h : a.link <;> simp [current, h]

end Attribute

/-- An element with its linked attributes as they are now. -/
def Element.current (shown : Shown) (e : Element) : Element :=
  { e with attributes := e.attributes.map (Attribute.current shown) }

@[simp] theorem Element.current_nil (e : Element) : e.current [] = e := by
  have h : Attribute.current [] = fun a ↦ a := funext Attribute.current_nil
  simp [Element.current, h]

/-- Brings every place that shows a linked attribute to its latest state. -/
def Node.settle (shown : Shown) (nodes : List Node) : List Node :=
  if shown.isEmpty then nodes
  else
    (Node.visitAll
      (fun _ ↦ { value := fun v s ↦ (v, s), attr := fun a s ↦ (a.current shown, s) })
      nodes ()).1

@[simp] theorem Node.settle_nil (nodes : List Node) : Node.settle [] nodes = nodes := rfl

end Shorthand.Markup
