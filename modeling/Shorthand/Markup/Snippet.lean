import Shorthand.Markup.Tree
import Shorthand.Table

/-!
# Markup snippets

An element whose name is the key of a snippet stands for the tree of the snippet's text.  What the
user typed on the element goes to every top node of that tree, and the element's children go into
its innermost last node:

    a.btn>{Go}       a[href].btn>{Go}
    !>div            {<!DOCTYPE html>}+html>(head>...)+body>div

Inside the tree of a snippet its own key is no snippet.  So a table may be cyclic, and expansion
ends because every level of it has one key less.  The fields of every instance of a snippet get a
scope of their own, and are numbered apart from all others.

Typed attributes are shown on all top elements of the snippet, and may be shown elsewhere already
if the tree was expanded before.  What a merge rewrites about them, it rewrites wherever they are
shown.

* `Snippet.expandAll` : a tree with its snippets expanded.
* `Element.mergeTyped` : what the user typed wins over what the snippet says.
* `Element.rewritten` : what a merge rewrites about the typed attributes.
* `Node.adopt` : hangs nodes into the innermost last node of a tree.
-/

set_option autoImplicit false

namespace Shorthand.Markup

/-- Numbers not yet used: for the scopes of fields and for the links of attributes. -/
structure Supply where
  scope : Nat
  link : Nat
  deriving DecidableEq, Inhabited

/-- What the expansion of a tree passes along: the numbers not yet used, and the linked attributes
that were rewritten. -/
structure Progress extends Supply where
  shown : Shown := []
  deriving DecidableEq, Inhabited

/-! ## Merging what was typed -/

/-- An element of a snippet with what was typed on the element that stands for the snippet. -/
def Element.mergeTyped (e typed : Element) : Element :=
  let e := typed.classes.foldl Element.addClass e
  let e := typed.attributes.foldl Element.putAttribute e
  { e with
    id := typed.id.or e.id
    text := typed.text.or e.text
    selfClosing := e.selfClosing || typed.selfClosing
    offset := typed.offset }

/-- A top node of a snippet with what was typed on the element that stands for the snippet.  A text
or a group only takes the multiplier. -/
def Node.mergeTyped (typed : Element) (typedTimes : Option Multiplier) : Node → Node
  | .element e times children => .element (e.mergeTyped typed) (typedTimes.or times) children
  | .text value times offset => .text value (typedTimes.or times) offset
  | .group children times offset => .group children (typedTimes.or times) offset

/-- Gives attributes that are to be shown in several places a link each, if they have none yet. -/
def linkAttributes : List Attribute → Supply → List Attribute × Supply :=
  walk fun a supply ↦
    if a.link.isSome then (a, supply)
    else ({ a with link := some supply.link }, { supply with link := supply.link + 1 })

/-- The typed attributes, linked if several elements are going to show them. -/
def Element.shared (typed : Element) (tops : List Node) (supply : Supply) : Element × Supply :=
  if (tops.filter Node.isElement).length < 2 then (typed, supply)
  else
    let (attributes, supply) := linkAttributes typed.attributes supply
    ({ typed with attributes }, supply)

/-- The linked typed attributes that a merge has rewritten, as they are on the merged nodes.  Of
several with one name the first takes the value of the last, if it comes to stand on an element that
lacked the name. -/
def Element.rewritten (typed : Element) (merged : List Node) : List Attribute :=
  (merged.flatMap Node.attributes).filter fun a ↦
    a.link.isSome && typed.attributes.any fun b ↦ b.link == a.link && b.value != a.value

/-- The top nodes of a snippet with what was typed on the element that stands for the snippet. -/
def Node.mergeAll (typed : Element) (typedTimes : Option Multiplier) (tops : List Node)
    (progress : Progress) : List Node × Progress :=
  let (typed, supply) := (typed.current progress.shown).shared tops progress.toSupply
  let merged := tops.map (Node.mergeTyped typed typedTimes)
  (merged, ⟨supply, (typed.rewritten merged).foldl Attribute.note progress.shown⟩)

/-! ## Children of a snippet element -/

mutual

/-- Hangs nodes after the children of the innermost node on the path of last children that can
have children; a text can have none. -/
def Node.adopt (extra : List Node) : Node → Option Node
  | .text _ _ _ => none
  | .element e times children =>
    some (.element e times ((Node.adoptLast extra children).getD (children ++ extra)))
  | .group children times offset =>
    some (.group ((Node.adoptLast extra children).getD (children ++ extra)) times offset)

/-- Hangs nodes into the last node of a list, if it can have children. -/
def Node.adoptLast (extra : List Node) : List Node → Option (List Node)
  | [] => none
  | n :: ns =>
    match ns with
    | [] => (n.adopt extra).map fun n ↦ [n]
    | _ :: _ => (Node.adoptLast extra ns).map (n :: ·)

end

/-! ## Expansion -/

namespace Snippet

/-- The scope that marks the fields of one instance of a snippet. -/
def inScope (scope : Nat) (nodes : List Node) : List Node :=
  (Node.visitAll
    (fun _ ↦
      { value := fun v s ↦ (v.mapScope fun _ ↦ scope, s)
        attr := fun a s ↦ ({ a with value := a.value.mapScope fun _ ↦ scope }, s) })
    nodes ()).1

/-- The key and the text of the snippet that an element names. -/
def find? (table : Table String) (e : Element) : Option (String × String) :=
  match e.name with
  | none => none
  | some name => if name.isEmpty then none else (table.get? name).map (name, ·)

/-- Expands the snippet of a key and a text. -/
abbrev Expander := String → String → Progress → Except Failure (List Node × Progress)

mutual

/-- Expands the snippets of a node and of the nodes below it; `snippet` expands one snippet. -/
def expandNode (snippet : Expander) (table : Table String) :
    Node → Progress → Except Failure (List Node × Progress)
  | .text value times offset, progress => .ok ([.text value times offset], progress)
  | .group children times offset, progress => do
    let (children, progress) ← expandNodes snippet table children progress
    return ([.group children times offset], progress)
  | .element e times children, progress =>
    match find? table e with
    | none => do
      let (children, progress) ← expandNodes snippet table children progress
      return ([.element e times children], progress)
    | some (key, text) => do
      let (tops, progress) ← snippet key text progress
      let (tops, progress) := Node.mergeAll e times tops progress
      let (children, progress) ← expandNodes snippet table children progress
      return ((Node.adoptLast children tops).getD (tops ++ children), progress)

/-- Expands the snippets of a list of nodes. -/
def expandNodes (snippet : Expander) (table : Table String) :
    List Node → Progress → Except Failure (List Node × Progress)
  | [], progress => .ok ([], progress)
  | n :: ns, progress => do
    let (first, progress) ← expandNode snippet table n progress
    let (rest, progress) ← expandNodes snippet table ns progress
    return (first ++ rest, progress)

end

/-- Expands the snippets of a list of nodes, to a depth that bounds the number of keys. -/
def expandTo :
    Nat → Table String → List Node → Progress → Except Failure (List Node × Progress)
  | 0, _, nodes, progress => .ok (nodes, progress)
  | depth + 1, table, nodes, progress =>
    expandNodes
      (fun key text progress ↦ do
        let parsed ← Tree.parse text
        expandTo depth (table.remove key) (inScope progress.scope parsed)
          { progress with scope := progress.scope + 1 })
      table nodes progress

/-- The numbers not yet used by the links of a tree, and the first scope. -/
def supplyFor (nodes : List Node) : Supply :=
  { scope := 1, link := (Node.allLinks nodes).foldl (fun n link ↦ max n (link + 1)) 0 }

/-- A tree with its snippets expanded. -/
def expandAll (table : Table String) (nodes : List Node) : Except Failure (List Node) :=
  (expandTo (table.length + 1) table nodes ⟨supplyFor nodes, []⟩).map fun (nodes, progress) ↦
    Node.settle progress.shown nodes

end Snippet

end Shorthand.Markup
