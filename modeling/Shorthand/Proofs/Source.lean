import Shorthand.Proofs.Hanging

/-!
# Abbreviations as they are written

The grammar of a markup abbreviation, over its tokens:

    statements   item (op item)*
    op           `>`, `+` or a row of `^`
    item         group or element
    group        `(` statements `)`, then `*n` or nothing
    element      a name or a modifier, then modifiers, then a tail
    modifier     `#` literal, `.` literal, an attribute set, or a text
    tail         at most one `*n` and at most one `/`, in either order, or two `/`

A `Source.Row` is a derivation of statements: it keeps every token where it was written.  The levels
that its operators give to its items, and the tree that these levels say, are its meaning.

* `Source.Row.tokens`, `Source.Row.items`, `Source.Row.tree` : what is written, the items with their
  levels, and the tree they stand for.
* `Source.Row.heads` : the items of a row and of its groups, in the order in which they are written.
* `Source.Row.insert` : how the tree is built along a path of indices.
* `Source.Row.insert_eq` : the path always leads to an element or a group.
-/

set_option autoImplicit false

namespace Shorthand.Markup.Source

/-! ## Derivations -/

/-- A multiplier: its digits, and where it stands. -/
structure Count where
  digits : String
  place : Nat

/-- A part of an element after its name. -/
inductive Modifier where
  | id (name : String) (sign place : Nat)
  | className (name : String) (sign place : Nat)
  | attributes (inner : String) (place : Nat)
  | text (inner : String) (place : Nat)

/-- What may stand after the modifiers of an element. -/
inductive Tail where
  | empty
  | times (count : Count)
  | close (place : Nat)
  | timesClose (count : Count) (place : Nat)
  | closeTimes (place : Nat) (count : Count)
  | closeClose (first second : Nat)

/-- An element or a text. -/
inductive Phrase where
  | named (name : String) (place : Nat) (modifiers : List Modifier) (tail : Tail)
  | nameless (first : Modifier) (others : List Modifier) (tail : Tail)

/-- An operator between two items. -/
inductive Op where
  | child (place : Nat)
  | sibling (place : Nat)
  | climb (place : Nat) (more : List Nat)

mutual

/-- An item of a row. -/
inductive Item where
  | element (phrase : Phrase)
  | group (opening : Nat) (row : Row) (closing : Nat) (count : Option Count)

/-- A row of items with operators between them. -/
inductive Row where
  | last (item : Item)
  | more (item : Item) (op : Op) (rest : Row)

end

/-! ## What is written -/

/-- The token of a multiplier. -/
def Count.token (c : Count) : Token := ⟨.times c.digits, c.place⟩

/-- The tokens of a modifier. -/
def Modifier.tokens : Modifier → List Token
  | .id name sign place => [⟨.hash, sign⟩, ⟨.literal name, place⟩]
  | .className name sign place => [⟨.dot, sign⟩, ⟨.literal name, place⟩]
  | .attributes inner place => [⟨.attributes inner, place⟩]
  | .text inner place => [⟨.text inner, place⟩]

/-- The tokens of a tail. -/
def Tail.tokens : Tail → List Token
  | .empty => []
  | .times count => [count.token]
  | .close place => [⟨.close, place⟩]
  | .timesClose count place => [count.token, ⟨.close, place⟩]
  | .closeTimes place count => [⟨.close, place⟩, count.token]
  | .closeClose first second => [⟨.close, first⟩, ⟨.close, second⟩]

/-- The tokens of an element. -/
def Phrase.tokens : Phrase → List Token
  | .named name place modifiers tail =>
    ⟨.literal name, place⟩ :: (modifiers.flatMap Modifier.tokens ++ tail.tokens)
  | .nameless first others tail =>
    first.tokens ++ (others.flatMap Modifier.tokens ++ tail.tokens)

/-- The tokens of an operator. -/
def Op.tokens : Op → List Token
  | .child place => [⟨.child, place⟩]
  | .sibling place => [⟨.sibling, place⟩]
  | .climb place more => ⟨.climb, place⟩ :: more.map fun place ↦ ⟨.climb, place⟩

mutual

/-- The tokens of an item. -/
def Item.tokens : Item → List Token
  | .element phrase => phrase.tokens
  | .group opening row closing count =>
    ⟨.groupOpen, opening⟩ :: (row.tokens ++ ⟨.groupClose, closing⟩ ::
      (count.map Count.token).toList)

/-- The tokens of a row. -/
def Row.tokens : Row → List Token
  | .last item => item.tokens
  | .more item op rest => item.tokens ++ (op.tokens ++ rest.tokens)

end

/-! ## What it means -/

/-- The attributes of a set that begins at a place. -/
def attributesAt (place : Nat) (inner : String) : List Attribute :=
  match AttributeSet.read (place + 1) inner with
  | .ok attributes => attributes
  | .error _ => []

/-- The multiplier that a count stands for. -/
def Count.multiplier (c : Count) : Multiplier := { count := Text.numeral c.digits.toList }

/-- An element with one modifier more. -/
def Modifier.addTo (e : Element) : Modifier → Element
  | .id name _ _ => { e with id := some (Value.parse name) }
  | .className name _ _ => e.addClass (Value.parse name)
  | .attributes inner place => (attributesAt place inner).foldl Element.fold e
  | .text inner _ => e.addText (Value.parse inner)

/-- The multiplier of a tail. -/
def Tail.times? : Tail → Option Multiplier
  | .empty | .close _ | .closeClose _ _ => none
  | .times count | .timesClose count _ | .closeTimes _ count => some count.multiplier

/-- An element with what its tail says. -/
def Tail.addTo (e : Element) : Tail → Element
  | .empty | .times _ => e
  | .close _ | .timesClose _ _ | .closeTimes _ _ | .closeClose _ _ => { e with selfClosing := true }

/-- Where a modifier begins. -/
def Modifier.start : Modifier → Nat
  | .id _ sign _ | .className _ sign _ => sign
  | .attributes _ place | .text _ place => place

/-- Where an element begins. -/
def Phrase.start : Phrase → Nat
  | .named _ place _ _ => place
  | .nameless first _ _ => first.start

/-- The node that modifiers and a tail make of an element. -/
def nodeFrom (e : Element) (modifiers : List Modifier) (tail : Tail) : Node :=
  Tree.nodeOf (tail.addTo (modifiers.foldl Modifier.addTo e)) tail.times?

/-- The node that an element is. -/
def Phrase.node : Phrase → Node
  | .named name place modifiers tail =>
    nodeFrom { name := some name, offset := place } modifiers tail
  | .nameless first others tail => nodeFrom { offset := first.start } (first :: others) tail

/-- The level of an item after an operator. -/
def Op.next (level : Nat) : Op → Nat
  | .child _ => level + 1
  | .sibling _ => level
  | .climb _ more => level - (more.length + 1)

mutual

/-- The node that an item is on its own: a group has its own statements in it. -/
def Item.node : Item → Node
  | .element phrase => phrase.node
  | .group opening row _ count =>
    .group (Tree.hang (row.items 0)) (count.map Count.multiplier) opening

/-- The items of a row with their levels, the first at a given level. -/
def Row.items (level : Nat) : Row → List (Nat × Node)
  | .last item => [(level, item.node)]
  | .more item op rest => (level, item.node) :: rest.items (op.next level)

end

/-- The tree of a row. -/
def Row.tree (row : Row) : List Node := Tree.hang (row.items 0)

mutual

/-- An item and the items inside it, in the order in which they are written, each on its own. -/
def Item.heads : Item → List Node
  | .element phrase => [phrase.node]
  | .group opening row _ count => .group [] (count.map Count.multiplier) opening :: row.heads

/-- The items of a row and those inside them, in the order in which they are written. -/
def Row.heads : Row → List Node
  | .last item => item.heads
  | .more item _ rest => item.heads ++ rest.heads

end

mutual

/-- The rows inside an item. -/
def Item.rows : Item → List Row
  | .element _ => []
  | .group _ row _ _ => row :: row.inner

/-- The rows of the groups of a row, at any depth. -/
def Row.inner : Row → List Row
  | .last item => item.rows
  | .more item _ rest => item.rows ++ rest.inner

end

/-! ## No `>` after a text -/

/-- An operator may stand after an item: a text has nothing below it. -/
def Op.Fits (op : Op) (item : Item) : Prop :=
  match op with
  | .child _ => item.node.isText = false
  | .sibling _ | .climb _ _ => True

mutual

/-- No `>` stands after a text inside an item. -/
def Item.Fits : Item → Prop
  | .element _ => True
  | .group _ row _ _ => row.Fits

/-- No `>` of a row or inside it stands after a text. -/
def Row.Fits : Row → Prop
  | .last item => item.Fits
  | .more item op rest => item.Fits ∧ op.Fits item ∧ rest.Fits

end

theorem Row.items_eq (level : Nat) (row : Row) :
    ∃ item more, row.items level = (level, Item.node item) :: more := by
  cases row with
  | last item => exact ⟨item, [], rfl⟩
  | more item op rest => exact ⟨item, _, rfl⟩

theorem Row.isEmpty_items (level : Nat) (row : Row) : (row.items level).isEmpty = false := by
  obtain ⟨first, more, hitems⟩ := row.items_eq level
  rw [hitems]
  rfl

/-- An operator leads to a level where the next item may stand. -/
theorem Op.mayFollow {op : Op} {item : Item} (h : op.Fits item) (level : Nat) (n : Node) :
    Tree.MayFollow (level, item.node) (op.next level, n) := by
  cases op with
  | child => exact ⟨Nat.le_refl _, fun _ ↦ h⟩
  | sibling => exact ⟨Nat.le_succ _, fun hlt ↦ absurd hlt (Nat.lt_irrefl level)⟩
  | climb place more =>
    refine ⟨?_, fun hlt ↦ ?_⟩ <;> simp only [Op.next] at *
    · omega
    · omega

theorem Row.isChain_items : ∀ (row : Row) (level : Nat), row.Fits →
    (row.items level).IsChain Tree.MayFollow
  | .last item, level, _ => .singleton _
  | .more item op rest, level, ⟨_, hop, hrest⟩ => by
    obtain ⟨next, more, hitems⟩ := rest.items_eq (op.next level)
    have ih := Row.isChain_items rest (op.next level) hrest
    rw [hitems] at ih
    rw [Row.items, hitems]
    exact .cons_cons (op.mayFollow hop level _) ih

/-- The levels of a row are those of a tree. -/
theorem Row.steady {row : Row} (h : row.Fits) : Tree.Steady (row.items 0) where
  first item hitem := by
    obtain ⟨first, more, hitems⟩ := row.items_eq 0
    rw [hitems] at hitem
    obtain rfl := Option.some.inj hitem
    rfl
  next := row.isChain_items 0 h

mutual

theorem Item.fits_of_mem : ∀ {item : Item}, item.Fits → ∀ row ∈ item.rows, row.Fits
  | .element _, _ => by simp [Item.rows]
  | .group _ row _ _, h => List.forall_mem_cons.2 ⟨h, Row.fits_of_mem h⟩

/-- In the groups of a row no `>` stands after a text if none does in the row. -/
theorem Row.fits_of_mem : ∀ {row : Row}, row.Fits → ∀ r ∈ row.inner, r.Fits
  | .last _, h => Item.fits_of_mem h
  | .more _ _ _, ⟨hitem, _, hrest⟩ => fun r hr ↦
    (List.mem_append.1 hr).elim (Item.fits_of_mem hitem r) (Row.fits_of_mem hrest r)

end

/-! ## Reading order -/

theorem preorder_nodeOf (e : Element) (times : Option Multiplier) :
    (Tree.nodeOf e times).preorder = [Tree.nodeOf e times] := by
  unfold Tree.nodeOf
  split
  · split <;> rfl
  · rfl

theorem Phrase.preorder_node (phrase : Phrase) : phrase.node.preorder = [phrase.node] := by
  cases phrase <;> exact preorder_nodeOf _ _

mutual

/-- In reading order an item is followed by the items inside it. -/
theorem Item.preorder_node : ∀ {item : Item}, item.Fits → item.node.preorder = item.heads
  | .element phrase, _ => phrase.preorder_node
  | .group opening row _ count, h => by
    rw [Item.node, Node.preorder, Item.heads, ← Tree.nest_eq_hang (Row.steady h),
      Tree.allPreorder_nest (Row.steady h), Row.preorder_items h 0]

theorem Row.preorder_items : ∀ {row : Row}, row.Fits → ∀ level,
    (row.items level).flatMap (fun item ↦ item.2.preorder) = row.heads
  | .last _, h, level => by
    rw [Row.items, List.flatMap_singleton, Row.heads, Item.preorder_node h]
  | .more _ op _, ⟨hitem, _, hrest⟩, level => by
    rw [Row.items, List.flatMap_cons, Row.heads, Item.preorder_node hitem,
      Row.preorder_items hrest (op.next level)]

end

/-- In reading order the tree of a row lists its items as they are written. -/
theorem Row.allPreorder_tree {row : Row} (h : row.Fits) :
    Node.allPreorder row.tree = row.heads := by
  rw [Row.tree, ← Tree.nest_eq_hang (Row.steady h), Tree.allPreorder_nest (Row.steady h),
    Row.preorder_items h 0]

/-! ## Names and places of elements -/

/-- The name of an element and where it stands.  Nothing that is written after a name changes
them. -/
def origin (e : Element) : Option String × Nat := (e.name, e.offset)

theorem origin_foldl {α : Type} {f : Element → α → Element}
    (h : ∀ e a, origin (f e a) = origin e) (as : List α) (e : Element) :
    origin (as.foldl f e) = origin e := by
  induction as generalizing e with
  | nil => rfl
  | cons a as ih => exact (ih _).trans (h e a)

theorem origin_addClass (e : Element) (v : Value) : origin (e.addClass v) = origin e := by
  unfold Element.addClass
  split <;> rfl

theorem origin_fold (e : Element) (a : Attribute) : origin (e.fold a) = origin e := by
  unfold Element.fold
  dsimp only
  split
  · rfl
  · split
    · exact origin_foldl origin_addClass _ e
    · rfl

theorem Modifier.origin_addTo (e : Element) (modifier : Modifier) :
    origin (modifier.addTo e) = origin e := by
  cases modifier with
  | id | text => rfl
  | className name => exact origin_addClass e _
  | attributes inner place => exact origin_foldl origin_fold _ e

/-- What modifiers and a tail leave as it is in an element. -/
theorem origin_addTo (e : Element) (modifiers : List Modifier) (tail : Tail) :
    origin (tail.addTo (modifiers.foldl Modifier.addTo e)) = origin e := by
  rw [← origin_foldl Modifier.origin_addTo modifiers e]
  cases tail <;> rfl

/-- An element stands where its first token stands. -/
theorem Phrase.offset_node (phrase : Phrase) : phrase.node.offset = phrase.start := by
  have hoffset : ∀ e ms tail, (nodeFrom e ms tail).offset = e.offset := by
    intro e ms tail
    refine Eq.trans ?_ (congrArg Prod.snd (origin_addTo e ms tail))
    rw [nodeFrom, Tree.nodeOf]
    repeat' split
    all_goals rfl
  cases phrase <;> exact hoffset _ _ _

/-! ## Building along a path -/

/-- Where the path of indices goes on after an operator: one step down to the node that came last,
or one step up for every `^` as long as there is one to go. -/
def Op.move (op : Op) (path : List Nat) (nodes : List Node) : Option (List Nat) :=
  match op with
  | .child _ => (Tree.childrenAt path nodes).map fun below ↦ path ++ [below.length - 1]
  | .sibling _ => some path
  | .climb _ more => some (path.take (path.length - (more.length + 1)))

/-- The tree of a row, built along a path of indices that the operators move; none if the path ever
leads to an index that is missing or into a text. -/
def Row.insert : Row → List Nat → List Node → Option (List Node)
  | .last item, path, nodes => Tree.insertAt item.node path nodes
  | .more item op rest, path, nodes => do
    let nodes ← Tree.insertAt item.node path nodes
    let path ← op.move path nodes
    rest.insert path nodes

/-- The path keeps to the right edge. -/
theorem Op.move_edge {op : Op} {item : Item} (h : op.Fits item) {level : Nat} {nodes : List Node}
    (hreach : Tree.Reaches level nodes) :
    op.move (Tree.edge level nodes) (Tree.attach level item.node nodes)
        = some (Tree.edge (op.next level) (Tree.attach level item.node nodes)) ∧
      Tree.Reaches (op.next level) (Tree.attach level item.node nodes) := by
  obtain ⟨hat, hbelow⟩ := hreach.attach (n := item.node)
  rw [← Tree.edge_attach item.node hreach]
  cases op with
  | child =>
    obtain ⟨below, hchildren, hedge⟩ := Tree.childrenAt_edge hat
    exact ⟨by rw [Op.move, hchildren, Option.map_some, hedge]; rfl, hbelow h⟩
  | sibling => exact ⟨rfl, hat⟩
  | climb place more =>
    refine ⟨?_, hat.of_le (Nat.sub_le _ _)⟩
    rw [Op.move, Tree.length_edge, Tree.take_edge (Nat.sub_le _ _), Op.next]

theorem Row.insert_edge : ∀ {row : Row}, row.Fits → ∀ {level : Nat} {nodes : List Node},
    Tree.Reaches level nodes → row.insert (Tree.edge level nodes) nodes
      = some ((row.items level).foldl (fun nodes item ↦ Tree.attach item.1 item.2 nodes) nodes)
  | .last item, _, level, nodes, hreach => Tree.insertAt_edge item.node hreach
  | .more item op rest, ⟨_, hop, hrest⟩, level, nodes, hreach => by
    obtain ⟨hmove, hnext⟩ := Op.move_edge hop hreach
    rw [Row.insert, Tree.insertAt_edge item.node hreach]
    simp only [bind, Option.bind, hmove]
    exact Row.insert_edge hrest hnext

/-- **The path never goes astray.**  Built along the path of indices, a row gives its tree. -/
theorem Row.insert_eq {row : Row} (h : row.Fits) : row.insert [] [] = some row.tree := by
  rw [Row.tree, ← Tree.nest_eq_hang (Row.steady h)]
  have hreach : Tree.Reaches 0 [] := trivial
  exact Row.insert_edge h hreach

end Shorthand.Markup.Source
