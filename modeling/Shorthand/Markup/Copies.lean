import Shorthand.Markup.Snippet

/-!
# Carrying out multipliers

A node with multiplier `*n` stands for `n` siblings, and a group for the nodes in it.  Every node of
the result remembers the multiplier that numbers it: its own or that of the nearest node around it,
with the number of the copy.

Copies are independent.  The snippet fields of a copy but the first move to scopes of their own, and
attributes that were one within the node are one within each copy, but not across copies.  An
attribute that is shown in several places of a copy is met once for every place when its fields
move, each time from the scope it has just got.

* `Node.copy` : one copy of a node.
* `Copies.unroll` : a tree with its multipliers carried out and its groups dissolved.
-/

set_option autoImplicit false

namespace Shorthand.Markup

/-! ## Renaming -/

/-- A renaming that takes a new number for everything it has not met before. -/
structure Renaming where
  next : Nat
  known : List (Nat × Nat) := []
  deriving DecidableEq, Inhabited

namespace Renaming

/-- The new number of an old one. -/
def image (r : Renaming) (old : Nat) : Nat × Renaming :=
  match r.known.lookup old with
  | some new => (new, r)
  | none => (r.next, ⟨r.next + 1, (old, r.next) :: r.known⟩)

/-- Moves the fields of a value to new scopes; scope 0 is the user's and stays. -/
def moveValue : Value → Renaming → Value × Renaming :=
  walk fun part r ↦
    match part with
    | .text s => (.text s, r)
    | .field f =>
      if f.scope = 0 then (.field f, r)
      else
        let (scope, r) := r.image f.scope
        (.field { f with scope }, r)

end Renaming

/-- Moves the snippet fields of nodes to scopes from `next` on; also returns the next scope. -/
def Node.rescope (nodes : List Node) (next : Nat) : List Node × Nat :=
  let visitor : Visitor (Renaming × Shown) :=
    { value := fun v (r, shown) ↦
        let (v, r) := r.moveValue v
        (v, (r, shown))
      attr := fun a (r, shown) ↦
        let a := a.current shown
        let (value, r) := r.moveValue a.value
        let a := { a with value }
        (a, (r, a.note shown)) }
  let (nodes, (r, shown)) := Node.visitAll (fun _ ↦ visitor) nodes (⟨next, []⟩, [])
  (Node.settle shown nodes, r.next)

/-- Gives the linked attributes of nodes links from `next` on; also returns the next link. -/
def Node.relink (nodes : List Node) (next : Nat) : List Node × Nat :=
  let visitor : Visitor Renaming :=
    { value := fun v r ↦ (v, r)
      attr := fun a r ↦
        match a.link with
        | none => (a, r)
        | some link =>
          let (link, r) := r.image link
          ({ a with link := some link }, r) }
  let (nodes, r) := Node.visitAll (fun _ ↦ visitor) nodes ⟨next, []⟩
  (nodes, r.next)

/-- Copy number `index` of a node; only the first keeps the scopes of its fields. -/
def Node.copy (n : Node) (index : Nat) (supply : Supply) : List Node × Supply :=
  let (nodes, link) := Node.relink [n] supply.link
  if index = 1 then (nodes, { supply with link })
  else
    let (nodes, scope) := Node.rescope nodes supply.scope
    (nodes, { scope, link })

/-! ## Unrolling -/

namespace Copies

variable {α β σ ε : Type}

/-- Gathers what becomes of every item of a list, from left to right, passing a state along. -/
def gather (f : α → σ → Except ε (List β × σ)) : List α → σ → Except ε (List β × σ)
  | [], s => .ok ([], s)
  | a :: as, s => do
    let (first, s) ← f a s
    let (rest, s) ← gather f as s
    return (first ++ rest, s)

/-- The copies that a multiplier asks for. -/
def countOf (times : Option Multiplier) : Nat :=
  match times with
  | none => 1
  | some m => m.count

/-- The multiplier that copy `index` of a node remembers. -/
def multiplierOf (times inherited : Option Multiplier) (index : Nat) : Option Multiplier :=
  match times with
  | none => inherited
  | some m => some ⟨m.count, index⟩

/-- The nodes that one copy stands for: a group stands for the nodes in it.  `inside` unrolls the
nodes below. -/
def dissolve (inside : List Node → Supply → Except Fault (List Node × Supply))
    (times : Option Multiplier) (n : Node) (supply : Supply) : Except Fault (List Node × Supply) :=
  match n with
  | .group children _ _ => inside children supply
  | .element e _ children => do
    let (children, supply) ← inside children supply
    return ([.element e times children], supply)
  | .text value _ offset => .ok ([.text value times offset], supply)

/-- Unrolls nodes of at most a given height.  `inherited` is the multiplier around them, `total`
the number of copies that the multipliers around them ask for, and `limit` the number of copies of
one node that is not exceeded. -/
def unrollTo (limit : Nat) :
    Nat → Option Multiplier → Nat → List Node → Supply → Except Fault (List Node × Supply)
  | 0, _, _, _, supply => .ok ([], supply)
  | height + 1, inherited, total, nodes, supply =>
    gather
      (fun n supply ↦
        let count := countOf n.times
        if limit < total * count then .error (.malformed .tooManyCopies n.offset)
        else
          gather
            (fun index supply ↦
              let (copies, supply) := if 1 < count then n.copy index supply else ([n], supply)
              let times := multiplierOf n.times inherited index
              gather (dissolve (unrollTo limit height times (total * count)) times) copies supply)
            (List.range' 1 count) supply)
      nodes supply

/-- The scopes of the fields of a tree. -/
def scopes (nodes : List Node) : List Nat :=
  (Node.allValues nodes).flatMap fun v ↦ v.fields.map (·.scope)

/-- The numbers not yet used in a tree. -/
def supplyFor (nodes : List Node) : Supply :=
  { scope := (scopes nodes).foldl max 0 + 1
    link := (Snippet.supplyFor nodes).link }

/-- A tree with its multipliers carried out and its groups dissolved.  Fails if the multipliers ask
for more than `limit` copies of one node; `abbreviation` is named as the text at fault. -/
def unroll (limit : Nat) (abbreviation : String) (nodes : List Node) :
    Except Failure (List Node) :=
  Fault.located abbreviation
    ((unrollTo limit (Node.heights nodes + 1) none 1 nodes (supplyFor nodes)).map (·.1))

end Copies

end Shorthand.Markup
