import Shorthand.Markup.Snippet

/-!
# Properties of forests

What is proved of a list of nodes follows from what holds of the nodes below the first one and of
those after it.  Most properties of a forest are asked of every node by itself, so they last where
nodes are hung from others.

* `Node.forest_induction` : induction on a forest.
* `Node.Nodewise` : a property that is asked of every node by itself.
* `Node.Nodewise.adoptLast` : it lasts where nodes are hung into a forest.
-/

set_option autoImplicit false

namespace Shorthand.Markup.Node

/-! ## Induction -/

mutual

/-- What holds of a forest if it does of the nodes below the first one and of those after it. -/
theorem forest_children {motive : List Node → Prop} (nil : motive [])
    (cons : ∀ n ns, motive n.children → motive ns → motive (n :: ns)) :
    ∀ n : Node, motive n.children
  | .element _ _ children => forest_induction nil cons children
  | .text _ _ _ => nil
  | .group children _ _ => forest_induction nil cons children

/-- Induction on a forest: over the nodes below the first node and over those after it. -/
theorem forest_induction {motive : List Node → Prop} (nil : motive [])
    (cons : ∀ n ns, motive n.children → motive ns → motive (n :: ns)) :
    ∀ ns : List Node, motive ns
  | [] => nil
  | n :: ns => cons n ns (forest_children nil cons n) (forest_induction nil cons ns)

end

/-! ## Properties of nodes -/

/-- A property of forests that is asked of every node by itself: it does not matter what is beside a
node, or what else is below it. -/
structure Nodewise (C : List Node → Prop) : Prop where
  append : ∀ {ns ms : List Node}, C (ns ++ ms) ↔ C ns ∧ C ms
  children : ∀ {n : Node}, C [n] → C n.children
  withChildren : ∀ {n : Node} {ns : List Node}, C [n] → C ns → C [n.withChildren ns]

/-- A node that takes others in is that node with other children. -/
theorem adopt_eq {extra : List Node} {n m : Node} (h : n.adopt extra = some m) :
    m = n.withChildren ((adoptLast extra n.children).getD (n.children ++ extra)) := by
  cases n with
  | element | group => exact (Option.some.inj h).symm
  | text => cases h

namespace Nodewise

variable {C : List Node → Prop}

theorem cons (hC : Nodewise C) {n : Node} {ns : List Node} : C (n :: ns) ↔ C [n] ∧ C ns :=
  @append C hC [n] ns

/-- Hanging nodes into a forest keeps what is asked of every node by itself. -/
theorem adoptLast (hC : Nodewise C) {extra ns : List Node} (hextra : C extra) (h : C ns) :
    C ((Node.adoptLast extra ns).getD (ns ++ extra)) := by
  induction ns using forest_induction with
  | nil => exact hextra
  | cons n ns below rest =>
    obtain ⟨hn, hns⟩ := hC.cons.1 h
    -- Only the last node may take the others in; if it cannot, they stand after it.
    cases ns with
    | nil =>
      rw [Node.adoptLast]
      cases hm : n.adopt extra with
      | none => exact hC.append.2 ⟨h, hextra⟩
      | some m =>
        obtain rfl := adopt_eq hm
        exact hC.withChildren hn (below (hC.children hn))
    | cons m ms =>
      have hrest := rest hns
      rw [Node.adoptLast]
      cases hl : Node.adoptLast extra (m :: ms) with
      | none => exact hC.append.2 ⟨h, hextra⟩
      | some ks =>
        rw [hl] at hrest
        exact hC.cons.2 ⟨hn, hrest⟩

end Nodewise

end Shorthand.Markup.Node
