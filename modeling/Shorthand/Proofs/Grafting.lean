import Shorthand.Proofs.WrittenOut
import Shorthand.Proofs.TextsRead
import Shorthand.Proofs.Forest

/-!
# Expansion keeps what was typed in order

Every node of a tree yields a piece: an element that names a snippet yields what the snippet expands
to, with what was typed on the element merged into it, and any other node yields itself.  The
expanded tree is these pieces, put together as the nodes were: what the nodes below a node yield is
hung into the piece of that node, after all that the piece has.  So in reading order the expanded
tree is the pieces one after the other, in the order of the nodes.

A piece is found without any bound on depth; expansion to a depth finds the same pieces if the table
has fewer snippets than that.

* `Node.Hung` : nodes hung below the innermost last node that can have children.
* `Node.Grafted` : the pieces of the nodes of a tree, put together.
* `Snippet.Yields` : which pieces the nodes of a listing yield.
* `Snippet.expandTo_eq_ok_iff` : the expanded tree is the pieces of its nodes, put together.
* `Snippet.expandAll_in_order` : expansion keeps what was typed in order.
-/

set_option autoImplicit false

namespace Shorthand.Markup

namespace Node

/-! ## Hanging nodes into a tree -/

/-- Nodes that are hung into a tree.  Down the path of last nodes they become the last children of
the innermost node that can have children; if the last node of the tree is a text, or there is none,
they come after it. -/
inductive Hung (extra : List Node) : List Node → List Node → Prop where
  | beside {ns : List Node} (h : ∀ last ∈ ns.getLast?, last.isText = true) :
      Hung extra ns (ns ++ extra)
  | inside (before : List Node) {ms : List Node} {last : Node} (hlast : last.isText = false)
      (h : Hung extra last.children ms) :
      Hung extra (before ++ [last]) (before ++ [last.withChildren ms])

theorem adopt_of_isText_eq_false {n : Node} (h : n.isText = false) (extra : List Node) :
    n.adopt extra
      = some (n.withChildren ((adoptLast extra n.children).getD (n.children ++ extra))) := by
  cases n with
  | element | group => rfl
  | text => cases h

theorem adoptLast_append_singleton (extra before : List Node) (n : Node) :
    adoptLast extra (before ++ [n]) = (n.adopt extra).map fun m ↦ before ++ [m] := by
  induction before with
  | nil => rfl
  | cons m before ih =>
    obtain ⟨k, ks, hks⟩ := List.exists_cons_of_ne_nil (l := before ++ [n]) (by simp)
    rw [List.cons_append, hks, adoptLast, ← hks, ih, Option.map_map]
    rfl

/-- Nothing can be hung into a list that ends in a text. -/
theorem adoptLast_eq_none {extra ns : List Node} (h : ∀ last ∈ ns.getLast?, last.isText = true) :
    adoptLast extra ns = none := by
  rcases List.eq_nil_or_concat ns with rfl | ⟨before, last, rfl⟩
  · rfl
  · have hlast := h last (by simp)
    rw [List.concat_eq_append, adoptLast_append_singleton]
    cases last with
    | text => rfl
    | element | group => cases hlast

theorem Hung.cons {extra ns ms : List Node} (h : Hung extra ns ms) (hne : ns ≠ []) (n : Node) :
    Hung extra (n :: ns) (n :: ms) := by
  cases h with
  | beside h =>
    refine .beside fun last hlast ↦ h last ?_
    rwa [List.getLast?_cons_of_ne_nil hne] at hlast
  | inside before hlast h => exact .inside (n :: before) hlast h

theorem hung_adoptLast (extra ns : List Node) :
    Hung extra ns ((adoptLast extra ns).getD (ns ++ extra)) := by
  induction ns using forest_induction with
  | nil => exact .beside fun last hlast ↦ by cases hlast
  | cons n ns below rest =>
    cases ns with
    | nil =>
      cases hn : n.isText with
      | true =>
        have hlast : ∀ last ∈ [n].getLast?, last.isText = true := by
          rintro _ ⟨⟩
          exact hn
        rw [adoptLast_eq_none hlast]
        exact .beside hlast
      | false =>
        rw [adoptLast, adopt_of_isText_eq_false hn]
        exact .inside [] hn below
    | cons m ms =>
      have hcons := rest.cons (List.cons_ne_nil m ms) n
      rw [adoptLast]
      cases hl : adoptLast extra (m :: ms) with
      | none => rwa [hl] at hcons
      | some ks => rwa [hl] at hcons

/-- Nodes are hung where the innermost last node adopts them. -/
theorem hung_iff {extra ns ms : List Node} :
    Hung extra ns ms ↔ ms = (adoptLast extra ns).getD (ns ++ extra) := by
  constructor
  · intro h
    induction h with
    | beside h => rw [adoptLast_eq_none h, Option.getD_none]
    | inside _ hlast _ ih =>
      rw [adoptLast_append_singleton, adopt_of_isText_eq_false hlast, ← ih]
      rfl
  · rintro rfl
    exact hung_adoptLast extra ns

/-- What is hung into a tree comes last in reading order. -/
theorem Hung.listing {extra ns ms : List Node} (h : Hung extra ns ms) :
    allPreorder ms = allPreorder ns ++ allPreorder extra := by
  induction h with
  | beside => exact allPreorder_append _ _
  | @inside before ms last hlast _ ih =>
    rw [allPreorder_append, allPreorder_append, allPreorder_singleton, allPreorder_singleton,
      preorder_eq, preorder_eq last, withChildren_withChildren, children_withChildren hlast, ih,
      List.append_assoc, List.cons_append]

/-! ## Nodes on their own -/

theorem allPreorder_of_bare {ns : List Node} (hbare : ∀ n ∈ ns, n.withChildren [] = n) :
    allPreorder ns = ns := by
  induction ns with
  | nil => rfl
  | cons n ns ih =>
    obtain ⟨hn, hns⟩ := List.forall_mem_cons.1 hbare
    have hchildren : n.children = [] := by
      rw [← hn]
      cases n <;> rfl
    rw [allPreorder, preorder_eq, ih hns, hn, hchildren]
    rfl

theorem withChildren_nil_of_mem {n : Node} : ∀ {ns : List Node}, n ∈ allPreorder ns →
    n.withChildren [] = n := by
  intro ns
  induction ns using forest_induction with
  | nil => exact fun h ↦ by cases h
  | cons m ms below rest =>
    intro h
    rw [allPreorder, preorder_eq, List.cons_append, List.mem_cons, List.mem_append] at h
    rcases h with rfl | h | h
    · exact withChildren_withChildren m [] []
    · exact below h
    · exact rest h

/-- A listing lists its nodes as they are. -/
theorem allPreorder_allPreorder (ns : List Node) :
    allPreorder (allPreorder ns) = allPreorder ns :=
  allPreorder_of_bare fun _ ↦ withChildren_nil_of_mem

/-! ## Pieces put together -/

/-- The pieces of the nodes of a tree in reading order, put together as the nodes are: the pieces of
the nodes below a node are put together and hung into its piece, before the pieces of what comes
after it. -/
inductive Grafted : List (List Node) → List Node → List Node → Prop where
  | nil : Grafted [] [] []
  | cons {piece below out rest : List Node} {ps qs : List (List Node)} {n : Node} {ns : List Node}
      (hbelow : Grafted ps n.children below) (hhung : Hung below piece out)
      (hrest : Grafted qs ns rest) : Grafted (piece :: (ps ++ qs)) (n :: ns) (out ++ rest)

namespace Grafted

variable {pieces : List (List Node)} {ns out : List Node}

/-- In reading order there is one piece after the other. -/
theorem listing (h : Grafted pieces ns out) : allPreorder out = pieces.flatMap allPreorder := by
  induction h with
  | nil => rfl
  | cons _ hhung _ ihbelow ihrest =>
    rw [allPreorder_append, hhung.listing, ihbelow, ihrest, List.flatMap_cons, List.flatMap_append,
      List.append_assoc]

/-- There is a piece for every node. -/
theorem length_eq (h : Grafted pieces ns out) : pieces.length = (allPreorder ns).length := by
  induction h with
  | nil => rfl
  | cons _ _ _ ihbelow ihrest =>
    rw [allPreorder, preorder_eq, List.cons_append, List.length_cons, List.length_cons,
      List.length_append, List.length_append, ihbelow, ihrest]

end Grafted

end Node

namespace Snippet

/-! ## What the nodes of a listing yield -/

/-- The key and the text of the snippet that a node names; only an element names one. -/
def named? (table : Table String) (n : Node) : Option (String × String) :=
  n.element?.bind fun p ↦ find? table p.2

/-- Which pieces the nodes of a listing yield, and how the supply of scopes and links goes on.  A
node that names no snippet yields itself.  For an element that names one, the snippet's text is
read, its fields get a scope of their own, the nodes of its tree yield pieces in their turn, where
the key names nothing, and what was typed on the element is merged into the top nodes of these
pieces put together. -/
inductive Yields : Table String → Progress → List Node → List (List Node) → Progress → Prop where
  | nil {table : Table String} {p : Progress} : Yields table p [] [] p
  | keep {table : Table String} {p q : Progress} {n : Node} {ns : List Node}
      {pieces : List (List Node)} (hname : named? table n = none)
      (hrest : Yields table p ns pieces q) : Yields table p (n :: ns) ([n] :: pieces) q
  | stand {table : Table String} {p mid q : Progress} {e : Element} {times : Option Multiplier}
      {key text : String} {parsed tops ns : List Node} {own pieces : List (List Node)}
      (hfind : find? table e = some (key, text)) (hparse : Tree.parse text = .ok parsed)
      (hown : Yields (table.remove key) { p with scope := p.scope + 1 }
        (Node.allPreorder (inScope p.scope parsed)) own mid)
      (htops : Node.Grafted own (inScope p.scope parsed) tops)
      (hrest : Yields table (Node.mergeAll e times tops mid).2 ns pieces q) :
      Yields table p (.element e times [] :: ns) ((Node.mergeAll e times tops mid).1 :: pieces) q

/-- A tree expands to the pieces of its nodes, put together. -/
def Expands (table : Table String) (p : Progress) (ns out : List Node) (q : Progress) : Prop :=
  ∃ pieces, Yields table p (Node.allPreorder ns) pieces q ∧ Node.Grafted pieces ns out

/-- An instance of a snippet expands to the tree of its text, in a scope of its own and with a table
without its key. -/
def Instantiates (table : Table String) (key text : String) (p : Progress) (tops : List Node)
    (q : Progress) : Prop :=
  ∃ parsed, Tree.parse text = .ok parsed ∧
    Expands (table.remove key) { p with scope := p.scope + 1 } (inScope p.scope parsed) tops q

/-- Which piece a single node yields. -/
inductive YieldsOne (table : Table String) (p : Progress) : Node → List Node → Progress → Prop where
  | keep {n : Node} (hname : named? table n = none) : YieldsOne table p n [n] p
  | stand {mid : Progress} {e : Element} {times : Option Multiplier} {key text : String}
      {tops : List Node} (hfind : find? table e = some (key, text))
      (hown : Instantiates table key text p tops mid) :
      YieldsOne table p (.element e times []) (Node.mergeAll e times tops mid).1
        (Node.mergeAll e times tops mid).2

namespace YieldsOne

variable {table : Table String} {p q : Progress} {n : Node} {piece : List Node}

/-- A node that names no snippet yields itself. -/
theorem unnamed_iff (hname : named? table n = none) :
    YieldsOne table p n piece q ↔ piece = [n] ∧ q = p := by
  constructor
  · intro h
    cases h with
    | keep => exact ⟨rfl, rfl⟩
    | stand hfind =>
      rw [named?, Node.element?, Option.bind_some, hfind] at hname
      cases hname
  · rintro ⟨rfl, rfl⟩
    exact .keep hname

/-- An element that names a snippet yields the snippet's own expansion with the element merged into
it. -/
theorem named_iff {e : Element} {times : Option Multiplier} {key text : String}
    (hfind : find? table e = some (key, text)) :
    YieldsOne table p (.element e times []) piece q ↔
      ∃ tops mid, Instantiates table key text p tops mid ∧
        Node.mergeAll e times tops mid = (piece, q) := by
  constructor
  · intro h
    cases h with
    | keep hname =>
      rw [named?, Node.element?, Option.bind_some, hfind] at hname
      cases hname
    | stand hfind' hown =>
      cases hfind.symm.trans hfind'
      exact ⟨_, _, hown, rfl⟩
  · rintro ⟨tops, mid, hown, hmerge⟩
    obtain ⟨rfl, rfl⟩ := Prod.mk.inj hmerge.symm
    exact .stand hfind hown

end YieldsOne

namespace Yields

variable {table : Table String} {p mid q : Progress} {n : Node} {ns ms : List Node}
  {ps qs pieces : List (List Node)}

theorem nil_iff : Yields table p [] pieces q ↔ pieces = [] ∧ q = p := by
  constructor
  · rintro ⟨⟩
    exact ⟨rfl, rfl⟩
  · rintro ⟨rfl, rfl⟩
    exact .nil

/-- The first node of a listing yields its piece, and the others go on from there. -/
theorem cons_iff : Yields table p (n :: ns) pieces q ↔
    ∃ piece rest mid, pieces = piece :: rest ∧ YieldsOne table p n piece mid ∧
      Yields table mid ns rest q := by
  constructor
  · intro h
    cases h with
    | keep hname hrest => exact ⟨_, _, _, rfl, .keep hname, hrest⟩
    | stand hfind hparse hown htops hrest =>
      exact ⟨_, _, _, rfl, .stand hfind ⟨_, hparse, _, hown, htops⟩, hrest⟩
  · rintro ⟨piece, rest, mid, rfl, hone, hrest⟩
    cases hone with
    | keep hname => exact .keep hname hrest
    | stand hfind hown =>
      obtain ⟨parsed, hparse, own, hown, htops⟩ := hown
      exact .stand hfind hparse hown htops hrest

/-- The pieces of two listings are found one listing after the other. -/
theorem append_iff : Yields table p (ns ++ ms) pieces q ↔
    ∃ ps qs mid, pieces = ps ++ qs ∧ Yields table p ns ps mid ∧ Yields table mid ms qs q := by
  induction ns generalizing p pieces with
  | nil =>
    simp only [nil_iff, List.nil_append]
    constructor
    · exact fun h ↦ ⟨[], pieces, p, rfl, ⟨rfl, rfl⟩, h⟩
    · rintro ⟨_, _, _, rfl, ⟨rfl, rfl⟩, h⟩
      exact h
  | cons n ns ih =>
    simp only [List.cons_append, cons_iff, ih]
    constructor
    · rintro ⟨piece, _, mid₁, rfl, hone, ps, qs, mid₂, rfl, hns, hms⟩
      exact ⟨piece :: ps, qs, mid₂, rfl, ⟨piece, ps, mid₁, rfl, hone, hns⟩, hms⟩
    · rintro ⟨_, qs, mid₂, rfl, ⟨piece, ps, mid₁, rfl, hone, hns⟩, hms⟩
      exact ⟨piece, ps ++ qs, mid₁, rfl, hone, ps, qs, mid₂, rfl, hns, hms⟩

/-- Every node of a listing yields one piece. -/
theorem length_eq (h : Yields table p ns pieces q) : pieces.length = ns.length := by
  induction h with
  | nil => rfl
  | keep _ _ ih => exact congrArg (· + 1) ih
  | stand _ _ _ _ _ _ ih => exact congrArg (· + 1) ih

end Yields

/-! ## Expansion puts the pieces together -/

section Expanding

variable {snippet : Expander} {table : Table String}

/-- The nodes below a node are expanded after it and hung into its piece. -/
theorem expandNode_eq_ok_iff {n : Node} {p q : Progress} {out : List Node}
    (hsnippet : ∀ key text p tops q, (∃ e, find? table e = some (key, text)) →
      (snippet key text p = .ok (tops, q) ↔ Instantiates table key text p tops q)) :
    expandNode snippet table n p = .ok (out, q) ↔
      ∃ piece mid below, YieldsOne table p (n.withChildren []) piece mid ∧
        expandNodes snippet table n.children mid = .ok (below, q) ∧ Node.Hung below piece out := by
  -- A node without a snippet takes what is below it back.
  have hkeep : named? table (n.withChildren []) = none →
      ((∃ piece mid below, YieldsOne table p (n.withChildren []) piece mid ∧
        expandNodes snippet table n.children mid = .ok (below, q) ∧ Node.Hung below piece out) ↔
      ∃ below, expandNodes snippet table n.children p = .ok (below, q) ∧
        out = (Node.adoptLast below [n.withChildren []]).getD ([n.withChildren []] ++ below)) := by
    intro hname
    simp only [YieldsOne.unnamed_iff hname, Node.hung_iff]
    constructor
    · rintro ⟨_, _, below, ⟨rfl, rfl⟩, hbelow, hout⟩
      exact ⟨below, hbelow, hout⟩
    · rintro ⟨below, hbelow, hout⟩
      exact ⟨_, p, below, ⟨rfl, rfl⟩, hbelow, hout⟩
  cases n with
  | text value times offset =>
    rw [hkeep rfl, expandNode]
    simp [Node.children, expandNodes, Node.adoptLast, Node.adopt, Node.withChildren, eq_comm,
      and_comm]
  | group children times offset =>
    rw [hkeep rfl, expandNode, bind_eq_ok_iff]
    simp [Node.children, Node.adoptLast, Node.adopt, Node.withChildren, pure, Except.pure, eq_comm]
  | element e times children =>
    have hnamed : named? table ((Node.element e times children).withChildren []) = find? table e :=
      rfl
    rw [expandNode]
    cases hfind : find? table e with
    | none =>
      rw [hkeep (hnamed.trans hfind)]
      dsimp only
      rw [bind_eq_ok_iff]
      simp [Node.children, Node.adoptLast, Node.adopt, Node.withChildren, pure, Except.pure,
        eq_comm]
    | some found =>
      obtain ⟨key, text⟩ := found
      dsimp only
      rw [bind_eq_ok_iff]
      constructor
      · rintro ⟨⟨tops, mid⟩, htops, h⟩
        obtain ⟨⟨below, q'⟩, hbelow, h⟩ := bind_eq_ok_iff.1 h
        cases h
        have hown := (hsnippet _ _ _ _ _ ⟨e, hfind⟩).1 htops
        exact ⟨_, _, below, .stand hfind hown, hbelow, Node.hung_adoptLast _ _⟩
      · rintro ⟨piece, mid, below, hone, hbelow, hhung⟩
        obtain ⟨tops, own, hown, hmerge⟩ := (YieldsOne.named_iff hfind).1 hone
        refine ⟨_, (hsnippet _ _ _ _ _ ⟨e, hfind⟩).2 hown, ?_⟩
        simp only [hmerge]
        exact bind_eq_ok_iff.2 ⟨_, hbelow, by rw [Node.hung_iff.1 hhung]; rfl⟩

/-- Expanding a tree is to find the pieces of its nodes and to put them together, if that is so for
the snippets. -/
theorem expandNodes_eq_ok_iff {ns : List Node} {p q : Progress} {out : List Node}
    (hsnippet : ∀ key text p tops q, (∃ e, find? table e = some (key, text)) →
      (snippet key text p = .ok (tops, q) ↔ Instantiates table key text p tops q)) :
    expandNodes snippet table ns p = .ok (out, q) ↔ Expands table p ns out q := by
  induction ns using Node.forest_induction generalizing p q out with
  | nil =>
    rw [expandNodes]
    constructor
    · rintro ⟨⟩
      exact ⟨[], .nil, .nil⟩
    · rintro ⟨_, hyields, ⟨⟩⟩
      rw [(Yields.nil_iff.1 hyields).2]
  | cons n ns below rest =>
    have hlist : Node.allPreorder (n :: ns)
        = n.withChildren [] :: (Node.allPreorder n.children ++ Node.allPreorder ns) := by
      rw [Node.allPreorder, Node.preorder_eq, List.cons_append]
    rw [expandNodes, bind_eq_ok_iff]
    constructor
    · rintro ⟨⟨first, q₁⟩, hfirst, h⟩
      obtain ⟨⟨others, q₂⟩, hothers, h⟩ := bind_eq_ok_iff.1 h
      cases h
      obtain ⟨piece, mid, under, hone, hunder, hhung⟩ := (expandNode_eq_ok_iff hsnippet).1 hfirst
      obtain ⟨ps, hps, hgrafted⟩ := below.1 hunder
      obtain ⟨qs, hqs, hgrafted'⟩ := rest.1 hothers
      refine ⟨piece :: (ps ++ qs), ?_, .cons hgrafted hhung hgrafted'⟩
      rw [hlist]
      exact Yields.cons_iff.2
        ⟨_, _, _, rfl, hone, Yields.append_iff.2 ⟨_, _, _, rfl, hps, hqs⟩⟩
    · rintro ⟨_, hyields, hgrafted⟩
      cases hgrafted with
      | @cons piece under first others ps qs _ _ hbelow hhung hrest =>
      rw [hlist] at hyields
      obtain ⟨_, _, mid, heq, hone, hyields⟩ := Yields.cons_iff.1 hyields
      cases heq
      obtain ⟨ps', qs', mid', heq, hps, hqs⟩ := Yields.append_iff.1 hyields
      -- There is a piece for every node, so the pieces are parted where the nodes are.
      obtain ⟨rfl, rfl⟩ := List.append_inj heq (hbelow.length_eq.trans hps.length_eq.symm)
      have hfirst := (expandNode_eq_ok_iff hsnippet).2
        ⟨_, _, _, hone, below.2 ⟨_, hps, hbelow⟩, hhung⟩
      exact ⟨_, hfirst, bind_eq_ok_iff.2 ⟨_, rest.2 ⟨_, hqs, hrest⟩, rfl⟩⟩

end Expanding

/-- **The expanded tree is the pieces of its nodes, put together.**  A bound on depth makes no
difference, as every level of expansion has a key less. -/
theorem expandTo_eq_ok_iff {depth : Nat} {table : Table String} (hdepth : table.length < depth)
    {ns : List Node} {p q : Progress} {out : List Node} :
    expandTo depth table ns p = .ok (out, q) ↔ Expands table p ns out q := by
  induction depth generalizing table ns p q out with
  | zero => exact absurd hdepth (Nat.not_lt_zero _)
  | succ depth ih =>
    rw [expandTo_succ]
    refine expandNodes_eq_ok_iff fun key text p tops q hfind ↦ ?_
    obtain ⟨e, hfind⟩ := hfind
    have hlt : (table.remove key).length < depth :=
      Nat.lt_of_lt_of_le (length_remove_lt hfind) (Nat.le_of_lt_succ hdepth)
    rw [expander, bind_eq_ok_iff]
    exact exists_congr fun parsed ↦ and_congr_right fun _ ↦ ih hlt

/-- An expanded tree is what its nodes expand to, with linked attributes as they were left. -/
theorem expandAll_eq_ok_iff_expands {table : Table String} {ns resolved : List Node} :
    expandAll table ns = .ok resolved ↔ ∃ out q, Expands table ⟨supplyFor ns, []⟩ ns out q ∧
      resolved = Node.settle q.shown out := by
  rw [expandAll, map_eq_ok_iff]
  constructor
  · rintro ⟨⟨out, q⟩, h, rfl⟩
    exact ⟨out, q, (expandTo_eq_ok_iff (Nat.lt_succ_self _)).1 h, rfl⟩
  · rintro ⟨out, q, h, rfl⟩
    exact ⟨(out, q), (expandTo_eq_ok_iff (Nat.lt_succ_self _)).2 h, rfl⟩

/-- What was read needs no settling. -/
theorem Expands.shown_eq_nil {table : Table String} {ns out : List Node} {q : Progress}
    (hns : Node.AllTyped ns) (h : Expands table ⟨supplyFor ns, []⟩ ns out q) : q.shown = [] :=
  (expandTo_gives (table.length + 1) 0 table ns ⟨supplyFor ns, []⟩ (out, q) (Nat.zero_le _) rfl
    (plain_of_typed _ _ hns) ((expandTo_eq_ok_iff (Nat.lt_succ_self _)).2 h)).shown

/-- **Expansion keeps what was typed in order.**  The nodes of a tree, in reading order, yield one
piece each: an element that names a snippet yields the snippet's own expansion with the element
merged into it, any other node itself.  In reading order the expanded tree is these pieces one after
the other.  As a tree it is the pieces put together as the nodes are, where the nodes under an
element that names a snippet are hung into the innermost last node of its piece.  A tree that was
read is given out like that; in a tree with linked attributes, these are then as they were left. -/
theorem expandAll_in_order {table : Table String} {nodes resolved : List Node}
    (h : expandAll table nodes = .ok resolved) :
    ∃ pieces out q, Yields table ⟨supplyFor nodes, []⟩ (Node.allPreorder nodes) pieces q ∧
      pieces.length = (Node.allPreorder nodes).length ∧
      Node.allPreorder out = pieces.flatMap Node.allPreorder ∧
      Node.Grafted pieces nodes out ∧
      resolved = Node.settle q.shown out ∧ (Node.AllTyped nodes → resolved = out) := by
  obtain ⟨out, q, hexpands, rfl⟩ := expandAll_eq_ok_iff_expands.1 h
  have hsettled : Node.AllTyped nodes → Node.settle q.shown out = out := by
    intro hnodes
    rw [hexpands.shown_eq_nil hnodes, Node.settle_nil]
  obtain ⟨pieces, hyields, hgrafted⟩ := hexpands
  exact ⟨pieces, out, q, hyields, hyields.length_eq, hgrafted.listing, hgrafted, rfl, hsettled⟩

/-- A snippet whose tree ends in a group, with another one in front of it. -/
def nestedTable : Table String := [("x", "y.c+(q>\x7bz\x7d)"), ("y", "r>s")]

/-- An element that names only a tag. -/
def plainElement (name : String) (offset : Nat) : Element := { name := some name, offset }

/-- `ul>x.b>i+\x7bt\x7d^j`: two nodes under an element that names a snippet, and one after it. -/
def nestedTyped : List Node :=
  [.element (plainElement "ul" 0) none
    [.element { plainElement "x" 3 with classes := [[.text "b"]] } none
      [.element (plainElement "i" 7) none [], .text [.text "t"] none 9],
    .element (plainElement "j" 13) none []]]

/-- What it expands to: the nodes under the snippet stand last in the element that its group
holds. -/
def nestedExpanded : List Node :=
  [.element (plainElement "ul" 0) none
    [.element { plainElement "r" 3 with classes := [[.text "c"], [.text "b"]] } none
      [.element (plainElement "s" 2) none []],
    .group
      [.element (plainElement "q" 5) none
        [.text [.text "z"] none 7, .element (plainElement "i" 7) none [],
          .text [.text "t"] none 9]]
      none 4,
    .element (plainElement "j" 13) none []]]

/-- Nodes under a snippet come after its tree and before what follows it. -/
theorem expandAll_in_order_nested :
    Tree.parse "ul>x.b>i+\x7bt\x7d^j" = .ok nestedTyped ∧
      expandAll nestedTable nestedTyped = .ok nestedExpanded ∧
      ∃ pieces out q, Yields nestedTable ⟨supplyFor nestedTyped, []⟩ (Node.allPreorder nestedTyped)
          pieces q ∧
        pieces.length = (Node.allPreorder nestedTyped).length ∧
        Node.allPreorder out = pieces.flatMap Node.allPreorder ∧
        Node.Grafted pieces nestedTyped out ∧
        nestedExpanded = Node.settle q.shown out ∧
        (Node.AllTyped nestedTyped → nestedExpanded = out) := by
  have hexpand : expandAll nestedTable nestedTyped = .ok nestedExpanded := by decide +kernel
  exact ⟨by decide +kernel, hexpand, expandAll_in_order hexpand⟩

end Snippet

end Shorthand.Markup
