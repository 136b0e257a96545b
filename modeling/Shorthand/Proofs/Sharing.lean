import Shorthand.Markup.Node

/-!
# Visits of trees with linked attributes

A visit goes over a tree from left to right.  Most visits rewrite every part by itself and are plain
maps (`Node.rewriteAll`).  Two of them, the numbering and the moving of fields, treat a linked
attribute as what it is, one attribute that several nodes show: each place rewrites the state that
the places before it have left, and in the end every place shows the last state.

Such a visit is a map, too, once the last states are known, and these are known without the visit:
an attribute is rewritten in turn by the nodes that show it.

* `Node.places` : the attributes of a tree with the multipliers of the nodes that show them, in
  reading order.
* `inTurn` : what a linked attribute becomes.
* `settle_visitAll_sharing` : the visit, and the settling after it, is a map.
-/

set_option autoImplicit false

namespace Shorthand.Markup

/-! ## Maps -/

/-- What a map does to the names, values and attributes that it meets. -/
structure Mapper where
  name : String → String := fun s ↦ s
  value : Value → Value
  attr : Attribute → Attribute

/-- An element with its parts rewritten. -/
def Element.rewrite (m : Mapper) (e : Element) : Element :=
  { e with
    name := e.name.map m.name
    id := e.id.map m.value
    classes := e.classes.map m.value
    attributes := e.attributes.map m.attr
    text := e.text.map m.value }

mutual

/-- A node with its parts and those below it rewritten; a map may depend on the node's
multiplier. -/
def Node.rewrite (m : Option Multiplier → Mapper) : Node → Node
  | .element e times children => .element (e.rewrite (m times)) times (Node.rewriteAll m children)
  | .text value times offset => .text ((m times).value value) times offset
  | .group children times offset => .group (Node.rewriteAll m children) times offset

/-- A list of nodes, rewritten. -/
def Node.rewriteAll (m : Option Multiplier → Mapper) : List Node → List Node
  | [] => []
  | n :: ns => n.rewrite m :: Node.rewriteAll m ns

end

/-- The visitor that maps and leaves the state alone. -/
def Mapper.visitor {σ : Type} (m : Mapper) : Visitor σ where
  name := m.name
  value v s := (m.value v, s)
  attr a s := (m.attr a, s)

section Maps

variable {σ : Type}

theorem walkOption_eq_map {α β : Type} {f : α → σ → β × σ} {g : α → β}
    (h : ∀ a s, f a s = (g a, s)) (o : Option α) (s : σ) : walkOption f o s = (o.map g, s) := by
  cases o with
  | none => rfl
  | some a => rw [walkOption, h]; rfl

theorem Element.visit_visitor (m : Mapper) (e : Element) (s : σ) :
    e.visit m.visitor s = (e.rewrite m, s) := by
  have hvalue : ∀ v (s : σ), m.visitor.value v s = (m.value v, s) := fun _ _ ↦ rfl
  have hattr : ∀ a (s : σ), m.visitor.attr a s = (m.attr a, s) := fun _ _ ↦ rfl
  simp only [Element.visit, walkOption_eq_map hvalue, walk_eq_map hvalue, walk_eq_map hattr]
  rfl

mutual

theorem Node.visit_visitor (m : Option Multiplier → Mapper) (n : Node) (s : σ) :
    n.visit (fun times ↦ (m times).visitor) s = (n.rewrite m, s) := by
  cases n with
  | element e times children =>
    simp only [Node.visit, Element.visit_visitor, Node.visitAll_visitor m children, Node.rewrite]
  | text value times offset => rfl
  | group children times offset =>
    simp only [Node.visit, Node.visitAll_visitor m children, Node.rewrite]

/-- A visit that leaves the state alone is a map. -/
theorem Node.visitAll_visitor (m : Option Multiplier → Mapper) (ns : List Node) (s : σ) :
    Node.visitAll (fun times ↦ (m times).visitor) ns s = (Node.rewriteAll m ns, s) := by
  cases ns with
  | nil => rfl
  | cons n ns =>
    simp only [Node.visitAll, Node.visit_visitor m n, Node.visitAll_visitor m ns, Node.rewriteAll]

end

end Maps

/-! ## Shared attributes -/

mutual

/-- The attributes of a node and of those below it, each with the multiplier of the node that shows
it, in reading order. -/
def Node.places : Node → List (Option Multiplier × Attribute)
  | .element e times children => e.attributes.map (times, ·) ++ Node.allPlaces children
  | .text _ _ _ => []
  | .group children _ _ => Node.allPlaces children

/-- The attributes of a list of nodes. -/
def Node.allPlaces : List Node → List (Option Multiplier × Attribute)
  | [] => []
  | n :: ns => n.places ++ Node.allPlaces ns

end

/-- The visitor that rewrites a linked attribute from the state in which the last place has left
it. -/
def Mapper.sharing (m : Mapper) : Visitor Shown where
  name := m.name
  value v shown := (m.value v, shown)
  attr a shown :=
    let a := m.attr (a.current shown)
    (a, a.note shown)

/-- What the attribute of a link becomes when the nodes that show it rewrite it in turn; `last` is
the state before, if it was rewritten already. -/
def inTurn (m : Option Multiplier → Mapper) (link : Nat)
    (places : List (Option Multiplier × Attribute)) (last : Option Attribute) : Option Attribute :=
  places.foldl (fun last (times, a) ↦
    if a.link = some link then some ((m times).attr (last.getD a)) else last) last

/-- The map that shows the last states of linked attributes. -/
def Mapper.showing (final : Shown) (m : Mapper) : Mapper :=
  { m with
    attr := fun a ↦
      match a.link with
      | none => m.attr a
      | some link => (final.lookup link).getD a }

/-- Every state is filed under its own link. -/
def Shown.Coherent (shown : Shown) : Prop :=
  ∀ link a, shown.lookup link = some a → a.link = some link

section Sharing

variable {m : Option Multiplier → Mapper}

theorem inTurn_append (m : Option Multiplier → Mapper) (link : Nat)
    (as bs : List (Option Multiplier × Attribute)) (last : Option Attribute) :
    inTurn m link (as ++ bs) last = inTurn m link bs (inTurn m link as last) :=
  List.foldl_append

theorem inTurn_cons (m : Option Multiplier → Mapper) (link : Nat)
    (p : Option Multiplier × Attribute) (ps : List (Option Multiplier × Attribute))
    (last : Option Attribute) :
    inTurn m link (p :: ps) last
      = inTurn m link ps
          (if p.2.link = some link then some ((m p.1).attr (last.getD p.2)) else last) := rfl

theorem Attribute.link_current {shown : Shown} (hs : shown.Coherent) (a : Attribute) :
    (a.current shown).link = a.link := by
  cases hl : a.link with
  | none => simp only [current, hl]
  | some link =>
    simp only [current, hl]
    cases h : shown.lookup link with
    | none => exact hl
    | some b => exact hs link b h

theorem Attribute.lookup_note (shown : Shown) (a : Attribute) (link : Nat) :
    (a.note shown).lookup link = if a.link = some link then some a else shown.lookup link := by
  cases hl : a.link with
  | none => simp [note, hl]
  | some l =>
    simp only [note, hl, List.lookup_cons, Option.some.injEq]
    by_cases h : link = l
    · simp [h]
    · simp [Ne.symm h, beq_false_of_ne h]

theorem Shown.Coherent.note {shown : Shown} (hs : shown.Coherent) (a : Attribute) :
    (a.note shown).Coherent := by
  intro link b hb
  rw [Attribute.lookup_note] at hb
  split at hb
  · rename_i hl
    exact Option.some.inj hb ▸ hl
  · exact hs link b hb

/-- What a walk over the attributes of one node does to the states, and what the node shows in the
end, if the states are then `final`. -/
structure Walked (m : Option Multiplier → Mapper) (places : List (Option Multiplier × Attribute))
    (shown shown' : Shown) : Prop where
  coherent : shown'.Coherent
  lookup : ∀ link, shown'.lookup link = inTurn m link places (shown.lookup link)

theorem Walked.refl {shown : Shown} (hs : shown.Coherent) : Walked m [] shown shown :=
  ⟨hs, fun _ ↦ rfl⟩

theorem Walked.trans {ps qs : List (Option Multiplier × Attribute)} {s₁ s₂ s₃ : Shown}
    (h : Walked m ps s₁ s₂) (h' : Walked m qs s₂ s₃) : Walked m (ps ++ qs) s₁ s₃ :=
  ⟨h'.coherent, fun link ↦ by rw [h'.lookup, h.lookup, inTurn_append]⟩

theorem walked_attr (hm : ∀ times a, ((m times).attr a).link = a.link)
    {shown : Shown} (hs : shown.Coherent) (times : Option Multiplier)
    (a : Attribute) : Walked m [(times, a)] shown ((m times).sharing.attr a shown).2 := by
  refine ⟨hs.note _, fun link ↦ ?_⟩
  rw [Mapper.sharing, Attribute.lookup_note, hm, Attribute.link_current hs]
  simp only [inTurn, List.foldl_cons, List.foldl_nil]
  split
  · rename_i hl
    rw [Attribute.current, hl]
  · rfl

theorem walked_attributes (hm : ∀ times a, ((m times).attr a).link = a.link)
    {shown : Shown} (hs : shown.Coherent) (times : Option Multiplier)
    (as : List Attribute) :
    Walked m (as.map (times, ·)) shown (walk (m times).sharing.attr as shown).2 := by
  induction as generalizing shown with
  | nil => exact Walked.refl hs
  | cons a as ih =>
    have ha := walked_attr hm hs times a
    exact ha.trans (ih ha.coherent)

theorem walk_value (times : Option Multiplier) (vs : List Value) (shown : Shown) :
    walk (m times).sharing.value vs shown = (vs.map (m times).value, shown) :=
  walk_eq_map (fun _ _ ↦ rfl) vs shown

theorem walkOption_value (times : Option Multiplier) (v : Option Value) (shown : Shown) :
    walkOption (m times).sharing.value v shown = (v.map (m times).value, shown) :=
  walkOption_eq_map (fun _ _ ↦ rfl) v shown

/-- Only the attributes of an element take part in the sharing. -/
theorem Element.visit_sharing (times : Option Multiplier) (e : Element) (shown : Shown) :
    e.visit (m times).sharing shown
      = ({ e.rewrite (m times) with
            attributes := (walk (m times).sharing.attr e.attributes shown).1 },
          (walk (m times).sharing.attr e.attributes shown).2) := by
  simp only [Element.visit, walk_value, walkOption_value]
  rfl

/-- What the places of a link show in the end. -/
theorem Attribute.current_eq_showing {final : Shown} {times : Option Multiplier} {a b : Attribute}
    (hb : b.link = a.link) (hfinal : ∀ link, a.link = some link → (final.lookup link).isSome)
    (hfree : a.link = none → b = (m times).attr a) :
    b.current final = ((m times).showing final).attr a := by
  cases hl : a.link with
  | none =>
    have hnone : b.link = none := hb.trans hl
    simp only [current, hnone, Mapper.showing, hl]
    exact hfree hl
  | some link =>
    obtain ⟨c, hc⟩ := Option.isSome_iff_exists.1 (hfinal link hl)
    simp only [current, Mapper.showing, hb, hl, hc, Option.getD_some]

theorem settle_walk (hm : ∀ times a, ((m times).attr a).link = a.link) {final : Shown}
    (times : Option Multiplier) (as : List Attribute) {shown : Shown} (hs : shown.Coherent)
    (hfinal : ∀ p ∈ as.map (times, ·), ∀ link, p.2.link = some link →
      (final.lookup link).isSome) :
    (walk (m times).sharing.attr as shown).1.map (Attribute.current final)
      = as.map ((m times).showing final).attr := by
  induction as generalizing shown with
  | nil => rfl
  | cons a as ih =>
    rw [List.map_cons, List.forall_mem_cons] at hfinal
    rw [walk_cons, List.map_cons, List.map_cons,
      ih (walked_attr hm hs times a).coherent hfinal.2]
    congr 1
    refine Attribute.current_eq_showing ?_ hfinal.1 fun hl ↦ ?_
    · rw [Mapper.sharing, hm, Attribute.link_current hs]
    · simp only [Mapper.sharing, Attribute.current, hl]

mutual

theorem Node.walked_visit (hm : ∀ times a, ((m times).attr a).link = a.link) (n : Node)
    {shown : Shown} (hs : shown.Coherent) :
    Walked m n.places shown (n.visit (fun times ↦ (m times).sharing) shown).2 := by
  cases n with
  | element e times children =>
    simp only [Node.visit, Element.visit_sharing, Node.places]
    have he := walked_attributes hm hs times e.attributes
    exact he.trans (Node.walked_visitAll hm children he.coherent)
  | text value times offset => exact Walked.refl hs
  | group children times offset =>
    simp only [Node.visit, Node.places]
    exact Node.walked_visitAll hm children hs

/-- A visit leaves of each link what its places make of it in turn. -/
theorem Node.walked_visitAll (hm : ∀ times a, ((m times).attr a).link = a.link)
    (ns : List Node) {shown : Shown} (hs : shown.Coherent) :
    Walked m (Node.allPlaces ns) shown
      (Node.visitAll (fun times ↦ (m times).sharing) ns shown).2 := by
  cases ns with
  | nil => exact Walked.refl hs
  | cons n ns =>
    simp only [Node.visitAll, Node.allPlaces]
    have hn := Node.walked_visit hm n hs
    exact hn.trans (Node.walked_visitAll hm ns hn.coherent)

end

/-- The mapper of settling. -/
def settler (final : Shown) : Mapper where
  value v := v
  attr := Attribute.current final

theorem Element.rewrite_settler {final : Shown} {times : Option Multiplier} {e : Element}
    {as : List Attribute}
    (h : as.map (Attribute.current final) = e.attributes.map ((m times).showing final).attr) :
    ({ e.rewrite (m times) with attributes := as }).rewrite (settler final)
      = e.rewrite ((m times).showing final) := by
  have hname : (settler final).name = fun s ↦ s := rfl
  have hvalue : (settler final).value = fun v ↦ v := rfl
  simp only [Element.rewrite, hname, hvalue, Option.map_id', List.map_id']
  rw [show (settler final).attr = Attribute.current final from rfl, h]
  rfl

mutual

theorem Node.settle_visit (hm : ∀ times a, ((m times).attr a).link = a.link) {final : Shown}
    (n : Node) {shown : Shown} (hs : shown.Coherent)
    (hfinal : ∀ p ∈ n.places, ∀ link, p.2.link = some link → (final.lookup link).isSome) :
    (n.visit (fun times ↦ (m times).sharing) shown).1.rewrite (fun _ ↦ settler final)
      = n.rewrite fun times ↦ (m times).showing final := by
  cases n with
  | element e times children =>
    rw [Node.places, List.forall_mem_append] at hfinal
    have he := walked_attributes hm hs times e.attributes
    have hattr := settle_walk hm times e.attributes hs hfinal.1
    have hchildren := Node.settle_visitAll hm children he.coherent hfinal.2
    simp only [Node.visit, Element.visit_sharing, Node.rewrite, hchildren]
    rw [Element.rewrite_settler hattr]
  | text value times offset => rfl
  | group children times offset =>
    rw [Node.places] at hfinal
    simp only [Node.visit, Node.rewrite, Node.settle_visitAll hm children hs hfinal]

theorem Node.settle_visitAll (hm : ∀ times a, ((m times).attr a).link = a.link)
    {final : Shown} (ns : List Node) {shown : Shown} (hs : shown.Coherent)
    (hfinal : ∀ p ∈ Node.allPlaces ns, ∀ link, p.2.link = some link →
      (final.lookup link).isSome) :
    Node.rewriteAll (fun _ ↦ settler final)
        (Node.visitAll (fun times ↦ (m times).sharing) ns shown).1
      = Node.rewriteAll (fun times ↦ (m times).showing final) ns := by
  cases ns with
  | nil => rfl
  | cons n ns =>
    rw [Node.allPlaces, List.forall_mem_append] at hfinal
    have hn := Node.walked_visit hm n hs
    simp only [Node.visitAll, Node.rewriteAll, Node.settle_visit hm n hs hfinal.1,
      Node.settle_visitAll hm ns hn.coherent hfinal.2]

end

theorem inTurn_isSome_of_last (m : Option Multiplier → Mapper) (link : Nat)
    (places : List (Option Multiplier × Attribute)) {last : Option Attribute}
    (h : last.isSome = true) : (inTurn m link places last).isSome = true := by
  induction places generalizing last with
  | nil => exact h
  | cons p ps ih =>
    rw [inTurn_cons]
    refine ih ?_
    split
    · rfl
    · exact h

/-- A link that is shown has a last state. -/
theorem inTurn_isSome (m : Option Multiplier → Mapper) {link : Nat}
    {places : List (Option Multiplier × Attribute)} {p : Option Multiplier × Attribute}
    (hp : p ∈ places) (hl : p.2.link = some link) (last : Option Attribute) :
    (inTurn m link places last).isSome = true := by
  obtain ⟨before, after, rfl⟩ := List.append_of_mem hp
  rw [inTurn_append, inTurn_cons, if_pos hl]
  exact inTurn_isSome_of_last m link after rfl

theorem Element.rewrite_settler_nil (e : Element) : e.rewrite (settler []) = e := by
  have hattr : Attribute.current [] = fun a ↦ a := funext Attribute.current_nil
  simp [Element.rewrite, settler, hattr]

mutual

theorem Node.rewrite_settler_nil (n : Node) : n.rewrite (fun _ ↦ settler []) = n := by
  cases n with
  | element e times children =>
    rw [Node.rewrite, Element.rewrite_settler_nil, Node.rewriteAll_settler_nil children]
  | text value times offset => rfl
  | group children times offset => rw [Node.rewrite, Node.rewriteAll_settler_nil children]

theorem Node.rewriteAll_settler_nil (ns : List Node) :
    Node.rewriteAll (fun _ ↦ settler []) ns = ns := by
  cases ns with
  | nil => rfl
  | cons n ns =>
    rw [Node.rewriteAll, Node.rewrite_settler_nil n, Node.rewriteAll_settler_nil ns]

end

theorem Node.settle_eq_rewriteAll (shown : Shown) (ns : List Node) :
    Node.settle shown ns = Node.rewriteAll (fun _ ↦ settler shown) ns := by
  cases shown with
  | nil => rw [Node.settle_nil, Node.rewriteAll_settler_nil]
  | cons entry shown =>
    exact congrArg Prod.fst (Node.visitAll_visitor (fun _ ↦ settler (entry :: shown)) ns ())

/-- **A visit with sharing is a map.**  After settling, every part that is not shared is rewritten
by itself, and a linked attribute is what the nodes that show it make of it in turn. -/
theorem Node.settle_visitAll_sharing (hm : ∀ times a, ((m times).attr a).link = a.link)
    (ns : List Node) :
    ∃ final : Shown, (∀ link, final.lookup link = inTurn m link (Node.allPlaces ns) none) ∧
      Node.settle (Node.visitAll (fun times ↦ (m times).sharing) ns []).2
          (Node.visitAll (fun times ↦ (m times).sharing) ns []).1
        = Node.rewriteAll (fun times ↦ (m times).showing final) ns := by
  have hnil : Shown.Coherent [] := fun _ _ h ↦ by simp at h
  have hwalked := Node.walked_visitAll hm ns hnil
  refine ⟨_, hwalked.lookup, ?_⟩
  rw [Node.settle_eq_rewriteAll]
  refine Node.settle_visitAll hm ns hnil fun p hp link hl ↦ ?_
  rw [hwalked.lookup]
  exact inTurn_isSome m hp hl _

mutual

theorem Node.rewrite_inj {m' : Option Multiplier → Mapper}
    (hname : ∀ times, (m times).name = (m' times).name)
    (hvalue : ∀ times, (m times).value = (m' times).value) (n : Node) :
    n.rewrite m = n.rewrite m' ↔ ∀ p ∈ n.places, (m p.1).attr p.2 = (m' p.1).attr p.2 := by
  cases n with
  | element e times children =>
    rw [Node.rewrite, Node.rewrite, Node.element.injEq, Node.places, List.forall_mem_append,
      Node.rewriteAll_inj hname hvalue children]
    simp only [Element.rewrite, hname, hvalue, Element.mk.injEq, true_and, and_true,
      List.map_inj_left, List.forall_mem_map]
  | text value times offset => simp [Node.rewrite, Node.places, hvalue]
  | group children times offset =>
    rw [Node.rewrite, Node.rewrite, Node.group.injEq, Node.places,
      Node.rewriteAll_inj hname hvalue children]
    simp

/-- Two maps that differ on attributes only agree on a tree exactly when they agree on its
attributes. -/
theorem Node.rewriteAll_inj {m' : Option Multiplier → Mapper}
    (hname : ∀ times, (m times).name = (m' times).name)
    (hvalue : ∀ times, (m times).value = (m' times).value) (ns : List Node) :
    Node.rewriteAll m ns = Node.rewriteAll m' ns
      ↔ ∀ p ∈ Node.allPlaces ns, (m p.1).attr p.2 = (m' p.1).attr p.2 := by
  cases ns with
  | nil => simp [Node.rewriteAll, Node.allPlaces]
  | cons n ns =>
    rw [Node.rewriteAll, Node.rewriteAll, List.cons.injEq, Node.allPlaces, List.forall_mem_append,
      Node.rewrite_inj hname hvalue n, Node.rewriteAll_inj hname hvalue ns]

end

end Sharing

end Shorthand.Markup
