import Shorthand.Proofs.Groups

/-!
# Offsets make no difference

A node remembers where it began in the text that it was read from.  This is needed to say where a
fault is, and for nothing else: once the snippets are expanded, every pass does to a tree without
offsets what it does to the tree with them, and the output is the same.

* `Node.allUnplaced` : a tree without its offsets.
* `Node.allUnplaced_eq_of_same` : trees that differ in nothing but offsets.
* `Copies.unrollTo_unplaced`, `Numbering.number_unplaced` : passes on trees without offsets.
* `Html.write_unplaced` : the output does not depend on offsets.
-/

set_option autoImplicit false

namespace Shorthand.Markup

namespace Node

mutual

/-- A node and the nodes below it without their offsets. -/
def unplaced : Node → Node
  | .element e times children => .element (e.placed 0) times (allUnplaced children)
  | .text value times _ => .text value times 0
  | .group children times _ => .group (allUnplaced children) times 0

/-- The nodes of a list and those below them without their offsets. -/
def allUnplaced : List Node → List Node
  | [] => []
  | n :: ns => n.unplaced :: allUnplaced ns

end

theorem allUnplaced_eq_map (ns : List Node) : allUnplaced ns = ns.map unplaced := by
  induction ns with
  | nil => rfl
  | cons n ns ih => rw [allUnplaced, ih, List.map_cons]

theorem allUnplaced_append (ns ms : List Node) :
    allUnplaced (ns ++ ms) = allUnplaced ns ++ allUnplaced ms := by
  rw [allUnplaced_eq_map, allUnplaced_eq_map, allUnplaced_eq_map, List.map_append]

theorem times_unplaced (n : Node) : n.unplaced.times = n.times := by cases n <;> rfl

/-! ## Trees that differ in offsets -/

theorem optionRel_eq {α : Type} : ∀ {o o' : Option α}, Option.Rel Eq o o' → o = o'
  | _, _, .some h => congrArg some h
  | _, _, .none => rfl

theorem placed_eq_of_same {e f : Element} (h : e.Like .same f) : e.placed 0 = f.placed 0 := by
  obtain ⟨hname, hid, hclasses, hattributes, htext, hclosing⟩ := h
  have hclasses : e.classes = f.classes := by rwa [← List.forall₂_eq_eq_eq]
  have hattributes : e.attributes = f.attributes := by rwa [← List.forall₂_eq_eq_eq]
  rw [Element.placed, hname, optionRel_eq hid, hclasses, hattributes, optionRel_eq htext, hclosing]
  rfl

mutual

theorem unplaced_eq_of_same : ∀ {n m : Node}, n.Like .same m → n.unplaced = m.unplaced
  | _, _, .element he ht hc => by
    rw [unplaced, unplaced, placed_eq_of_same he, show _ = _ from ht, allUnplaced_eq_of_same hc]
  | _, _, .text _ _ hv ht => by
    rw [unplaced, unplaced, show _ = _ from hv, show _ = _ from ht]
  | _, _, .group _ _ ht hc => by
    rw [unplaced, unplaced, show _ = _ from ht, allUnplaced_eq_of_same hc]

/-- Trees that are the same but for their offsets are the same without them. -/
theorem allUnplaced_eq_of_same : ∀ {ns ms : List Node}, AllLike .same ns ms →
    allUnplaced ns = allUnplaced ms
  | _, _, .nil => rfl
  | _, _, .cons hn hns => congrArg₂ List.cons (unplaced_eq_of_same hn) (allUnplaced_eq_of_same hns)

end

/-! ## Views -/

mutual

theorem values_unplaced : ∀ n : Node, n.unplaced.values = n.values
  | .element e _ children => congrArg (e.values ++ ·) (allValues_allUnplaced children)
  | .text _ _ _ => rfl
  | .group children _ _ => allValues_allUnplaced children

theorem allValues_allUnplaced : ∀ ns : List Node, allValues (allUnplaced ns) = allValues ns
  | [] => rfl
  | n :: ns => congrArg₂ (· ++ ·) (values_unplaced n) (allValues_allUnplaced ns)

end

mutual

theorem links_unplaced : ∀ n : Node, n.unplaced.links = n.links
  | .element e _ children =>
    congrArg (e.attributes.filterMap (·.link) ++ ·) (allLinks_allUnplaced children)
  | .text _ _ _ => rfl
  | .group children _ _ => allLinks_allUnplaced children

theorem allLinks_allUnplaced : ∀ ns : List Node, allLinks (allUnplaced ns) = allLinks ns
  | [] => rfl
  | n :: ns => congrArg₂ (· ++ ·) (links_unplaced n) (allLinks_allUnplaced ns)

end

mutual

theorem hasGroup_unplaced : ∀ n : Node, n.unplaced.hasGroup = n.hasGroup
  | .element _ _ children => anyGroup_allUnplaced children
  | .text _ _ _ => rfl
  | .group _ _ _ => rfl

theorem anyGroup_allUnplaced : ∀ ns : List Node, anyGroup (allUnplaced ns) = anyGroup ns
  | [] => rfl
  | n :: ns => congrArg₂ (· || ·) (hasGroup_unplaced n) (anyGroup_allUnplaced ns)

end

/-! ## Visits -/

section Visits

variable {σ : Type} (v : Option Multiplier → Visitor σ)

mutual

theorem visit_unplaced : ∀ (n : Node) (s : σ),
    n.unplaced.visit v s = ((n.visit v s).1.unplaced, (n.visit v s).2)
  | .element e times children, s => by
    have he : (e.placed 0).visit (v times) s
        = ((e.visit (v times) s).1.placed 0, (e.visit (v times) s).2) := rfl
    rw [unplaced, visit, he]
    dsimp only
    rw [visitAll_allUnplaced children]
    rfl
  | .text value times offset, s => rfl
  | .group children times offset, s => by
    rw [unplaced, visit, visitAll_allUnplaced children]
    rfl

/-- A visit does not look at offsets. -/
theorem visitAll_allUnplaced : ∀ (ns : List Node) (s : σ),
    visitAll v (allUnplaced ns) s = (allUnplaced (visitAll v ns s).1, (visitAll v ns s).2)
  | [], _ => rfl
  | n :: ns, s => by
    rw [allUnplaced, visitAll, visit_unplaced n]
    dsimp only
    rw [visitAll_allUnplaced ns]
    rfl

end

end Visits

theorem settle_allUnplaced (shown : Shown) (ns : List Node) :
    settle shown (allUnplaced ns) = allUnplaced (settle shown ns) := by
  unfold settle
  split
  · rfl
  · rw [visitAll_allUnplaced]

/-- A copy of a node does not depend on offsets. -/
theorem copy_unplaced (n : Node) (index : Nat) (s : Supply) :
    n.unplaced.copy index s = (allUnplaced (n.copy index s).1, (n.copy index s).2) := by
  have hrelink : ∀ ns next, relink (allUnplaced ns) next
      = (allUnplaced (relink ns next).1, (relink ns next).2) := by
    intro ns next
    rw [relink, visitAll_allUnplaced]
    rfl
  have hrescope : ∀ ns next, rescope (allUnplaced ns) next
      = (allUnplaced (rescope ns next).1, (rescope ns next).2) := by
    intro ns next
    rw [rescope, visitAll_allUnplaced]
    dsimp only
    rw [settle_allUnplaced]
    rfl
  have hsingle : [n.unplaced] = allUnplaced [n] := rfl
  unfold copy
  rw [hsingle, hrelink]
  dsimp only
  split
  · rfl
  · rw [hrescope]

end Node

/-! ## Unrolling -/

theorem Snippet.supplyFor_allUnplaced (ns : List Node) :
    supplyFor (Node.allUnplaced ns) = supplyFor ns := by
  rw [supplyFor, Node.allLinks_allUnplaced, supplyFor]

namespace Copies

theorem supplyFor_allUnplaced (ns : List Node) :
    supplyFor (Node.allUnplaced ns) = supplyFor ns := by
  rw [supplyFor, scopes, Node.allValues_allUnplaced, Snippet.supplyFor_allUnplaced]
  rfl

/-- What unrolling leads to, without offsets; it fails in one way only. -/
def unplacedResult : Except Fault (List Node × Supply) → Except Fault (List Node × Supply)
  | .ok (nodes, s) => .ok (Node.allUnplaced nodes, s)
  | .error _ => .error (.malformed .tooManyCopies 0)

theorem unplacedResult_bind {x : Except Fault (List Node × Supply)}
    {f g : List Node → Supply → Except Fault (List Node × Supply)}
    (h : ∀ ns s, g (Node.allUnplaced ns) s = unplacedResult (f ns s)) :
    (unplacedResult x >>= fun r ↦ g r.1 r.2) = unplacedResult (x >>= fun r ↦ f r.1 r.2) := by
  cases x with
  | error e => rfl
  | ok r => exact h r.1 r.2

/-- What is gathered without offsets, if that is so for every item. -/
theorem gather_unplaced {α : Type} {t : α → α}
    {f g : α → Supply → Except Fault (List Node × Supply)}
    (h : ∀ a s, g (t a) s = unplacedResult (f a s)) (as : List α) (s : Supply) :
    gather g (as.map t) s = unplacedResult (gather f as s) := by
  induction as generalizing s with
  | nil => rfl
  | cons a as ih =>
    rw [List.map_cons, gather, h, gather]
    refine unplacedResult_bind
      (f := fun first s ↦ gather f as s >>= fun r ↦ pure (first ++ r.1, r.2))
      (g := fun first s ↦ gather g (as.map t) s >>= fun r ↦ pure (first ++ r.1, r.2))
      fun first s ↦ ?_
    rw [ih]
    refine unplacedResult_bind (f := fun rest s ↦ pure (first ++ rest, s))
      (g := fun rest s ↦ pure (Node.allUnplaced first ++ rest, s)) fun rest s ↦ ?_
    rw [← Node.allUnplaced_append]
    rfl

section Unroll

variable {limit : Nat} {inherited : Option Multiplier}

theorem unrollCopy_unplaced
    {below : Option Multiplier → List Node → Supply → Except Fault (List Node × Supply)}
    (h : ∀ times ns s, below times (Node.allUnplaced ns) s = unplacedResult (below times ns s))
    (n : Node) (index : Nat) (s : Supply) :
    unrollCopy below inherited n.unplaced index s
      = unplacedResult (unrollCopy below inherited n index s) := by
  have hdissolve : ∀ times m s, dissolve (below times) times m.unplaced s
      = unplacedResult (dissolve (below times) times m s) := by
    intro times m s
    cases m with
    | element e _ children =>
      rw [Node.unplaced, dissolve, h, dissolve]
      exact unplacedResult_bind (f := fun ns s ↦ .ok ([.element e times ns], s))
        (g := fun ns s ↦ .ok ([.element (e.placed 0) times ns], s)) fun ns s ↦ rfl
    | text => rfl
    | group children => exact h times children s
  have hcopies : (if 1 < countOf n.times then n.unplaced.copy index s else ([n.unplaced], s))
      = (Node.allUnplaced (if 1 < countOf n.times then n.copy index s else ([n], s)).1,
        (if 1 < countOf n.times then n.copy index s else ([n], s)).2) := by
    split
    · exact Node.copy_unplaced n index s
    · rfl
  rw [unrollCopy, Node.times_unplaced, hcopies, unrollCopy, Node.allUnplaced_eq_map]
  exact gather_unplaced (hdissolve _) _ _

/-- **Unrolling does not depend on offsets.** -/
theorem unrollTo_unplaced (height : Nat) (inherited : Option Multiplier) (total : Nat)
    (ns : List Node) (s : Supply) :
    unrollTo limit height inherited total (Node.allUnplaced ns) s
      = unplacedResult (unrollTo limit height inherited total ns s) := by
  induction height generalizing inherited total ns s with
  | zero => rfl
  | succ height ih =>
    rw [unrollTo_succ, unrollTo_succ, Node.allUnplaced_eq_map]
    refine gather_unplaced (fun n s ↦ ?_) ns s
    rw [unrollNode, Node.times_unplaced, unrollNode]
    split
    · cases n <;> rfl
    · have hcopy : ∀ index s, unrollCopy
          (fun times ↦ unrollTo limit height times (total * countOf n.times)) inherited n.unplaced
            index s
          = unplacedResult (unrollCopy
            (fun times ↦ unrollTo limit height times (total * countOf n.times)) inherited n
              index s) :=
        unrollCopy_unplaced (fun times ns s ↦ ih times _ ns s) n
      have hcopies := gather_unplaced (t := id) hcopy (List.range' 1 (countOf n.times)) s
      rwa [List.map_id] at hcopies

end Unroll

end Copies

/-! ## Naming, numbering, writing -/

namespace Node

mutual

theorem named_unplaced : ∀ (parent : Option String) (n : Node),
    n.unplaced.named parent = (n.named parent).unplaced
  | parent, .element e times children => by
    rw [unplaced, named, named]
    exact congrArg _ (nameAll_allUnplaced (some (e.nameIn parent)) children)
  | _, .text _ _ _ => rfl
  | _, .group _ _ _ => rfl

theorem nameAll_allUnplaced : ∀ (parent : Option String) (ns : List Node),
    nameAll parent (allUnplaced ns) = allUnplaced (nameAll parent ns)
  | _, [] => rfl
  | parent, n :: ns =>
    congrArg₂ List.cons (named_unplaced parent n) (nameAll_allUnplaced parent ns)

end

end Node

theorem Numbering.number_unplaced (ns : List Node) :
    number (Node.allUnplaced ns) = (number ns).map Node.allUnplaced := by
  rw [number, Node.anyGroup_allUnplaced, number]
  split
  · rfl
  · rw [Node.visitAll_allUnplaced]
    dsimp only
    rw [Node.settle_allUnplaced]
    rfl

namespace Html

mutual

theorem isInline_unplaced : ∀ n : Node, isInline n.unplaced = isInline n
  | .element e _ children => congrArg (isInlineTag e.name && ·) (allInline_allUnplaced children)
  | .text _ _ _ => rfl
  | .group _ _ _ => rfl

theorem allInline_allUnplaced : ∀ ns : List Node, allInline (Node.allUnplaced ns) = allInline ns
  | [] => rfl
  | n :: ns => congrArg₂ (· && ·) (isInline_unplaced n) (allInline_allUnplaced ns)

end

variable (style : Style)

theorem staysOnLine_allUnplaced (ns : List Node) :
    staysOnLine style (Node.allUnplaced ns) = staysOnLine style ns := by
  have hcount : ((Node.allUnplaced ns).filter Node.isElement).length
      = (ns.filter Node.isElement).length := by
    induction ns with
    | nil => rfl
    | cons n ns ih => cases n <;>
        simp [Node.allUnplaced, Node.unplaced, Node.isElement, List.filter_cons, ih]
  rw [staysOnLine, allInline_allUnplaced, hcount, staysOnLine]

mutual

theorem node_unplaced : ∀ (depth : Nat) (n : Node) (stops : TabStops),
    node style depth n.unplaced stops = node style depth n stops
  | _, .text _ _ _, _ => rfl
  | _, .group _ _ _, _ => rfl
  | depth, .element e times [], stops => rfl
  | depth, .element e times (n :: ns), stops => by
    have hlines := fun lead stops ↦ lines_allUnplaced (depth + 1) lead (n :: ns) stops
    have hstays := staysOnLine_allUnplaced style (n :: ns)
    rw [Node.allUnplaced] at hlines hstays
    have hopening : opening style (e.placed 0) stops = opening style e stops := rfl
    have htext : textOf (e.placed 0) = textOf e := rfl
    rw [Node.unplaced, Node.allUnplaced, node, node, hopening, htext]
    cases textOf e <;> simp only [hstays, hlines] <;> rfl

theorem lines_allUnplaced : ∀ (depth : Nat) (lead : List Segment) (ns : List Node)
    (stops : TabStops), lines style depth lead (Node.allUnplaced ns) stops
      = lines style depth lead ns stops
  | _, _, [], _ => rfl
  | depth, lead, n :: ns, stops => by
    rw [Node.allUnplaced, lines, node_unplaced depth n, lines]
    dsimp only
    rw [lines_allUnplaced depth lead ns]

end

/-- **The output does not depend on offsets.** -/
theorem write_unplaced (ns : List Node) : write style (Node.allUnplaced ns) = write style ns := by
  have hsegments : segments style (Node.allUnplaced ns) = segments style ns := by
    have hstays := staysOnLine_allUnplaced style ns
    cases ns with
    | nil => rfl
    | cons n ns =>
      rw [Node.allUnplaced] at hstays ⊢
      rw [segments, segments, hstays]
      dsimp only
      rw [node_unplaced, lines_allUnplaced]
  rw [write, Node.anyGroup_allUnplaced, hsegments, write]

end Html

end Shorthand.Markup
