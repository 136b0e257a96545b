import Shorthand.Proofs.Hanging
import Shorthand.Proofs.Likeness
import Shorthand.Proofs.Regular

/-!
# Forests and their elements

The elements of a forest are listed in reading order; what a pass does to a forest it does to the
list.

* `Node.elements`, `Node.AllElements` : the elements of a forest, and what holds of all of them.
* `Node.elements_rewriteAll`, `Node.AllLike.elements` : elements of a forest that was rewritten.
* `Node.AllElements.nodewise` : what holds of all elements is asked of every node by itself.
-/

set_option autoImplicit false

namespace Shorthand.Markup

namespace Node

/-! ## Maps -/

section Rewrite

variable (m : Option Multiplier → Mapper)

theorem times_rewrite (n : Node) : (n.rewrite m).times = n.times := by
  cases n <;> rfl

theorem children_rewrite (n : Node) : (n.rewrite m).children = rewriteAll m n.children := by
  cases n <;> rfl

theorem rewriteAll_append (ns ms : List Node) :
    rewriteAll m (ns ++ ms) = rewriteAll m ns ++ rewriteAll m ms := by
  induction ns with
  | nil => rfl
  | cons n ns ih => rw [List.cons_append, rewriteAll, rewriteAll, ih, List.cons_append]

theorem rewriteAll_flatMap {α : Type} (f : α → List Node) (as : List α) :
    rewriteAll m (as.flatMap f) = as.flatMap fun a ↦ rewriteAll m (f a) := by
  induction as with
  | nil => rfl
  | cons a as ih => rw [List.flatMap_cons, rewriteAll_append, ih, List.flatMap_cons]

end Rewrite

/-! ## Elements -/

/-- The element that a node is, with its multiplier. -/
def element? : Node → Option (Option Multiplier × Element)
  | .element e times _ => some (times, e)
  | .text _ _ _ | .group _ _ _ => none

/-- The elements of a forest with their multipliers, in reading order. -/
def elements (nodes : List Node) : List (Option Multiplier × Element) :=
  (allPreorder nodes).filterMap element?

@[simp] theorem elements_nil : elements [] = [] := rfl

theorem elements_cons (n : Node) (ns : List Node) :
    elements (n :: ns) = n.element?.toList ++ (elements n.children ++ elements ns) := by
  have hhead : (n.withChildren []).element? = n.element? := by
    cases n <;> rfl
  rw [elements, allPreorder, preorder_eq, List.filterMap_append, List.filterMap_cons, hhead]
  cases n.element? <;> simp [elements]

theorem elements_append (ns ms : List Node) : elements (ns ++ ms) = elements ns ++ elements ms := by
  rw [elements, allPreorder_append, List.filterMap_append]
  rfl

/-- All elements of a forest have a property. -/
def AllElements (P : Element → Prop) (nodes : List Node) : Prop := ∀ p ∈ elements nodes, P p.2

section AllElements

variable {P : Element → Prop} {n : Node} {ns ms : List Node}

@[simp] theorem allElements_nil : AllElements P [] := by simp [AllElements]

theorem allElements_cons : AllElements P (n :: ns) ↔
    (∀ p, n.element? = some p → P p.2) ∧ AllElements P n.children ∧ AllElements P ns := by
  rw [AllElements, elements_cons, List.forall_mem_append, List.forall_mem_append]
  refine and_congr_left fun _ ↦ ?_
  simp only [Option.mem_toList]

theorem allElements_append : AllElements P (ns ++ ms) ↔ AllElements P ns ∧ AllElements P ms := by
  rw [AllElements, elements_append, List.forall_mem_append]
  rfl

/-- A single element, and what is below it. -/
theorem allElements_element {e : Element} {times : Option Multiplier} {children : List Node} :
    AllElements P [.element e times children] ↔ P e ∧ AllElements P children := by
  rw [allElements_cons]
  simp [element?, Node.children]

theorem allElements_text (value : Value) (times : Option Multiplier) (offset : Nat) :
    AllElements P [.text value times offset] := by
  rw [allElements_cons]
  simp [element?, Node.children]

theorem allElements_group {children : List Node} {times : Option Multiplier} {offset : Nat} :
    AllElements P [.group children times offset] ↔ AllElements P children := by
  rw [allElements_cons]
  simp [element?, Node.children]

/-- What holds of all elements is asked of every node by itself. -/
theorem AllElements.nodewise : Nodewise (AllElements P) where
  append := allElements_append
  children {n} h := (allElements_cons.1 h).2.1
  withChildren {n ns} hn hns := by
    refine allElements_cons.2 ⟨?_, ?_, allElements_nil⟩
    · have hhead := (allElements_cons.1 hn).1
      cases n with
      | element e times children =>
        rintro _ ⟨⟩
        exact hhead (times, e) rfl
      | text | group => rintro _ ⟨⟩
    · cases n with
      | element | group => exact hns
      | text => exact allElements_nil

end AllElements

/-- A map rewrites every element by itself. -/
theorem elements_rewriteAll (m : Option Multiplier → Mapper) (ns : List Node) :
    elements (rewriteAll m ns) = (elements ns).map fun p ↦ (p.1, p.2.rewrite (m p.1)) := by
  induction ns using forest_induction with
  | nil => rfl
  | cons n ns below rest =>
    rw [rewriteAll, elements_cons, elements_cons, children_rewrite, below, rest, List.map_append,
      List.map_append]
    cases n <;> rfl

/-- The attributes of a forest are those of its elements. -/
theorem allPlaces_eq (ns : List Node) :
    allPlaces ns = (elements ns).flatMap fun p ↦ p.2.attributes.map (p.1, ·) := by
  induction ns using forest_induction with
  | nil => rfl
  | cons n ns below rest =>
    rw [allPlaces, rest, elements_cons, List.flatMap_append, List.flatMap_append, ← below,
      ← List.append_assoc]
    congr 1
    cases n with
    | element e times below => simp [places, element?, children]
    | text | group => rfl

/-- Forests that are alike have elements that are. -/
theorem AllLike.elements {R : Likeness} : ∀ {ns ms : List Node}, AllLike R ns ms →
    List.Forall₂ (fun p q ↦ p.2.Like R q.2) (elements ns) (elements ms) := by
  intro ns
  induction ns using forest_induction with
  | nil =>
    rintro _ ⟨⟩
    exact .nil
  | cons n ns below rest =>
    rintro _ (_ | ⟨hn, hns⟩)
    rw [elements_cons, elements_cons]
    refine forall₂_append ?_ (forall₂_append ?_ (rest hns))
    · cases hn with
      | element he => exact .cons he .nil
      | text | group => exact .nil
    · cases hn with
      | element _ _ hc | group _ _ _ hc => exact below hc
      | text => exact .nil

/-- The elements of a regular forest are regular. -/
theorem AllRegular.elements {P : Value → Prop} {Q : Attribute → Prop} : ∀ {ns : List Node},
    AllRegular P Q ns → AllElements (Element.Regular P Q) ns := by
  intro ns
  induction ns using forest_induction with
  | nil => exact fun _ ↦ allElements_nil
  | cons n ns below rest =>
    rintro (_ | ⟨hn, hns⟩)
    refine allElements_cons.2 ⟨?_, below hn.children, rest hns⟩
    cases hn with
    | element he =>
      rintro _ ⟨⟩
      exact he
    | text | group => rintro _ ⟨⟩

end Node

end Shorthand.Markup
