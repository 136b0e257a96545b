import Mathlib.Algebra.BigOperators.Group.List.Lemmas
import Mathlib.Algebra.Order.BigOperators.GroupWithZero.List
import Mathlib.Algebra.Order.Ring.Nat
import Shorthand.Proofs.Limit
import Shorthand.Proofs.NumberedOnce

/-!
# The tree that is written

Five passes make the tree that is written: reading, snippets, multipliers, names and numbers.  What
each of them guarantees lasts.  No group is left, every element has a name, and every multiplier
counts a copy that there is, within the limit.  A name is the element's own or the tag of a nameless
child of its parent, with its `$` signs numbered.

* `Node.AllNamedIn` : how the names of a tree come from those of the unrolled tree.
* `Expansion.WellFormed` : what is known of a tree that is written.
* `Expansion.wellFormed_of_markupTree` : it is known of the tree of every abbreviation.
-/

set_option autoImplicit false

namespace Shorthand

namespace Markup

/-! ## Names -/

/-- The names that an element may take in a parent: its own, or the tag of a nameless child. -/
inductive Element.Takes (parent : Option String) (e : Element) : String → Prop where
  | own {name : String} (h : e.name = some name) (hne : name ≠ "") : Takes parent e name
  | implicit (h : e.name = none ∨ e.name = some "") : Takes parent e (implicitTag parent)

mutual

/-- The second node is the first one with names, and with their `$` signs numbered; `parent` is the
name that the element around it has taken. -/
inductive Node.NamedIn : Option String → Node → Node → Prop where
  | element {parent : Option String} {e f : Element} {times : Option Multiplier}
      {ns ms : List Node} {name : String} (hname : e.Takes parent name)
      (hf : f.name = some (Numbering.textBy times name))
      (hbelow : Node.AllNamedIn (some name) ns ms) :
      Node.NamedIn parent (.element e times ns) (.element f times ms)
  | text (parent : Option String) (v w : Value) (times : Option Multiplier) (offset : Nat) :
      Node.NamedIn parent (.text v times offset) (.text w times offset)

/-- The second list is the first one with names, and with their `$` signs numbered. -/
inductive Node.AllNamedIn : Option String → List Node → List Node → Prop where
  | nil (parent : Option String) : Node.AllNamedIn parent [] []
  | cons {parent : Option String} {n m : Node} {ns ms : List Node} (hn : Node.NamedIn parent n m)
      (hns : Node.AllNamedIn parent ns ms) : Node.AllNamedIn parent (n :: ns) (m :: ms)

end

theorem implicitTag_ne_empty (parent : Option String) : implicitTag parent ≠ "" := by
  have htags : ∀ p ∈ childTags, p.2 ≠ "" := by decide
  cases parent with
  | none => decide
  | some parent =>
    rw [implicitTag]
    split
    · next tag h =>
      obtain ⟨before, after, hlist, -⟩ := List.lookup_eq_some_iff.1 h
      exact htags (Text.lower parent, tag) (hlist ▸ List.mem_append_right _ List.mem_cons_self)
    · split <;> decide

theorem Element.takes_nameIn (parent : Option String) (e : Element) :
    e.Takes parent (e.nameIn parent) := by
  rw [nameIn]
  split
  · next h => exact .implicit (.inl h)
  · next name h =>
    split
    · next hempty => exact .implicit (.inr (String.isEmpty_iff.1 hempty ▸ h))
    · next hne => exact .own h fun heq ↦ hne (String.isEmpty_iff.2 heq)

theorem Element.Takes.ne_empty {parent : Option String} {e : Element} {name : String}
    (h : e.Takes parent name) : name ≠ "" := by
  cases h with
  | own _ hne => exact hne
  | implicit => exact implicitTag_ne_empty parent

namespace Numbering

theorem padded_ne_nil (width : Nat) (n : Int) : padded width n ≠ [] := by
  have hdigits : Nat.toDigits 10 n.natAbs ≠ [] := List.ne_nil_of_length_pos Nat.length_toDigits_pos
  rw [padded]
  split <;> simp [hdigits]

/-- What begins a text stands for something. -/
theorem step_ne_nil (count index : Int) (c : Char) (cs : List Char) :
    (step count index (c :: cs)).1 ≠ [] := by
  rw [step.eq_def]
  split
  · exact List.cons_ne_nil _ _
  · exact padded_ne_nil _ _
  · exact List.cons_ne_nil _ _

theorem textBy_ne_empty (times : Option Multiplier) {s : String} (h : s ≠ "") :
    textBy times s ≠ "" := by
  have htext : ∀ count index, text count index s ≠ "" := by
    intro count index heq
    obtain ⟨c, cs, hs⟩ := List.exists_cons_of_ne_nil (mt String.toList_eq_nil_iff.1 h)
    have hnil := congrArg String.toList heq
    rw [text, String.toList_ofList, hs, Text.tile_cons] at hnil
    exact step_ne_nil count index c cs (List.append_eq_nil_iff.1 hnil).1
  cases times with
  | none => exact htext 1 1
  | some m => exact htext m.count m.index

end Numbering

mutual

theorem Node.namedIn_named {m : Option Multiplier → Mapper}
    (hm : ∀ times, (m times).name = Numbering.textBy times) : ∀ (n : Node)
    (parent : Option String), n.hasGroup = false → NamedIn parent n ((n.named parent).rewrite m)
  | .element e times children, parent, hgroup => by
    refine .element (e.takes_nameIn parent) ?_ (allNamedIn_nameAll hm children _ hgroup)
    rw [Element.rewrite, Option.map_some, hm]
  | .text value times offset, parent, _ => .text parent value _ times offset
  | .group _ _ _, _, hgroup => by cases hgroup

/-- Naming and numbering give every element its name, where no group is in the way. -/
theorem Node.allNamedIn_nameAll {m : Option Multiplier → Mapper}
    (hm : ∀ times, (m times).name = Numbering.textBy times) : ∀ (ns : List Node)
    (parent : Option String), anyGroup ns = false →
      AllNamedIn parent ns (rewriteAll m (nameAll parent ns))
  | [], parent, _ => .nil parent
  | n :: ns, parent, hgroup => by
    rw [anyGroup, Bool.or_eq_false_iff] at hgroup
    exact .cons (namedIn_named hm n parent hgroup.1) (allNamedIn_nameAll hm ns parent hgroup.2)

end

/-- Every element of a tree with names has one. -/
theorem Node.AllNamedIn.exists_name : ∀ {parent : Option String} {ns ms : List Node},
    AllNamedIn parent ns ms → ∀ p ∈ elements ms, ∃ name, p.2.name = some name ∧ name ≠ "" := by
  intro parent ns ms
  induction ms using forest_induction generalizing parent ns with
  | nil => simp
  | cons m ms below rest =>
    rintro (_ | ⟨hn, hns⟩)
    rw [elements_cons, List.forall_mem_append, List.forall_mem_append]
    refine ⟨?_, ?_, rest hns⟩
    · cases hn with
      | element hname hf => simpa [element?, hf] using Numbering.textBy_ne_empty _ hname.ne_empty
      | text => simp [element?]
    · cases hn with
      | element _ _ hbelow => exact below hbelow
      | text => simp [children]

/-! ## Multipliers -/

namespace Node

/-- Routes end at the nodes of a tree in reading order. -/
theorem map_target_routes (ns : List Node) (index : Nat) :
    (allRoutesFrom index ns).map (fun r ↦ (Route.target r).map times)
      = (allPreorder ns).map fun n ↦ some n.times := by
  induction ns using forest_induction generalizing index with
  | nil => rfl
  | cons n ns below rest =>
    have htimes : (n.withChildren []).times = n.times := by
      cases n <;> rfl
    rw [allRoutesFrom, routesFrom_eq, allPreorder, preorder_eq, List.map_append, List.map_append,
      rest, List.map_cons, List.map_cons, htimes, ← below 0, List.map_map]
    congr 2
    refine List.map_congr_left fun r hr ↦ ?_
    rw [Function.comp_apply, Route.target_cons (ne_nil_of_mem_routes hr)]

theorem times_rewriteAll (m : Option Multiplier → Mapper) (ns : List Node) :
    (allPreorder (rewriteAll m ns)).map times = (allPreorder ns).map times := by
  induction ns using forest_induction with
  | nil => rfl
  | cons n ns below rest =>
    have htimes : ((n.rewrite m).withChildren []).times = (n.withChildren []).times := by
      cases n <;> rfl
    rw [rewriteAll, allPreorder, allPreorder, preorder_eq, preorder_eq, children_rewrite,
      List.map_append, List.map_append, List.map_cons, List.map_cons, below, rest, htimes]

/-- Naming leaves all multipliers alone. -/
theorem times_nameAll (parent : Option String) (ns : List Node) :
    (allPreorder (nameAll parent ns)).map times = (allPreorder ns).map times := by
  induction ns using forest_induction generalizing parent with
  | nil => rfl
  | cons n ns below rest =>
    rw [nameAll, allPreorder, allPreorder, List.map_append, List.map_append, rest]
    congr 1
    cases n with
    | element e times children => exact congrArg (times :: ·) (below _)
    | text | group => rfl

end Node

namespace Copies

/-- The last multiplier on a trail is that of one of its steps. -/
theorem exists_step_of_multiplier {t : Trail} {m : Multiplier} (h : Trail.multiplier t = some m) :
    ∃ s ∈ t, countOf s.1.node.times = m.count ∧ s.2 = m.index := by
  obtain ⟨s, hs, hm⟩ := List.exists_of_findSome?_eq_some h
  obtain ⟨m', hm', rfl⟩ := Option.map_eq_some_iff.1 hm
  refine ⟨s, List.mem_reverse.1 hs, ?_, rfl⟩
  rw [hm']
  rfl

/-- No step of a trail asks for more copies than all steps together. -/
theorem countOf_le_product {t : Trail} (h : Trail.Chosen t) {s : Step × Nat} (hs : s ∈ t) :
    countOf s.1.node.times ≤ Route.product (Trail.route t) := by
  have hmem : countOf s.1.node.times ∈ (Trail.route t).map fun s ↦ countOf s.node.times :=
    List.mem_map_of_mem (List.mem_map_of_mem hs)
  refine Nat.le_of_dvd (List.prod_pos fun count hcount ↦ ?_) (List.dvd_prod hmem)
  obtain ⟨u, hu, rfl⟩ := List.mem_map.1 hcount
  obtain ⟨v, hv, rfl⟩ := List.mem_map.1 hu
  exact Nat.lt_of_lt_of_le (h v hv).1 (h v hv).2

/-- The copies that are laid out count themselves, within the limit. -/
theorem counts_of_laidOut {limit : Nat} {nodes out : List Node} {trails : List Trail}
    (h : LaidOut nodes out trails)
    (hlimit : ∀ r ∈ Node.routes nodes, Route.product r ≤ limit) :
    ∀ n ∈ Node.allPreorder out, ∀ m, n.times = some m →
      1 ≤ m.index ∧ m.index ≤ m.count ∧ m.count ≤ limit := by
  intro n hn m hm
  have htimes : some n.times ∈ (Node.routes out).map fun r ↦ (Route.target r).map Node.times := by
    rw [Node.routes, Node.map_target_routes]
    exact List.mem_map_of_mem hn
  obtain ⟨r, hr, htarget⟩ := List.mem_map.1 htimes
  obtain ⟨t, ht, _, copy, -, hcopy, hmultiplier, -⟩ := forall₂_mem_right h.copies.flip hr
  rw [hcopy] at htarget
  have hlast : Trail.multiplier t = some m := by
    rw [← Option.or_none (o := Trail.multiplier t), ← hmultiplier, ← hm]
    exact Option.some.inj htarget
  obtain ⟨hroute, hchosen, -⟩ := (h.mem_iff t).1 ht
  obtain ⟨s, hs, hcount, hindex⟩ := exists_step_of_multiplier hlast
  rw [← hcount, ← hindex]
  exact ⟨(hchosen s hs).1, (hchosen s hs).2,
    (countOf_le_product hchosen hs).trans (hlimit _ hroute)⟩

end Copies

end Markup

namespace Expansion

open Markup

/-- The tree of a markup abbreviation with its snippets expanded and its multipliers carried out. -/
def unrolled (c : Config) (abbreviation : String) : Except Failure (List Node) :=
  expanded c abbreviation >>= Copies.unroll c.maxRepeat abbreviation

/-- What is known of the tree of an abbreviation when it is written. -/
structure WellFormed (c : Config) (abbreviation : String) (nodes : List Node) : Prop where
  anyGroup : Node.anyGroup nodes = false
  names : ∀ p ∈ Node.elements nodes, ∃ name, p.2.name = some name ∧ name ≠ ""
  multipliers : ∀ n ∈ Node.allPreorder nodes, ∀ m, n.times = some m →
    1 ≤ m.index ∧ m.index ≤ m.count ∧ m.count ≤ c.maxRepeat
  /-- Names are those of the unrolled tree or tags of nameless children, with numbers. -/
  named : ∃ tree, unrolled c abbreviation = .ok tree ∧ Node.AllNamedIn none tree nodes
  written : ∃ segments, Html.write c.htmlStyle nodes = .ok segments

/-- The passes after the unrolling, as maps. -/
theorem exists_unrolled_of_markupTree {c : Config} {s : String} {nodes : List Node}
    (h : markupTree c s = .ok nodes) :
    ∃ tree out, expanded c s = .ok tree ∧ Copies.unroll c.maxRepeat s tree = .ok out ∧
      nodes = Node.rewriteAll (Numbering.turnTaker (Node.nameAll none out))
        (Node.nameAll none out) := by
  obtain ⟨raw, hparse, h⟩ := bind_eq_ok_iff.1 h
  obtain ⟨tree, hexpand, h⟩ := bind_eq_ok_iff.1 h
  obtain ⟨out, hunroll, hnumber⟩ := bind_eq_ok_iff.1 h
  have hgroup : Node.anyGroup (Node.nameAll none out) = false :=
    (Node.anyGroup_nameAll none out).trans (Copies.anyGroup_of_unroll hunroll)
  rw [Numbering.number_eq_rewriteAll hgroup] at hnumber
  exact ⟨tree, out, bind_eq_ok_iff.2 ⟨raw, hparse, hexpand⟩, hunroll, (Except.ok.inj hnumber).symm⟩

/-- **The tree that is written is well formed,** for every abbreviation and every configuration. -/
theorem wellFormed_of_markupTree {c : Config} {s : String} {nodes : List Node}
    (h : markupTree c s = .ok nodes) : WellFormed c s nodes := by
  obtain ⟨tree, out, htree, hunroll, hnodes⟩ := exists_unrolled_of_markupTree h
  obtain ⟨next, hinstances⟩ := exists_instances_of_expanded htree
  have hgroup : Node.anyGroup nodes = false := by
    obtain ⟨_, -, h⟩ := bind_eq_ok_iff.1 (markupTree_eq_bind c s ▸ h)
    exact Numbering.anyGroup_of_number h
  have hnamed : Node.AllNamedIn none out nodes := by
    rw [hnodes]
    exact Node.allNamedIn_nameAll (fun _ ↦ rfl) out none (Copies.anyGroup_of_unroll hunroll)
  have htimes : (Node.allPreorder nodes).map Node.times
      = (Node.allPreorder out).map Node.times := by
    rw [hnodes, Node.times_rewriteAll, Node.times_nameAll]
  have hlimit : ∀ r ∈ Node.routes tree, Route.product r ≤ c.maxRepeat := by
    refine fun r hr ↦ Nat.le_of_not_lt fun hlt ↦ ?_
    obtain ⟨failure, hfailure⟩ :=
      (Copies.capped_of_consistent hinstances.consistent c.maxRepeat s).fails_iff.2 ⟨r, hr, hlt⟩
    rw [hunroll] at hfailure
    cases hfailure
  have hlaid := Copies.laidOut_of_unroll hinstances.consistent hunroll
  refine ⟨hgroup, hnamed.exists_name, fun n hn m hm ↦ ?_, ?_, ?_⟩
  -- Names and numbers change no multiplier, so those of the copies are the ones that are written.
  · obtain ⟨n', hn', heq⟩ := List.mem_map.1 (htimes ▸ List.mem_map_of_mem hn)
    exact Copies.counts_of_laidOut hlaid hlimit n' hn' m (heq.trans hm)
  · exact ⟨out, bind_eq_ok_iff.2 ⟨tree, htree, hunroll⟩, hnamed⟩
  · exact ⟨_, by rw [Html.write, hgroup]; rfl⟩

/-- An element with a class and nothing else. -/
def marked (name className : String) (times : Option Multiplier) (offset : Nat)
    (below : List Node) : Node :=
  .element { name := some name, classes := [[.text className]], offset } times below

/-- Nameless elements in a list, in an inline element and in one another. -/
theorem wellFormed_nested :
    ∃ nodes, nodes = [.element { name := some "ul" } none
        [marked "li" "a1" (some ⟨2, 1⟩) 4 [.element { name := some "em", offset := 8 } (some ⟨2, 1⟩)
          [marked "span" "b" (some ⟨2, 1⟩) 11 []]],
        marked "li" "a2" (some ⟨2, 2⟩) 4 [.element { name := some "em", offset := 8 } (some ⟨2, 2⟩)
          [marked "span" "b" (some ⟨2, 2⟩) 11 []]]]] ∧
      markupTree {} "ul>(.a$>em>.b)*2" = .ok nodes ∧ WellFormed {} "ul>(.a$>em>.b)*2" nodes := by
  have h : markupTree {} "ul>(.a$>em>.b)*2" = .ok [.element { name := some "ul" } none
        [marked "li" "a1" (some ⟨2, 1⟩) 4 [.element { name := some "em", offset := 8 } (some ⟨2, 1⟩)
          [marked "span" "b" (some ⟨2, 1⟩) 11 []]],
        marked "li" "a2" (some ⟨2, 2⟩) 4 [.element { name := some "em", offset := 8 } (some ⟨2, 2⟩)
          [marked "span" "b" (some ⟨2, 2⟩) 11 []]]]] := by
    decide +kernel
  exact ⟨_, rfl, h, wellFormed_of_markupTree h⟩

end Expansion

end Shorthand
