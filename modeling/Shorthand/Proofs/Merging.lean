import Shorthand.Proofs.Distinct
import Shorthand.Proofs.Grafting

/-!
# What was typed on a snippet

An element that names a snippet is merged into the top nodes of the snippet's tree.  Every top
element then carries all that was typed.  A group at the top takes only the multiplier, and what is
in it is not looked at; but when the group is dissolved, its nodes are top nodes of the expansion.
So nothing that was typed is lost exactly if the elements of such groups have it already.

* `Element.Carries` : an element that has everything that was typed on another.
* `Node.allOpened` : the nodes of a forest when the groups at its top are dissolved.
* `Snippet.carried_iff_grouped` : when all top elements of an expansion carry what was typed.
-/

set_option autoImplicit false

namespace Shorthand.Markup

/-! ## Merging into an element -/

/-- An element has everything that was typed on another: the classes, the attributes with their
values, the id, the text, and that it closes itself. -/
structure Element.Carries (e typed : Element) : Prop where
  classes : ∀ v ∈ typed.classes, v ∈ e.classes
  attributes : ∀ a ∈ typed.attributes, ∃ b ∈ e.attributes, b.name = a.name ∧ b.value = a.value
  id : ∀ v, typed.id = some v → e.id = some v
  text : ∀ v, typed.text = some v → e.text = some v
  selfClosing : typed.selfClosing = true → e.selfClosing = true

namespace Attribute

variable {a b : Attribute} {as : List Attribute}

theorem exists_mem_putInto (a : Attribute) (as : List Attribute) :
    ∃ b ∈ a.putInto as, b.name = a.name ∧ b.value = a.value := by
  induction as with
  | nil => exact ⟨a, List.mem_singleton_self a, rfl, rfl⟩
  | cons b bs ih =>
    rw [putInto]
    split
    · next hname => exact ⟨_, List.mem_cons_self, beq_iff_eq.1 hname, rfl⟩
    · obtain ⟨c, hc, hca⟩ := ih
      exact ⟨c, List.mem_cons_of_mem b hc, hca⟩

/-- Putting an attribute among others leaves those with other names. -/
theorem mem_putInto_of_ne (h : b ∈ as) (hne : b.name ≠ a.name) : b ∈ a.putInto as := by
  induction as with
  | nil => cases h
  | cons c cs ih =>
    rw [putInto]
    rcases List.mem_cons.1 h with rfl | h
    · rw [if_neg (mt beq_iff_eq.1 hne)]
      exact List.mem_cons_self
    · split
      · exact List.mem_cons_of_mem _ h
      · exact List.mem_cons_of_mem _ (ih h)

end Attribute

namespace Element

theorem mem_addClasses {v : Value} (hv : v ≠ []) {vs : List Value} (e : Element)
    (h : v ∈ e.classes ∨ v ∈ vs) : v ∈ (vs.foldl addClass e).classes := by
  induction vs generalizing e with
  | nil => exact h.resolve_right List.not_mem_nil
  | cons w ws ih =>
    refine ih (e.addClass w) ?_
    rw [List.mem_cons, ← or_assoc] at h
    refine h.imp_left fun h ↦ ?_
    rw [addClass]
    split
    · next hskip =>
      rcases h with h | rfl
      · exact h
      · rcases Bool.or_eq_true _ _ ▸ hskip with hempty | hmem
        · exact absurd (List.isEmpty_iff.1 hempty) hv
        · exact List.contains_iff_mem.1 hmem
    · rw [List.mem_append, List.mem_singleton]
      exact h

theorem mem_putAttributes_of_not_mem {as : List Attribute} {b : Attribute} (e : Element)
    (h : b ∈ e.attributes) (hnot : b.name ∉ as.map (·.name)) :
    b ∈ (as.foldl putAttribute e).attributes := by
  induction as generalizing e with
  | nil => exact h
  | cons a as ih =>
    obtain ⟨hne, hnot⟩ := not_or.1 (List.mem_cons.not.1 hnot)
    exact ih _ (Attribute.mem_putInto_of_ne h hne) hnot

/-- Of attributes with different names that are put on an element, each is there with its value. -/
theorem exists_mem_putAttributes {as : List Attribute} (hnames : (as.map (·.name)).Nodup)
    (e : Element) : ∀ a ∈ as, ∃ b ∈ (as.foldl putAttribute e).attributes,
      b.name = a.name ∧ b.value = a.value := by
  induction as generalizing e with
  | nil => simp
  | cons a as ih =>
    obtain ⟨ha, has⟩ := List.nodup_cons.1 hnames
    refine List.forall_mem_cons.2 ⟨?_, ih has _⟩
    obtain ⟨b, hb, hname, hvalue⟩ := a.exists_mem_putInto e.attributes
    exact ⟨b, mem_putAttributes_of_not_mem (e.putAttribute a) hb (hname ▸ ha), hname, hvalue⟩

/-- A merged element carries what was typed. -/
theorem carries_mergeTyped {typed : Element} (hneat : typed.Neat)
    (hnames : (typed.attributes.map (·.name)).Nodup) (e : Element) :
    (e.mergeTyped typed).Carries typed := by
  have hput := foldl_putAttribute typed.attributes (typed.classes.foldl addClass e)
  refine ⟨fun v hv ↦ ?_, exists_mem_putAttributes hnames _, fun v hv ↦ ?_, fun v hv ↦ ?_,
    fun h ↦ ?_⟩
  · have hclasses : (e.mergeTyped typed).classes = (typed.classes.foldl addClass e).classes := by
      rw [mergeTyped, hput]
    rw [hclasses]
    exact mem_addClasses (hneat.solid v hv).1 e (.inr hv)
  · simp only [mergeTyped, hv, Option.some_or]
  · simp only [mergeTyped, hv, Option.some_or]
  · simp only [mergeTyped, h, Bool.or_true]

/-- What is carried does not depend on links. -/
theorem Carries.of_linked {e typed : Element} {as : List Attribute}
    (hmap : as.map (fun a ↦ (a.name, a.value)) = typed.attributes.map fun a ↦ (a.name, a.value))
    (h : e.Carries { typed with attributes := as }) : e.Carries typed := by
  refine ⟨h.classes, fun a ha ↦ ?_, h.id, h.text, h.selfClosing⟩
  obtain ⟨a', ha', hname', hvalue'⟩ := Attribute.exists_relinked hmap.symm ha
  obtain ⟨b, hb, hname, hvalue⟩ := h.attributes a' ha'
  exact ⟨b, hb, hname.trans hname', hvalue.trans hvalue'⟩

end Element

/-! ## Merging into the top of a tree -/

namespace Node

mutual

/-- The nodes that a node stands for when it is dissolved; only a group stands for others. -/
def opened : Node → List Node
  | .element e times children => [.element e times children]
  | .text value times offset => [.text value times offset]
  | .group children _ _ => allOpened children

/-- The nodes of a forest when the groups at its top are dissolved. -/
def allOpened : List Node → List Node
  | [] => []
  | n :: ns => n.opened ++ allOpened ns

end

/-- The elements among nodes themselves, without those below. -/
def ownElements (ns : List Node) : List Element := (ns.filterMap element?).map (·.2)

section Merged

variable {typed : Element} {times : Option Multiplier} {P : Element → Prop}

theorem ownElements_append (ns ms : List Node) :
    ownElements (ns ++ ms) = ownElements ns ++ ownElements ms := by
  rw [ownElements, List.filterMap_append, List.map_append]
  rfl

theorem allOpened_append (ns ms : List Node) :
    allOpened (ns ++ ms) = allOpened ns ++ allOpened ms := by
  induction ns with
  | nil => rfl
  | cons n ns ih => rw [List.cons_append, allOpened, allOpened, ih, List.append_assoc]

/-- After a merge the top elements of a tree are the merged elements and those of its groups, which
are as they were. -/
theorem forall_ownElements_opened (tops : List Node) :
    (∀ e ∈ ownElements (allOpened (tops.map (mergeTyped typed times))), P e) ↔
      (∀ e ∈ ownElements (tops.map (mergeTyped typed times)), P e) ∧
        ∀ e ∈ ownElements (allOpened (tops.filter isGroup)), P e := by
  induction tops with
  | nil => simp [allOpened, ownElements]
  | cons n ns ih =>
    have hnode : (∀ e ∈ ownElements (n.mergeTyped typed times).opened, P e) ↔
        (∀ e ∈ ownElements [n.mergeTyped typed times], P e) ∧
          ∀ e ∈ ownElements (allOpened ([n].filter isGroup)), P e := by
      cases n <;>
        simp [ownElements, mergeTyped, opened, allOpened, element?, isGroup, List.filter_cons]
    have hmerged : ownElements ((n :: ns).map (mergeTyped typed times))
        = ownElements [n.mergeTyped typed times] ++ ownElements (ns.map (mergeTyped typed times)) :=
      ownElements_append [_] _
    have hgroups : ownElements (allOpened ((n :: ns).filter isGroup))
        = ownElements (allOpened ([n].filter isGroup))
          ++ ownElements (allOpened (ns.filter isGroup)) := by
      rw [← List.singleton_append, List.filter_append, allOpened_append, ownElements_append]
    rw [hmerged, hgroups, List.map_cons, allOpened, ownElements_append, List.forall_mem_append,
      List.forall_mem_append, List.forall_mem_append, ih, hnode, and_and_and_comm]

theorem carries_of_mem_merged (hneat : typed.Neat)
    (hnames : (typed.attributes.map (·.name)).Nodup) (tops : List Node) :
    ∀ e ∈ ownElements (tops.map (mergeTyped typed times)), e.Carries typed := by
  intro e he
  obtain ⟨x, hx, rfl⟩ := List.mem_map.1 he
  obtain ⟨n, hn, hx⟩ := List.mem_filterMap.1 hx
  obtain ⟨m, -, rfl⟩ := List.mem_map.1 hn
  cases m with
  | element e t children =>
    cases hx
    exact Element.carries_mergeTyped hneat hnames e
  | text | group => cases hx

/-- **All top elements of an expansion carry what was typed** exactly if those in its groups do so
already; the others always do. -/
theorem carries_mergeAll {tops : List Node} {p : Progress} (hneat : typed.Neat)
    (htyped : typed.Regular Value.Unscoped Attribute.Typed) (hp : p.shown = []) :
    (∀ e ∈ ownElements (mergeAll typed times tops p).1, e.Carries typed) ∧
      ((∀ e ∈ ownElements (allOpened (mergeAll typed times tops p).1), e.Carries typed) ↔
        ∀ e ∈ ownElements (allOpened (tops.filter isGroup)), e.Carries typed) := by
  obtain ⟨as, hshared, hmap, -, -, -⟩ :=
    Element.shared_spec (fun a ha ↦ (htyped.attributes a ha).1) tops p.toSupply
  have hmerged : (mergeAll typed times tops p).1
      = tops.map (mergeTyped { typed with attributes := as } times) := by
    rw [mergeAll, hp, Element.current_nil, ← hshared]
  have hnames : (as.map (·.name)).Nodup := Attribute.names_relinked hmap ▸ htyped.names
  have hcarries : ∀ e ∈ ownElements (mergeAll typed times tops p).1, e.Carries typed := by
    rw [hmerged]
    have hneat' : Element.Neat { typed with attributes := as } := hneat.of_classes rfl
    exact fun e he ↦ (carries_of_mem_merged hneat' hnames tops e he).of_linked hmap
  refine ⟨hcarries, ?_⟩
  rw [hmerged] at hcarries ⊢
  rw [forall_ownElements_opened]
  exact and_iff_right hcarries

end Merged

/-! ### Nodes on their own -/

/-- Nothing that is hung into a tree leaves it as it is. -/
theorem hung_nil (ns : List Node) : Hung [] ns ns := by
  induction ns using forest_induction with
  | nil => exact .beside fun last hlast ↦ by cases hlast
  | cons n ns below rest =>
    cases ns with
    | nil =>
      cases hn : n.isText with
      | true =>
        refine .beside fun last hlast ↦ ?_
        cases hlast
        exact hn
      | false =>
        have h := Hung.inside [] hn below
        rwa [withChildren_children] at h
    | cons m ms => exact rest.cons (List.cons_ne_nil m ms) n

/-- The pieces of nodes that have none below them stand one after the other. -/
theorem grafted_flatten {pieces : List (List Node)} {ns : List Node}
    (hbare : ∀ n ∈ ns, n.children = []) (hlength : pieces.length = ns.length) :
    Grafted pieces ns pieces.flatten := by
  induction ns generalizing pieces with
  | nil =>
    obtain rfl := List.length_eq_zero_iff.1 hlength
    exact .nil
  | cons n ns ih =>
    obtain ⟨piece, rest, rfl⟩ := List.exists_cons_of_length_eq_add_one hlength
    obtain ⟨hn, hns⟩ := List.forall_mem_cons.1 hbare
    have hbelow : Grafted [] n.children [] := hn ▸ .nil
    exact .cons hbelow (hung_nil piece) (ih hns (Nat.succ.inj hlength))

/-- What is asked of every node by itself holds of the listing of a forest. -/
theorem Nodewise.allPreorder {C : List Node → Prop} (hC : Nodewise C) {ns : List Node} (h : C ns) :
    C (allPreorder ns) := by
  induction ns using forest_induction with
  | nil => exact h
  | cons n ns below rest =>
    obtain ⟨hn, hns⟩ := hC.cons.1 h
    have hempty : C [] := (hC.append.1 (List.append_nil [n] ▸ hn)).2
    rw [Node.allPreorder, preorder_eq, List.cons_append]
    exact hC.cons.2 ⟨hC.withChildren hn hempty, hC.append.2 ⟨below (hC.children hn), rest hns⟩⟩

end Node

namespace Snippet

variable {table : Table String}

/-- While plain nodes yield their pieces, nothing is rewritten elsewhere. -/
theorem Yields.shown_eq_nil {ns : List Node} {p q : Progress} {pieces : List (List Node)}
    (h : Yields table p ns pieces q) (hbare : ∀ n ∈ ns, n.withChildren [] = n)
    (hplain : AllPlain 0 p.scope ns) (hp : p.shown = []) : q.shown = [] := by
  have hchildren : ∀ n ∈ ns, n.children = [] := by
    intro n hn
    rw [← hbare n hn]
    cases n <;> rfl
  have hexpands : Expands table p ns pieces.flatten q := by
    refine ⟨pieces, ?_, Node.grafted_flatten hchildren h.length_eq⟩
    rwa [Node.allPreorder_of_bare hbare]
  exact (expandTo_gives (table.length + 1) 0 table ns p _ (Nat.zero_le _) hp hplain
    ((expandTo_eq_ok_iff (Nat.lt_succ_self _)).2 hexpands)).shown

/-- An instance of a snippet rewrites nothing elsewhere. -/
theorem Instantiates.shown_eq_nil {key text : String} {p q : Progress} {tops : List Node}
    (h : Instantiates table key text p tops q) (hp : p.shown = []) : q.shown = [] := by
  obtain ⟨parsed, hparse, hexpands⟩ := h
  have hrun := (expandTo_eq_ok_iff (Nat.lt_succ_self _)).2 hexpands
  exact (expandTo_gives _ p.scope _ _ { p with scope := p.scope + 1 } _ (Nat.le_succ _) hp
    (plain_inScope p.scope (Tree.typed_of_parse hparse)) hrun).shown

/-- The piece of an element that names a snippet, in a tree that was read, is the snippet's own
expansion with the element merged into it. -/
theorem Yields.exists_mergeAll {nodes : List Node} {pieces : List (List Node)} {q : Progress}
    (hnodes : Node.AllTyped nodes)
    (h : Yields table ⟨supplyFor nodes, []⟩ (Node.allPreorder nodes) pieces q) :
    ∀ x ∈ (Node.allPreorder nodes).zip pieces, ∀ e times key text, x.1 = .element e times [] →
      find? table e = some (key, text) → ∃ p tops mid, Instantiates table key text p tops mid ∧
        mid.shown = [] ∧ x.2 = (Node.mergeAll e times tops mid).1 := by
  intro x hx e times key text hx₁ hfind
  obtain ⟨before, after, hzip⟩ := List.mem_iff_append.1 hx
  have hlength : (Node.allPreorder nodes).length = pieces.length := h.length_eq.symm
  have hnodes' : Node.allPreorder nodes = before.map Prod.fst ++ x.1 :: after.map Prod.fst := by
    rw [← List.map_fst_zip (Nat.le_of_eq hlength), hzip, List.map_append, List.map_cons]
  have hpieces : pieces = before.map Prod.snd ++ x.2 :: after.map Prod.snd := by
    rw [← List.map_snd_zip (Nat.le_of_eq hlength.symm), hzip, List.map_append, List.map_cons]
  have hbare : ∀ n ∈ before.map Prod.fst, n.withChildren [] = n := fun n hn ↦
    Node.withChildren_nil_of_mem (hnodes' ▸ List.mem_append_left _ hn)
  have hplain : AllPlain 0 1 (before.map Prod.fst) := by
    have hall := Node.AllRegular.nodewise.allPreorder (plain_of_typed 0 1 hnodes)
    rw [hnodes'] at hall
    exact (Node.AllRegular.nodewise.append.1 hall).1
  rw [hnodes', hpieces] at h
  obtain ⟨ps, qs, p, heq, hps, h⟩ := Yields.append_iff.1 h
  obtain ⟨rfl, rfl⟩ := List.append_inj heq (by simp [hps.length_eq])
  obtain ⟨piece, rest, mid, heq, hone, -⟩ := Yields.cons_iff.1 h
  cases heq
  rw [hx₁] at hone
  obtain ⟨tops, own, hown, hmerge⟩ := (YieldsOne.named_iff hfind).1 hone
  have hp : p.shown = [] := hps.shown_eq_nil hbare hplain rfl
  exact ⟨p, tops, own, hown, hown.shown_eq_nil hp, by rw [hmerge]⟩

/-- **What was typed on a snippet, and where it is lost.**  The piece of an element that names a
snippet is the snippet's own expansion with the element merged into it.  Every top element of the
piece carries the classes, the attributes, the id, the text and the slash that were typed.  When its
groups are dissolved, all top elements carry them exactly if those in the groups did so before the
merge. -/
theorem carried_iff_grouped {table : Table String} {s : String} {nodes resolved : List Node}
    (hparse : Tree.parse s = .ok nodes) (h : expandAll table nodes = .ok resolved) :
    ∃ pieces q, Yields table ⟨supplyFor nodes, []⟩ (Node.allPreorder nodes) pieces q ∧
      Node.Grafted pieces nodes resolved ∧
      Node.allPreorder resolved = pieces.flatMap Node.allPreorder ∧
      ∀ x ∈ (Node.allPreorder nodes).zip pieces, ∀ e times key text, x.1 = .element e times [] →
        find? table e = some (key, text) → ∃ p tops mid, Instantiates table key text p tops mid ∧
          x.2 = (Node.mergeAll e times tops mid).1 ∧
          (∀ b ∈ Node.ownElements x.2, b.Carries e) ∧
          ((∀ b ∈ Node.ownElements (Node.allOpened x.2), b.Carries e) ↔
            ∀ b ∈ Node.ownElements (Node.allOpened (tops.filter Node.isGroup)), b.Carries e) := by
  have hnodes := Tree.typed_of_parse hparse
  obtain ⟨out, q, hexpands, rfl⟩ := expandAll_eq_ok_iff_expands.1 h
  have hshown := hexpands.shown_eq_nil hnodes
  rw [hshown, Node.settle_nil]
  obtain ⟨pieces, hyields, hgrafted⟩ := hexpands
  refine ⟨pieces, q, hyields, hgrafted, hgrafted.listing, fun x hx e times key text hx₁ hfind ↦ ?_⟩
  obtain ⟨p, tops, mid, hown, hmid, hpiece⟩ :=
    hyields.exists_mergeAll hnodes x hx e times key text hx₁ hfind
  have hmem : (times, e) ∈ Node.elements nodes := by
    refine List.mem_filterMap.2 ⟨x.1, (List.of_mem_zip hx).1, ?_⟩
    rw [hx₁]
    rfl
  obtain ⟨hmerged, hiff⟩ := Node.carries_mergeAll (Tree.neat_of_parse hparse _ hmem)
    (hnodes.elements _ hmem) hmid
  rw [hpiece]
  exact ⟨p, tops, mid, hown, rfl, hmerged, hiff⟩

/-- `x.a`: a class on an element that names a snippet. -/
def classTyped : Element := { name := some "x", classes := [[.text "a"]] }

/-- What `x.a` expands to if `x` stands for `(p.a)+q`. -/
def classExpanded : List Node :=
  [.group [.element { name := some "p", classes := [[.text "a"]], offset := 1 } none []] none 0,
    .element { name := some "q", classes := [[.text "a"]] } none []]

/-- The element in the group has the class from the snippet, the other one from the user. -/
theorem carried_iff_grouped_class :
    Tree.parse "x.a" = .ok [.element classTyped none []] ∧
      expandAll [("x", "(p.a)+q")] [.element classTyped none []] = .ok classExpanded ∧
      ∃ pieces q, Yields [("x", "(p.a)+q")] ⟨supplyFor [.element classTyped none []], []⟩
          (Node.allPreorder [.element classTyped none []]) pieces q ∧
        Node.Grafted pieces [.element classTyped none []] classExpanded ∧
        Node.allPreorder classExpanded = pieces.flatMap Node.allPreorder ∧
        ∀ x ∈ (Node.allPreorder [.element classTyped none []]).zip pieces, ∀ e times key text,
          x.1 = .element e times [] → find? [("x", "(p.a)+q")] e = some (key, text) →
            ∃ p tops mid, Instantiates [("x", "(p.a)+q")] key text p tops mid ∧
              x.2 = (Node.mergeAll e times tops mid).1 ∧
              (∀ b ∈ Node.ownElements x.2, b.Carries e) ∧
              ((∀ b ∈ Node.ownElements (Node.allOpened x.2), b.Carries e) ↔
                ∀ b ∈ Node.ownElements (Node.allOpened (tops.filter Node.isGroup)),
                  b.Carries e) := by
  have hparse : Tree.parse "x.a" = .ok [.element classTyped none []] := by decide +kernel
  have hexpand : expandAll [("x", "(p.a)+q")] [.element classTyped none []]
      = .ok classExpanded := by decide +kernel
  exact ⟨hparse, hexpand, carried_iff_grouped hparse hexpand⟩

/-- A class that is typed on a snippet whose tree is a group gets lost. -/
theorem group_drops_class :
    Tree.parse "x.a" = .ok [.element classTyped none []] ∧
      find? [("x", "(p)")] classTyped = some ("x", "(p)") ∧
      expandAll [("x", "(p)")] [.element classTyped none []]
        = .ok [.group [.element { name := some "p", offset := 1 } none []] none 0] ∧
      (¬ ∀ b ∈ Node.ownElements (Node.allOpened
          [.group [.element { name := some "p", offset := 1 } none []] none 0]),
        b.Carries classTyped) ∧
      Expansion.expand { markupSnippets := [("x", "(p)")] } "x.a" = .ok "<p></p>" := by
  refine ⟨by decide +kernel, by decide, by decide +kernel, fun h ↦ ?_, by decide +kernel⟩
  have hcarries := h { name := some "p", offset := 1 } (by decide)
  exact absurd (hcarries.classes [.text "a"] (by decide)) List.not_mem_nil

end Snippet

end Shorthand.Markup
