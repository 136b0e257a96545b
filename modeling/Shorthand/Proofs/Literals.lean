import Shorthand.Proofs.NumberedOnce
import Shorthand.Proofs.Mirroring

/-!
# Trees without dollar signs

Numbering only ever touches the literal text of a tree, and there only dollar signs.  A tree without
them, in which attributes with one link are equal, is numbered as it is, so that its output is
decided by its shape and by which of its fields are one stop.

* `Node.allLiterals`, `Node.NoDollar` : the literal text of a tree.
* `Numbering.number_eq_self` : trees without dollar signs are not changed by numbering.
* `Node.nameAll_iff` : trees of one shape have paired fields exactly when they have when all their
  elements are named.
-/

set_option autoImplicit false

namespace Shorthand

/-- The literal parts of a value. -/
def Value.literals (v : Value) : List String :=
  v.filterMap fun | .text s => some s | .field _ => none

namespace Markup

/-! ## Literal text -/

/-- The literal text of an element: its name, its attribute names, and the literal parts of its
values. -/
def Element.literals (e : Element) : List String :=
  e.name.toList ++ e.attributes.map (·.name) ++ e.values.flatMap Value.literals

mutual

/-- The literal text of a node and of the nodes below it. -/
def Node.literals : Node → List String
  | .element e _ children => e.literals ++ Node.allLiterals children
  | .text value _ _ => value.literals
  | .group children _ _ => Node.allLiterals children

/-- The literal text of a list of nodes. -/
def Node.allLiterals : List Node → List String
  | [] => []
  | n :: ns => n.literals ++ Node.allLiterals ns

end

/-- No literal text of a tree has a dollar sign. -/
def Node.NoDollar (nodes : List Node) : Prop := ∀ s ∈ Node.allLiterals nodes, '$' ∉ s.toList

theorem Element.mem_literals_of_value {e : Element} {v : Value} {s : String} (hv : v ∈ e.values)
    (hs : s ∈ v.literals) : s ∈ e.literals :=
  List.mem_append_right _ (List.mem_flatMap.2 ⟨v, hv, hs⟩)

theorem Element.mem_literals_of_attribute {e : Element} {a : Attribute} {s : String}
    (ha : a ∈ e.attributes) (hs : s = a.name ∨ s ∈ a.value.literals) : s ∈ e.literals := by
  rcases hs with rfl | hs
  · exact List.mem_append_left _ (List.mem_append_right _ (List.mem_map_of_mem ha))
  · refine Element.mem_literals_of_value ?_ hs
    simp only [Element.values, List.mem_append, List.mem_map]
    exact .inl (.inr ⟨a, ha, rfl⟩)

mutual

theorem Node.mem_literals_of_place (n : Node) {p : Option Multiplier × Attribute}
    (hp : p ∈ n.places) {s : String} (hs : s = p.2.name ∨ s ∈ p.2.value.literals) :
    s ∈ n.literals := by
  cases n with
  | element e times children =>
    rcases List.mem_append.1 hp with hp | hp
    · obtain ⟨a, ha, rfl⟩ := List.mem_map.1 hp
      exact List.mem_append_left _ (Element.mem_literals_of_attribute ha hs)
    · exact List.mem_append_right _ (Node.mem_allLiterals_of_place children hp hs)
  | text value times offset => simp [Node.places] at hp
  | group children times offset => exact Node.mem_allLiterals_of_place children hp hs

/-- The literal text of a tree has that of the attributes that it shows. -/
theorem Node.mem_allLiterals_of_place (ns : List Node) {p : Option Multiplier × Attribute}
    (hp : p ∈ Node.allPlaces ns) {s : String} (hs : s = p.2.name ∨ s ∈ p.2.value.literals) :
    s ∈ Node.allLiterals ns := by
  cases ns with
  | nil => simp [Node.allPlaces] at hp
  | cons n ns =>
    rcases List.mem_append.1 hp with hp | hp
    · exact List.mem_append_left _ (Node.mem_literals_of_place n hp hs)
    · exact List.mem_append_right _ (Node.mem_allLiterals_of_place ns hp hs)

end

/-! ## Numbering -/

theorem Value.mapText_eq_self {f : String → String} {v : Value}
    (h : ∀ s ∈ v.literals, f s = s) : v.mapText f = v := by
  induction v with
  | nil => rfl
  | cons p v ih =>
    cases p with
    | text s =>
      obtain ⟨hs, hv⟩ := List.forall_mem_cons.1 (show ∀ r ∈ s :: Value.literals v, f r = r from h)
      exact congrArg₂ (fun s v ↦ Part.text s :: v) hs (ih hv)
    | field g => exact congrArg (Part.field g :: ·) (ih h)

theorem Element.rewrite_eq_self {m : Mapper} {e : Element} (hname : ∀ s ∈ e.literals, m.name s = s)
    (hvalue : ∀ v ∈ e.values, m.value v = v) (hattr : ∀ a ∈ e.attributes, m.attr a = a) :
    e.rewrite m = e := by
  obtain ⟨name, id, classes, attributes, text, selfClosing, offset⟩ := e
  have hoption : ∀ {α : Type} {f : α → α} {o : Option α}, (∀ a ∈ o.toList, f a = a) →
      o.map f = o := by
    intro α f o h
    cases o with
    | none => rfl
    | some a => exact congrArg some (h a (by simp))
  have hlist : ∀ {α : Type} {f : α → α} {l : List α}, (∀ a ∈ l, f a = a) → l.map f = l :=
    fun h ↦ (List.map_congr_left h).trans (List.map_id _)
  simp only [Element.rewrite, Element.mk.injEq, and_true]
  refine ⟨hoption fun s hs ↦ hname s ?_, hoption fun v hv ↦ hvalue v ?_,
    hlist fun v hv ↦ hvalue v ?_, hlist hattr, hoption fun v hv ↦ hvalue v ?_⟩
  · simp [Element.literals, hs]
  all_goals simp [Element.values, hv]

mutual

theorem Node.rewrite_eq_self {m : Option Multiplier → Mapper} {p : String → Prop}
    (hname : ∀ times s, p s → (m times).name s = s)
    (hvalue : ∀ times v, (∀ s ∈ Value.literals v, p s) → (m times).value v = v) (n : Node)
    (hp : ∀ s ∈ n.literals, p s) (hattr : ∀ q ∈ n.places, (m q.1).attr q.2 = q.2) :
    n.rewrite m = n := by
  cases n with
  | element e times children =>
    obtain ⟨he, hc⟩ := List.forall_mem_append.1 hp
    obtain ⟨hae, hac⟩ := List.forall_mem_append.1 hattr
    rw [Node.rewrite, Node.rewriteAll_eq_self hname hvalue children hc hac,
      Element.rewrite_eq_self (fun s hs ↦ hname _ s (he s hs))
        (fun v hv ↦ hvalue _ v fun s hs ↦ he s (Element.mem_literals_of_value hv hs))
        (fun a ha ↦ hae (times, a) (List.mem_map_of_mem ha))]
  | text value times offset => rw [Node.rewrite, hvalue times value hp]
  | group children times offset =>
    rw [Node.rewrite, Node.rewriteAll_eq_self hname hvalue children hp hattr]

/-- A map that does nothing to the literal text and the attributes of a tree does nothing to it. -/
theorem Node.rewriteAll_eq_self {m : Option Multiplier → Mapper} {p : String → Prop}
    (hname : ∀ times s, p s → (m times).name s = s)
    (hvalue : ∀ times v, (∀ s ∈ Value.literals v, p s) → (m times).value v = v) (ns : List Node)
    (hp : ∀ s ∈ Node.allLiterals ns, p s)
    (hattr : ∀ q ∈ Node.allPlaces ns, (m q.1).attr q.2 = q.2) :
    Node.rewriteAll m ns = ns := by
  cases ns with
  | nil => rfl
  | cons n ns =>
    obtain ⟨hn, hns⟩ := List.forall_mem_append.1 hp
    obtain ⟨han, hans⟩ := List.forall_mem_append.1 hattr
    rw [Node.rewriteAll, Node.rewrite_eq_self hname hvalue n hn han,
      Node.rewriteAll_eq_self hname hvalue ns hns hans]

end

namespace Numbering

theorem textBy_of_no_dollar (times : Option Multiplier) {s : String} (h : '$' ∉ s.toList) :
    textBy times s = s := by
  cases times <;> exact text_of_no_dollar _ _ _ h

theorem mapText_of_no_dollar (times : Option Multiplier) {v : Value}
    (h : ∀ s ∈ Value.literals v, '$' ∉ s.toList) : v.mapText (textBy times) = v :=
  Value.mapText_eq_self fun s hs ↦ textBy_of_no_dollar times (h s hs)

/-- Turns that do nothing to an attribute leave it as it is. -/
theorem inTurn_fixed {m : Option Multiplier → Mapper} {link : Nat} {a : Attribute}
    {places : List (Option Multiplier × Attribute)}
    (h : ∀ q ∈ places, q.2.link = some link → q.2 = a ∧ (m q.1).attr a = a)
    {last : Option Attribute} (hlast : ∀ b, last = some b → b = a) (b : Attribute)
    (hb : inTurn m link places last = some b) : b = a := by
  induction places generalizing last with
  | nil => exact hlast b hb
  | cons q qs ih =>
    obtain ⟨hq, hqs⟩ := List.forall_mem_cons.1 h
    rw [inTurn_cons] at hb
    refine ih hqs (fun c hc ↦ ?_) hb
    split at hc
    · next hql =>
      have hstate : last.getD q.2 = a := by
        cases last with
        | none => exact (hq hql).1
        | some d => exact hlast d rfl
      rw [← Option.some.inj hc, hstate]
      exact (hq hql).2
    · exact hlast c hc

/-- **Without dollar signs numbering changes nothing**, as long as attributes with one link are
equal. -/
theorem number_eq_self {nodes : List Node} (hgroup : Node.anyGroup nodes = false)
    (hc : Node.Consistent nodes) (hd : Node.NoDollar nodes) : number nodes = .ok nodes := by
  have hattr : ∀ p ∈ Node.allPlaces nodes, ∀ times, attributeBy times p.2 = p.2 := by
    intro p hp times
    have hname := hd _ (Node.mem_allLiterals_of_place nodes hp (.inl rfl))
    have hvalue := fun s hs ↦ hd s (Node.mem_allLiterals_of_place nodes hp (.inr hs))
    rw [attributeBy, textBy_of_no_dollar times hname, mapText_of_no_dollar times hvalue]
  rw [number_eq_rewriteAll hgroup]
  refine congrArg Except.ok (Node.rewriteAll_eq_self (p := fun s ↦ '$' ∉ s.toList)
    (fun times s ↦ textBy_of_no_dollar times) (fun times v ↦ mapText_of_no_dollar times) nodes hd
    ?_)
  rintro ⟨times, a⟩ hp
  cases hl : a.link with
  | none => simpa only [turnTaker, hl] using hattr _ hp times
  | some link =>
    obtain ⟨b, hb⟩ := Option.isSome_iff_exists.1 (inTurn_isSome numberer hp hl none)
    simp only [turnTaker, hl, hb, Option.getD_some]
    refine inTurn_fixed (fun q hq hql ↦ ?_) (fun _ h ↦ by cases h) b hb
    have hqa : q.2 = a := hc q hq (times, a) hp link hql hl
    exact ⟨hqa, hattr _ hp q.1⟩

end Numbering

/-! ## Literal text of trees of one shape -/

/-- What a likeness allows leaves literal text as it is. -/
structure Likeness.KeepsLiterals (R : Likeness) : Prop where
  value : ∀ v w, R.value v w → v.literals = w.literals
  attr : ∀ a b, R.attr a b → a.name = b.name ∧ a.value.literals = b.value.literals

theorem Element.Like.literals_eq {R : Likeness} (hR : R.KeepsLiterals) {e f : Element}
    (h : e.Like R f) : e.literals = f.literals := by
  have hlist : ∀ {vs ws : List Value}, List.Forall₂ R.value vs ws →
      vs.flatMap Value.literals = ws.flatMap Value.literals := by
    intro vs ws hrel
    induction hrel with
    | nil => rfl
    | cons hvw _ ih => rw [List.flatMap_cons, List.flatMap_cons, hR.value _ _ hvw, ih]
  have hoption : ∀ {o o' : Option Value}, Option.Rel R.value o o' →
      o.toList.flatMap Value.literals = o'.toList.flatMap Value.literals := by
    intro o o' hrel
    cases hrel with
    | some hvw => exact hlist (.cons hvw .nil)
    | none => rfl
  have hattributes : e.attributes.map (·.name) = f.attributes.map (·.name) ∧
      (e.attributes.map (·.value)).flatMap Value.literals
        = (f.attributes.map (·.value)).flatMap Value.literals := by
    have hrel := h.attributes
    generalize e.attributes = as at hrel
    generalize f.attributes = bs at hrel
    induction hrel with
    | nil => exact ⟨rfl, rfl⟩
    | cons hab _ ih =>
      obtain ⟨hname, hvalue⟩ := hR.attr _ _ hab
      exact ⟨by rw [List.map_cons, List.map_cons, hname, ih.1],
        by simp only [List.map_cons, List.flatMap_cons, hvalue, ih.2]⟩
  simp only [literals, values, List.flatMap_append, h.name, hattributes.1, hattributes.2,
    hoption h.id, hlist h.classes, hoption h.text]

mutual

theorem Node.Like.literals_eq {R : Likeness} (hR : R.KeepsLiterals) :
    ∀ {n m : Node}, n.Like R m → n.literals = m.literals
  | _, _, .element he _ hc => by
    rw [Node.literals, Node.literals, he.literals_eq hR, Node.AllLike.literals_eq hR hc]
  | _, _, .text _ _ hv _ => hR.value _ _ hv
  | _, _, .group _ _ _ hc => Node.AllLike.literals_eq hR hc

/-- Trees of one shape have the same literal text, if their values have. -/
theorem Node.AllLike.literals_eq {R : Likeness} (hR : R.KeepsLiterals) :
    ∀ {ns ms : List Node}, Node.AllLike R ns ms → Node.allLiterals ns = Node.allLiterals ms
  | _, _, .nil => rfl
  | _, _, .cons hn hns => by
    rw [Node.allLiterals, Node.allLiterals, Node.Like.literals_eq hR hn,
      Node.AllLike.literals_eq hR hns]

end

theorem Value.literals_mapScope (f : Nat → Nat) (v : Value) :
    (v.mapScope f).literals = v.literals := by
  rw [Value.literals, Value.literals, Value.mapScope, List.filterMap_map]
  congr 1
  funext p
  cases p <;> rfl

theorem Value.literals_moved_iterate (f : Nat → Nat) (m : Nat) (v : Value) :
    Value.literals ((Value.moved f)^[m] v) = v.literals := by
  rw [Stage.moved_iterate, Value.literals_mapScope]

theorem Likeness.keepsLiterals_relinked (r : Renaming) : (Likeness.relinked r).KeepsLiterals where
  value _ _ h := congrArg Value.literals h
  attr _ _ h := ⟨h.1, congrArg Value.literals h.2.1⟩

theorem Likeness.keepsLiterals_rescoped (nodes : List Node) (r : Renaming) :
    (Likeness.rescoped nodes r).KeepsLiterals where
  value v w h := by
    rw [h.1]
    exact (Value.literals_mapScope _ v).symm
  attr a b h := by
    rw [h.1]
    exact ⟨rfl, (Value.literals_moved_iterate _ _ a.value).symm⟩

/-- Paired values have the same literal text. -/
theorem Likeness.keepsLiterals_paired (S : Stage) (links : Option Nat → Option Nat → Prop)
    (times : Option Multiplier → Option Multiplier → Prop) :
    (Likeness.paired S links times).KeepsLiterals := by
  have hvalue : ∀ v w : Value, S.value v w → v.literals = w.literals := by
    intro v w h
    induction h with
    | nil => rfl
    | cons hp _ ih =>
      cases hp with
      | text s => exact congrArg (s :: ·) ih
      | field _ => exact ih
  exact ⟨hvalue, fun a b h ↦ ⟨h.1, hvalue _ _ h.2.1⟩⟩

/-! ## Names for nameless elements -/

section Naming

variable {R S : Likeness}

theorem Element.Like.nameIn_eq {e f : Element} (h : e.Like R f) (parent : Option String) :
    e.nameIn parent = f.nameIn parent := by
  rw [Element.nameIn, Element.nameIn, h.name]

mutual

theorem Node.named_iff : ∀ (parent : Option String) {n m : Node}, n.Like S m →
    ((n.named parent).Like R (m.named parent) ↔ n.Like R m)
  | parent, _, _, .element (e := e) (f := f) he _ hc => by
    rw [Node.named, Node.named]
    have hname := he.nameIn_eq parent
    have hchildren := Node.nameAll_iff (some (e.nameIn parent)) hc
    constructor
    · intro h
      rw [← hname] at h
      obtain ⟨he', ht', hc'⟩ := h
      exact .element ⟨he.name, he'.id, he'.classes, he'.attributes, he'.text, he.selfClosing⟩ ht'
        (hchildren.1 hc')
    · rintro (⟨he', ht', hc'⟩)
      rw [← hname]
      exact .element ⟨rfl, he'.id, he'.classes, he'.attributes, he'.text, he.selfClosing⟩ ht'
        (hchildren.2 hc')
  | _, _, _, .text _ _ _ _ => Iff.rfl
  | _, _, _, .group _ _ _ _ => Iff.rfl

/-- Naming the nameless elements of trees of one shape makes no difference to what they differ
in. -/
theorem Node.nameAll_iff : ∀ (parent : Option String) {ns ms : List Node}, Node.AllLike S ns ms →
    (Node.AllLike R (Node.nameAll parent ns) (Node.nameAll parent ms) ↔ Node.AllLike R ns ms)
  | _, _, _, .nil => iff_of_true .nil .nil
  | parent, _, _, .cons hn hns => by
    rw [Node.nameAll, Node.nameAll]
    constructor
    · rintro (_ | ⟨hn', hns'⟩)
      exact .cons ((Node.named_iff parent hn).1 hn') ((Node.nameAll_iff parent hns).1 hns')
    · rintro (_ | ⟨hn', hns'⟩)
      exact .cons ((Node.named_iff parent hn).2 hn') ((Node.nameAll_iff parent hns).2 hns')

end

mutual

theorem Node.hasGroup_eq : ∀ {n m : Node}, n.Like R m → n.hasGroup = m.hasGroup
  | _, _, .element _ _ hc => Node.anyGroup_eq hc
  | _, _, .text _ _ _ _ => rfl
  | _, _, .group _ _ _ _ => rfl

/-- Trees of one shape have groups in the same places. -/
theorem Node.anyGroup_eq : ∀ {ns ms : List Node}, Node.AllLike R ns ms →
    Node.anyGroup ns = Node.anyGroup ms
  | _, _, .nil => rfl
  | _, _, .cons hn hns => by
    rw [Node.anyGroup, Node.anyGroup, Node.hasGroup_eq hn, Node.anyGroup_eq hns]

end

mutual

theorem Node.hasGroup_named (parent : Option String) (n : Node) :
    (n.named parent).hasGroup = n.hasGroup := by
  cases n with
  | element e times children => exact Node.anyGroup_nameAll _ children
  | text value times offset => rfl
  | group children times offset => rfl

theorem Node.anyGroup_nameAll (parent : Option String) (ns : List Node) :
    Node.anyGroup (Node.nameAll parent ns) = Node.anyGroup ns := by
  cases ns with
  | nil => rfl
  | cons n ns =>
    rw [Node.nameAll, Node.anyGroup, Node.anyGroup, Node.hasGroup_named parent n,
      Node.anyGroup_nameAll parent ns]

end

mutual

theorem Node.places_named (parent : Option String) (n : Node) :
    (n.named parent).places = n.places := by
  cases n with
  | element e times children =>
    rw [Node.named, Node.places, Node.places, Node.allPlaces_nameAll _ children]
  | text value times offset => rfl
  | group children times offset => rfl

/-- Naming elements does not touch their attributes. -/
theorem Node.allPlaces_nameAll (parent : Option String) (ns : List Node) :
    Node.allPlaces (Node.nameAll parent ns) = Node.allPlaces ns := by
  cases ns with
  | nil => rfl
  | cons n ns =>
    rw [Node.nameAll, Node.allPlaces, Node.allPlaces, Node.places_named parent n,
      Node.allPlaces_nameAll parent ns]

end

theorem implicitTag_no_dollar (parent : Option String) : '$' ∉ (implicitTag parent).toList := by
  have htags : ∀ p ∈ childTags, '$' ∉ p.2.toList := by decide
  cases parent with
  | none => simp [implicitTag]
  | some parent =>
    rw [implicitTag]
    split
    · next tag htag =>
      obtain ⟨before, after, hmem, -⟩ := List.lookup_eq_some_iff.1 htag
      exact htags (_, tag) (hmem ▸ List.mem_append_right before List.mem_cons_self)
    · split <;> decide

mutual

theorem Node.no_dollar_named (parent : Option String) (n : Node)
    (h : ∀ s ∈ n.literals, '$' ∉ s.toList) : ∀ s ∈ (n.named parent).literals, '$' ∉ s.toList := by
  cases n with
  | element e times children =>
    obtain ⟨he, hc⟩ := List.forall_mem_append.1 h
    rw [Node.named, Node.literals, List.forall_mem_append]
    refine ⟨?_, Node.no_dollar_nameAll _ children hc⟩
    simp only [Element.literals, List.append_assoc, List.forall_mem_append] at he ⊢
    refine ⟨fun s hs ↦ ?_, he.2⟩
    obtain rfl : s = e.nameIn parent := by simpa using hs
    rw [Element.nameIn]
    split
    · exact implicitTag_no_dollar parent
    · next name hname =>
      split
      · exact implicitTag_no_dollar parent
      · exact he.1 name (by simp [hname])
  | text value times offset => exact h
  | group children times offset => exact h

theorem Node.no_dollar_nameAll (parent : Option String) (ns : List Node) (h : Node.NoDollar ns) :
    Node.NoDollar (Node.nameAll parent ns) := by
  cases ns with
  | nil => exact h
  | cons n ns =>
    obtain ⟨hn, hns⟩ := List.forall_mem_append.1 h
    exact List.forall_mem_append.2
      ⟨Node.no_dollar_named parent n hn, Node.no_dollar_nameAll parent ns hns⟩

end

end Naming

end Markup

end Shorthand
