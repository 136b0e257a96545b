import Shorthand.Expansion
import Shorthand.Proofs.Content
import Shorthand.Proofs.Expanding
import Shorthand.Proofs.Regular
import Shorthand.Proofs.Renaming
import Shorthand.Proofs.Unrolling

/-!
# Placeholders of a tree

No step of an expansion makes a placeholder or changes one: fields are moved from scope to scope,
merged and copied, but what is written in them stays as it was read.  So whatever is true of the
placeholders of all texts is true of those of every tree that an abbreviation stands for, and of all
tab stops of its output that have one.

* `Value.Filled` : what the placeholders of a value have in common.
* `Node.AllFilled.visitAll` : a visit that keeps it for values and attributes keeps it for trees.
* `Expansion.filled_of_markupTree` : the placeholders of a tree are those of texts.
* `Expansion.placeholder_of_segments` : the same for the tab stops of the output.
-/

set_option autoImplicit false

namespace Shorthand

/-! ## Values -/

namespace Value

variable {F : String → Prop}

/-- The placeholders of a value have a property. -/
def Filled (F : String → Prop) (v : Value) : Prop := ∀ f ∈ v.fields, F f.placeholder

theorem filled_nil : Filled F [] := by simp [Filled, fields]

theorem Filled.mapText {v : Value} (h : v.Filled F) (g : String → String) :
    (v.mapText g).Filled F := by
  rwa [Filled, fields_mapText]

theorem Filled.mapScope {v : Value} (h : v.Filled F) (g : Nat → Nat) :
    (v.mapScope g).Filled F := by
  intro f hf
  obtain ⟨p, hp, hpf⟩ := List.mem_map.1 (mem_fields.1 hf)
  cases p with
  | text s => cases hpf
  | field k =>
    obtain rfl := Part.field.inj hpf
    exact h k (mem_fields.2 hp)

theorem Filled.moveValue {v : Value} (h : v.Filled F) (r : Markup.Renaming) :
    (r.moveValue v).1.Filled F := by
  rw [Markup.Renaming.moveValue]
  induction v generalizing r with
  | nil => exact filled_nil
  | cons p v ih =>
    rw [Markup.walk_cons]
    cases p with
    | text s => exact ih (fun f hf ↦ h f hf) r
    | field k =>
      have hv : Filled F v := fun f hf ↦
        h f (mem_fields.2 (List.mem_cons_of_mem _ (mem_fields.1 hf)))
      have hk : F k.placeholder := h k (mem_fields.2 List.mem_cons_self)
      dsimp only
      split
      · intro f hf
        rcases List.mem_cons.1 (mem_fields.1 hf) with hf | hf
        · rw [Part.field.inj hf]
          exact hk
        · exact ih hv r f (mem_fields.2 hf)
      · intro f hf
        rcases List.mem_cons.1 (mem_fields.1 hf) with hf | hf
        · rw [Part.field.inj hf]
          exact hk
        · exact ih hv _ f (mem_fields.2 hf)

end Value

namespace Markup

/-! ## Trees -/

variable {F : String → Prop}

/-- The values of an element have placeholders with a property. -/
def Element.Filled (F : String → Prop) (e : Element) : Prop := ∀ v ∈ e.values, v.Filled F

/-- The values of a node have placeholders with a property. -/
def Node.Filled (F : String → Prop) (n : Node) : Prop := ∀ v ∈ n.values, v.Filled F

/-- The values of a tree have placeholders with a property. -/
def Node.AllFilled (F : String → Prop) (ns : List Node) : Prop :=
  ∀ v ∈ Node.allValues ns, v.Filled F

/-- The states of rewritten attributes have placeholders with a property. -/
def Shown.Filled (F : String → Prop) (shown : Shown) : Prop := ∀ p ∈ shown, p.2.value.Filled F

/-- What is known of an element, part by part. -/
structure Element.Parts (F : String → Prop) (e : Element) : Prop where
  id : ∀ v ∈ e.id.toList, v.Filled F
  classes : ∀ v ∈ e.classes, v.Filled F
  attributes : ∀ a ∈ e.attributes, a.value.Filled F
  text : ∀ v ∈ e.text.toList, v.Filled F

theorem Element.filled_iff_parts {e : Element} : e.Filled F ↔ e.Parts F := by
  simp only [Filled, values, List.forall_mem_append, List.forall_mem_map]
  exact ⟨fun h ↦ ⟨h.1.1.1, h.1.1.2, h.1.2, h.2⟩,
    fun h ↦ ⟨⟨⟨h.id, h.classes⟩, h.attributes⟩, h.text⟩⟩

namespace Node

@[simp] theorem filled_element {e : Element} {times : Option Multiplier} {children : List Node} :
    (element e times children).Filled F ↔ e.Filled F ∧ AllFilled F children :=
  List.forall_mem_append

@[simp] theorem filled_text {v : Value} {times : Option Multiplier} {offset : Nat} :
    (text v times offset).Filled F ↔ v.Filled F :=
  List.forall_mem_singleton

@[simp] theorem filled_group {children : List Node} {times : Option Multiplier} {offset : Nat} :
    (group children times offset).Filled F ↔ AllFilled F children :=
  Iff.rfl

theorem allFilled_nil : AllFilled F [] := by simp [AllFilled, allValues]

@[simp] theorem allFilled_cons {n : Node} {ns : List Node} :
    AllFilled F (n :: ns) ↔ n.Filled F ∧ AllFilled F ns :=
  List.forall_mem_append

theorem allFilled_singleton {n : Node} : AllFilled F [n] ↔ n.Filled F := by
  simp [allFilled_nil]

theorem allFilled_iff {ns : List Node} : AllFilled F ns ↔ ∀ n ∈ ns, n.Filled F := by
  induction ns with
  | nil => simp [allFilled_nil]
  | cons n ns ih => simp [ih]

theorem allFilled_append {ns ms : List Node} :
    AllFilled F (ns ++ ms) ↔ AllFilled F ns ∧ AllFilled F ms := by
  simp only [allFilled_iff, List.forall_mem_append]

mutual

theorem filled_of_regular : ∀ {n : Node},
    n.Regular (Value.Filled F) (Attribute.TypedWith (Value.Filled F)) → n.Filled F
  | _, .element he _ hc => by
    have hvalues := he.values
    simp only [Element.ownValues, List.forall_mem_append] at hvalues
    exact filled_element.2 ⟨Element.filled_iff_parts.2 ⟨hvalues.1.1, hvalues.1.2,
      fun a ha ↦ (he.attributes a ha).2, hvalues.2⟩, allFilled_of_regular hc⟩
  | _, .text _ hv _ => filled_text.2 hv
  | _, .group _ _ hc => filled_group.2 (allFilled_of_regular hc)

theorem allFilled_of_regular : ∀ {ns : List Node},
    AllRegular (Value.Filled F) (Attribute.TypedWith (Value.Filled F)) ns → AllFilled F ns
  | _, .nil => allFilled_nil
  | _, .cons hn hns => allFilled_cons.2 ⟨filled_of_regular hn, allFilled_of_regular hns⟩

end

end Node

/-! ## Visits -/

section Visit

variable {σ : Type} {I : σ → Prop}

/-- A rewriting step keeps what is known of its state, and makes of items that are as they should be
such items. -/
def Steps {α β : Type} (I : σ → Prop) (P : α → Prop) (Q : β → Prop) (f : α → σ → β × σ) : Prop :=
  ∀ a s, I s → P a → Q (f a s).1 ∧ I (f a s).2

theorem Steps.walk {α β : Type} {P : α → Prop} {Q : β → Prop} {f : α → σ → β × σ}
    (h : Steps I P Q f) {as : List α} {s : σ} (hs : I s) (has : ∀ a ∈ as, P a) :
    (∀ b ∈ (walk f as s).1, Q b) ∧ I (walk f as s).2 := by
  induction as generalizing s with
  | nil => exact ⟨by simp, hs⟩
  | cons a as ih =>
    obtain ⟨ha, has⟩ := List.forall_mem_cons.1 has
    obtain ⟨hb, hs⟩ := h a s hs ha
    obtain ⟨hbs, hs⟩ := ih hs has
    exact ⟨List.forall_mem_cons.2 ⟨hb, hbs⟩, hs⟩

theorem Steps.walkOption {α β : Type} {P : α → Prop} {Q : β → Prop} {f : α → σ → β × σ}
    (h : Steps I P Q f) {a? : Option α} {s : σ} (hs : I s) (ha : ∀ a ∈ a?.toList, P a) :
    (∀ b ∈ (walkOption f a? s).1.toList, Q b) ∧ I (walkOption f a? s).2 := by
  cases a? with
  | none => exact ⟨by simp [Markup.walkOption], hs⟩
  | some a =>
    obtain ⟨hb, hs⟩ := h a s hs (ha a (by simp))
    exact ⟨by simpa [Markup.walkOption] using hb, hs⟩

/-- A visitor that keeps what is known of placeholders, and of its state. -/
structure Visitor.Keeps (F : String → Prop) (I : σ → Prop) (v : Visitor σ) : Prop where
  value : Steps I (Value.Filled F) (Value.Filled F) v.value
  attr : Steps I (fun a ↦ a.value.Filled F) (fun a ↦ a.value.Filled F) v.attr

theorem Element.Filled.visit {v : Visitor σ} (hv : v.Keeps F I) {e : Element} {s : σ} (hs : I s)
    (he : e.Filled F) : (e.visit v s).1.Filled F ∧ I (e.visit v s).2 := by
  have hparts := filled_iff_parts.1 he
  obtain ⟨hid, hs⟩ := hv.value.walkOption hs hparts.id
  obtain ⟨hclasses, hs⟩ := hv.value.walk hs hparts.classes
  obtain ⟨hattributes, hs⟩ := hv.attr.walk hs hparts.attributes
  obtain ⟨htext, hs⟩ := hv.value.walkOption hs hparts.text
  exact ⟨filled_iff_parts.2 ⟨hid, hclasses, hattributes, htext⟩, hs⟩

variable {v : Option Multiplier → Visitor σ}

mutual

theorem Node.Filled.visit (hv : ∀ times, (v times).Keeps F I) : ∀ {n : Node} {s : σ}, I s →
    n.Filled F → (n.visit v s).1.Filled F ∧ I (n.visit v s).2
  | .element _ times _, _, hs, hn => by
    obtain ⟨he, hc⟩ := Node.filled_element.1 hn
    obtain ⟨he, hs⟩ := he.visit (hv times) hs
    obtain ⟨hc, hs⟩ := Node.AllFilled.visitAll hv hs hc
    exact ⟨Node.filled_element.2 ⟨he, hc⟩, hs⟩
  | .text w times _, _, hs, hn => by
    obtain ⟨hw, hs⟩ := (hv times).value w _ hs (Node.filled_text.1 hn)
    exact ⟨Node.filled_text.2 hw, hs⟩
  | .group _ _ _, _, hs, hn => by
    obtain ⟨hc, hs⟩ := Node.AllFilled.visitAll hv hs (Node.filled_group.1 hn)
    exact ⟨Node.filled_group.2 hc, hs⟩

/-- A visit that keeps what is known of values and attributes keeps it for trees. -/
theorem Node.AllFilled.visitAll (hv : ∀ times, (v times).Keeps F I) : ∀ {ns : List Node} {s : σ},
    I s → Node.AllFilled F ns →
      Node.AllFilled F (Node.visitAll v ns s).1 ∧ I (Node.visitAll v ns s).2
  | [], _, hs, hns => ⟨hns, hs⟩
  | _ :: _, _, hs, hns => by
    obtain ⟨hn, hns⟩ := Node.allFilled_cons.1 hns
    obtain ⟨hn, hs⟩ := Node.Filled.visit hv hs hn
    obtain ⟨hns, hs⟩ := Node.AllFilled.visitAll hv hs hns
    exact ⟨Node.allFilled_cons.2 ⟨hn, hns⟩, hs⟩

end

end Visit

namespace Shown

theorem filled_nil : Shown.Filled F [] := by simp [Filled]

theorem Filled.current {shown : Shown} (h : shown.Filled F) {a : Attribute}
    (ha : a.value.Filled F) : (a.current shown).value.Filled F := by
  rw [Attribute.current.eq_def]
  split
  · exact ha
  · next link _ =>
    cases hl : shown.lookup link with
    | none => exact ha
    | some b =>
      obtain ⟨before, _, heq, -⟩ := List.lookup_eq_some_iff.1 hl
      exact h (link, b) (by simp [heq])

theorem Filled.note {shown : Shown} (h : shown.Filled F) {a : Attribute} (ha : a.value.Filled F) :
    Shown.Filled F (a.note shown) := by
  rw [Attribute.note.eq_def]
  split
  · exact h
  · exact List.forall_mem_cons.2 ⟨ha, h⟩

end Shown

namespace Node

theorem AllFilled.settle {shown : Shown} (hshown : shown.Filled F) {ns : List Node}
    (h : AllFilled F ns) : AllFilled F (settle shown ns) := by
  rw [Node.settle]
  split
  · exact h
  · exact (h.visitAll (I := fun _ ↦ True) (fun _ ↦ ⟨fun _ _ hs hw ↦ ⟨hw, hs⟩,
      fun _ _ hs ha ↦ ⟨hshown.current ha, hs⟩⟩) trivial).1

theorem rescoper_keeps : rescoper.Keeps F (fun s ↦ s.2.Filled F) where
  value _ s hs hw := ⟨hw.moveValue s.1, hs⟩
  attr _ s hs ha := by
    have hmoved := (hs.current ha).moveValue s.1
    exact ⟨hmoved, hs.note hmoved⟩

theorem AllFilled.rescope {ns : List Node} (h : AllFilled F ns) (next : Nat) :
    AllFilled F (rescope ns next).1 := by
  rw [rescope_eq]
  obtain ⟨hns, hshown⟩ :=
    h.visitAll (fun _ ↦ rescoper_keeps) (s := (⟨next, []⟩, [])) Shown.filled_nil
  exact hns.settle hshown

theorem AllFilled.relink {ns : List Node} (h : AllFilled F ns) (next : Nat) :
    AllFilled F (relink ns next).1 := by
  rw [Node.relink]
  refine (h.visitAll (I := fun _ ↦ True) (fun _ ↦ ⟨fun _ _ hs hw ↦ ⟨hw, hs⟩,
    fun a _ hs ha ↦ ⟨?_, hs⟩⟩) trivial).1
  dsimp only
  split <;> exact ha

theorem Filled.copy {n : Node} (h : n.Filled F) (index : Nat) (supply : Supply) :
    AllFilled F (n.copy index supply).1 := by
  have hlinked := (allFilled_singleton.2 h).relink supply.link
  rw [Node.copy]
  dsimp only
  split
  · exact hlinked
  · exact hlinked.rescope supply.scope

end Node

/-! ## Snippets -/

namespace Element

theorem Parts.addClass {e : Element} (h : e.Parts F) {v : Value} (hv : v.Filled F) :
    (e.addClass v).Parts F := by
  rw [Element.addClass]
  split
  · exact h
  · exact ⟨h.id, List.forall_mem_append.2 ⟨h.classes, List.forall_mem_singleton.2 hv⟩,
      h.attributes, h.text⟩

theorem Parts.putAttribute {e : Element} (h : e.Parts F) {a : Attribute} (ha : a.value.Filled F) :
    (e.putAttribute a).Parts F := by
  refine ⟨h.id, h.classes, ?_, h.text⟩
  have hinto : ∀ bs : List Attribute, (∀ b ∈ bs, b.value.Filled F) →
      ∀ b ∈ a.putInto bs, b.value.Filled F := by
    intro bs
    induction bs with
    | nil => simpa [Attribute.putInto] using ha
    | cons b bs ih =>
      intro hbs
      obtain ⟨hb, hbs⟩ := List.forall_mem_cons.1 hbs
      rw [Attribute.putInto]
      split
      · exact List.forall_mem_cons.2 ⟨ha, hbs⟩
      · exact List.forall_mem_cons.2 ⟨hb, ih hbs⟩
  exact hinto e.attributes h.attributes

theorem Filled.mergeTyped {e typed : Element} (he : e.Filled F) (htyped : typed.Filled F) :
    (e.mergeTyped typed).Filled F := by
  have hparts := filled_iff_parts.1 htyped
  have hclasses : (typed.classes.foldl Element.addClass e).Parts F :=
    List.foldlRecOn _ _ (filled_iff_parts.1 he) fun _ h v hv ↦ h.addClass (hparts.classes v hv)
  have hput : (typed.attributes.foldl Element.putAttribute
      (typed.classes.foldl Element.addClass e)).Parts F :=
    List.foldlRecOn _ _ hclasses fun _ h a ha ↦ h.putAttribute (hparts.attributes a ha)
  have hor : ∀ {o o' : Option Value}, (∀ v ∈ o.toList, v.Filled F) →
      (∀ v ∈ o'.toList, v.Filled F) → ∀ v ∈ (o.or o').toList, v.Filled F := by
    intro o o' ho ho'
    cases o with
    | none => exact ho'
    | some v => exact ho
  exact filled_iff_parts.2 ⟨hor hparts.id hput.id, hput.classes, hput.attributes,
    hor hparts.text hput.text⟩

theorem Filled.current {shown : Shown} (hshown : shown.Filled F) {e : Element} (h : e.Filled F) :
    (e.current shown).Filled F := by
  have hparts := filled_iff_parts.1 h
  exact filled_iff_parts.2 ⟨hparts.id, hparts.classes,
    List.forall_mem_map.2 fun a ha ↦ hshown.current (hparts.attributes a ha), hparts.text⟩

theorem Filled.shared {e : Element} (h : e.Filled F) (tops : List Node) (supply : Supply) :
    (e.shared tops supply).1.Filled F := by
  rw [Element.shared]
  split
  · exact h
  · have hparts := filled_iff_parts.1 h
    have hstep : Steps (fun _ ↦ True) (fun a : Attribute ↦ a.value.Filled F)
        (fun a ↦ a.value.Filled F) fun a (supply : Supply) ↦
          if a.link.isSome then (a, supply)
          else ({ a with link := some supply.link }, { supply with link := supply.link + 1 }) := by
      intro a _ _ ha
      dsimp only
      split <;> exact ⟨ha, trivial⟩
    exact filled_iff_parts.2 ⟨hparts.id, hparts.classes,
      (hstep.walk trivial hparts.attributes).1, hparts.text⟩

end Element

namespace Node

theorem Filled.attributes {n : Node} (h : n.Filled F) : ∀ a ∈ n.attributes, a.value.Filled F := by
  cases n with
  | element e times children =>
    exact (Element.filled_iff_parts.1 (filled_element.1 h).1).attributes
  | text | group => simp [Node.attributes]

theorem Filled.mergeTyped {typed : Element} (htyped : typed.Filled F) (times : Option Multiplier)
    {n : Node} (h : n.Filled F) : (n.mergeTyped typed times).Filled F := by
  cases n with
  | element e t children =>
    obtain ⟨he, hc⟩ := filled_element.1 h
    exact filled_element.2 ⟨he.mergeTyped htyped, hc⟩
  | text v t offset => exact filled_text.2 (filled_text.1 h)
  | group children t offset => exact filled_group.2 (filled_group.1 h)

theorem AllFilled.mergeAll {typed : Element} (htyped : typed.Filled F) (times : Option Multiplier)
    {tops : List Node} {progress : Progress} (hshown : progress.shown.Filled F)
    (htops : AllFilled F tops) : AllFilled F (mergeAll typed times tops progress).1 ∧
      (mergeAll typed times tops progress).2.shown.Filled F := by
  have hshared := (htyped.current hshown).shared tops progress.toSupply
  rw [Node.mergeAll]
  generalize (typed.current progress.shown).shared tops progress.toSupply = shared at hshared
  obtain ⟨typed', supply⟩ := shared
  have hmerged : ∀ n ∈ tops.map (Node.mergeTyped typed' times), n.Filled F :=
    List.forall_mem_map.2 fun n hn ↦ (allFilled_iff.1 htops n hn).mergeTyped hshared times
  refine ⟨allFilled_iff.2 hmerged, ?_⟩
  refine List.foldlRecOn _ _ hshown fun _ h a ha ↦ h.note ?_
  obtain ⟨n, hn, ha⟩ := List.mem_flatMap.1 (List.mem_of_mem_filter ha)
  exact (hmerged n hn).attributes a ha

theorem AllFilled.nodewise : Nodewise (AllFilled F) where
  append := allFilled_append
  children {n} h := by
    have h := allFilled_singleton.1 h
    cases n with
    | element => exact (filled_element.1 h).2
    | group => exact filled_group.1 h
    | text => exact allFilled_nil
  withChildren {n ns} hn hns := by
    rw [allFilled_singleton] at hn ⊢
    cases n with
    | element => exact filled_element.2 ⟨(filled_element.1 hn).1, hns⟩
    | group => exact filled_group.2 hns
    | text => exact hn

end Node

namespace Snippet

/-- A tree and what was rewritten on the way to it, with placeholders with a property. -/
structure Gains (F : String → Prop) (r : List Node × Progress) : Prop where
  nodes : Node.AllFilled F r.1
  shown : r.2.shown.Filled F

section Expanding

variable {snippet : Expander} {table : Table String}

theorem expandNodes_gains
    (hsnippet : ∀ key text p r, p.shown.Filled F → snippet key text p = .ok r → Gains F r)
    {ns : List Node} {p : Progress} {r : List Node × Progress} (hns : Node.AllFilled F ns)
    (hp : p.shown.Filled F) (h : expandNodes snippet table ns p = .ok r) : Gains F r := by
  have hlasting : Lasting (Node.AllFilled F) fun p ↦ p.shown.Filled F :=
    ⟨Node.AllFilled.nodewise, fun he htops hp ↦
      Node.AllFilled.mergeAll (Node.filled_element.1 (Node.allFilled_singleton.1 he)).1 _ hp htops⟩
  obtain ⟨hnodes, hshown⟩ :=
    hlasting.expandNodes (fun _ _ key text p r _ hp hr ↦
      ⟨(hsnippet key text p r hp hr).nodes, (hsnippet key text p r hp hr).shown⟩) hns hp h
  exact ⟨hnodes, hshown⟩

end Expanding

/-- The placeholders of an abbreviation are those of a text. -/
theorem filled_of_parse (h : ∀ s, (Value.parse s).Filled F) {s : String} {nodes : List Node}
    (hnodes : Tree.parse s = .ok nodes) : Node.AllFilled F nodes :=
  Node.allFilled_of_regular
    (Tree.typedWith_of_parse (Value.ofReading_fields (F := fun f ↦ F f.placeholder) h) hnodes)

/-- **Expansion makes no placeholders**: those of an expanded tree are those of texts. -/
theorem expandTo_gains (h : ∀ s, (Value.parse s).Filled F) {depth : Nat} {table : Table String}
    {nodes : List Node} {p : Progress} {r : List Node × Progress} (hnodes : Node.AllFilled F nodes)
    (hp : p.shown.Filled F) (hr : expandTo depth table nodes p = .ok r) : Gains F r := by
  induction depth generalizing table nodes p r with
  | zero =>
    cases hr
    exact ⟨hnodes, hp⟩
  | succ depth ih =>
    refine expandNodes_gains (fun key text p r hp hr ↦ ?_) hnodes hp hr
    obtain ⟨parsed, hparsed, hr⟩ := bind_eq_ok_iff.1 hr
    refine ih (p := { p with scope := p.scope + 1 }) ?_ hp hr
    refine ((filled_of_parse h hparsed).visitAll (I := fun _ ↦ True) (fun _ ↦ ?_) trivial).1
    exact ⟨fun w _ hs hw ↦ ⟨hw.mapScope fun _ ↦ _, hs⟩,
      fun a _ hs ha ↦ ⟨Value.Filled.mapScope ha fun _ ↦ _, hs⟩⟩

end Snippet

/-! ## Copies -/

namespace Copies

/-- Whatever a pass gives out has placeholders with a property. -/
def Filling (F : String → Prop) (f : Supply → Except Fault (List Node × Supply)) : Prop :=
  ∀ s out s', f s = .ok (out, s') → Node.AllFilled F out

theorem gather_filling {α : Type} {f : α → Supply → Except Fault (List Node × Supply)}
    {as : List α} (h : ∀ a ∈ as, Filling F (f a)) : Filling F (gather f as) := by
  intro s out s' hf
  induction as generalizing s out with
  | nil =>
    cases hf
    exact Node.allFilled_nil
  | cons a as ih =>
    obtain ⟨first, s₁, rest, h₁, h₂, rfl⟩ := gather_cons_eq_ok_iff.1 hf
    exact Node.allFilled_append.2 ⟨h a List.mem_cons_self s first s₁ h₁,
      ih (fun b hb ↦ h b (List.mem_cons_of_mem a hb)) s₁ rest h₂⟩

theorem dissolve_filling {inside : List Node → Supply → Except Fault (List Node × Supply)}
    (h : ∀ nodes, Node.AllFilled F nodes → Filling F (inside nodes)) (times : Option Multiplier)
    {n : Node} (hn : n.Filled F) : Filling F (dissolve inside times n) := by
  intro s out s' hf
  cases n with
  | text v t offset =>
    cases hf
    exact Node.allFilled_singleton.2 (Node.filled_text.2 (Node.filled_text.1 hn))
  | group children t offset => exact h children (Node.filled_group.1 hn) s out s' hf
  | element e t children =>
    obtain ⟨he, hc⟩ := Node.filled_element.1 hn
    obtain ⟨⟨below, s₁⟩, h₁, hf⟩ := bind_eq_ok_iff.1 hf
    cases hf
    exact Node.allFilled_singleton.2 (Node.filled_element.2 ⟨he, h children hc s below _ h₁⟩)

theorem unrollCopy_filling
    {below : Option Multiplier → List Node → Supply → Except Fault (List Node × Supply)}
    (h : ∀ times nodes, Node.AllFilled F nodes → Filling F (below times nodes))
    (inherited : Option Multiplier) {n : Node} (hn : n.Filled F) (index : Nat) :
    Filling F (unrollCopy below inherited n index) := by
  intro s out s' hf
  have hcopies : Node.AllFilled F
      (if 1 < countOf n.times then n.copy index s else ([n], s) : List Node × Supply).1 := by
    split
    · exact hn.copy index s
    · exact Node.allFilled_singleton.2 hn
  exact gather_filling (fun m hm ↦ dissolve_filling (h _) _ (Node.allFilled_iff.1 hcopies m hm))
    _ out s' hf

/-- **Copying makes no placeholders.** -/
theorem unrollTo_filling (limit height : Nat) (inherited : Option Multiplier) (total : Nat)
    {nodes : List Node} (h : Node.AllFilled F nodes) :
    Filling F (unrollTo limit height inherited total nodes) := by
  induction height generalizing inherited total nodes with
  | zero =>
    intro s out s' hf
    cases hf
    exact Node.allFilled_nil
  | succ height ih =>
    refine gather_filling fun n hn s out s' hf ↦ ?_
    have hn := Node.allFilled_iff.1 h n hn
    change unrollNode limit (unrollTo limit height) inherited total n s = .ok (out, s') at hf
    rw [unrollNode] at hf
    split at hf
    · cases hf
    · exact gather_filling (fun index _ ↦ unrollCopy_filling (fun times _ ↦ ih times _) inherited
        hn index) s out s' hf

end Copies

/-! ## Names and numbers -/

namespace Node

mutual

theorem values_named (parent : Option String) : ∀ n : Node, (n.named parent).values = n.values
  | .element e times children => by
    rw [named, values, allValues_nameAll, values]
    rfl
  | .text _ _ _ => rfl
  | .group _ _ _ => rfl

theorem allValues_nameAll (parent : Option String) : ∀ ns : List Node,
    allValues (nameAll parent ns) = allValues ns
  | [] => rfl
  | n :: ns => by rw [nameAll, allValues, values_named, allValues_nameAll, allValues]

end

end Node

theorem Numbering.filled_of_number {nodes out : List Node} (h : Node.AllFilled F nodes)
    (hout : number nodes = .ok out) : Node.AllFilled F out := by
  rw [number] at hout
  split at hout
  · cases hout
  · cases hout
    obtain ⟨hvisited, hshown⟩ := h.visitAll (σ := Shown) (I := Shown.Filled F) (v := visitor)
      (fun times ↦ ⟨fun _ _ hs hw ↦ ⟨hw.mapText _, hs⟩, fun _ _ hs ha ↦ by
        have hnumbered := (hs.current ha).mapText (textBy times)
        exact ⟨hnumbered, hs.note hnumbered⟩⟩) Shown.filled_nil
    exact hvisited.settle hshown

end Markup

/-! ## Output -/

/-- The fields among marks have placeholders with a property. -/
def Mark.Filled (F : String → Prop) (ms : List Mark) : Prop := ∀ f, .field f ∈ ms → F f.placeholder

namespace Mark

variable {F : String → Prop}

theorem filled_append {ms ns : List Mark} (hms : Filled F ms) (hns : Filled F ns) :
    Filled F (ms ++ ns) :=
  fun f hf ↦ (List.mem_append.1 hf).elim (hms f) (hns f)

theorem filled_flatMap {α : Type} {g : α → List Mark} {as : List α}
    (h : ∀ a ∈ as, Filled F (g a)) : Filled F (as.flatMap g) := by
  intro f hf
  obtain ⟨a, ha, hf⟩ := List.mem_flatMap.1 hf
  exact h a ha f hf

theorem filled_cons_text {literal : String} {ms : List Mark} (h : Filled F ms) :
    Filled F (.text literal :: ms) :=
  fun f hf ↦ h f (by simpa using hf)

theorem filled_nil : Filled F [] := by simp [Filled]

/-- A numbered tab stop is empty or was a field. -/
theorem filled_of_mem_segments (hempty : F "") {number : Nat} {placeholder : String}
    {ms : List Mark} (h : Filled F ms) {stops : TabStops}
    (hmem : .stop number placeholder ∈ (segments ms stops).1) : F placeholder := by
  induction ms generalizing stops with
  | nil => simp at hmem
  | cons m ms ih =>
    rcases List.mem_cons.1 hmem with hm | hms
    · cases m with
      | raw output | text literal => cases hm
      | blank =>
        cases hm
        exact hempty
      | field f =>
        cases hm
        exact h f List.mem_cons_self
    · exact ih (fun f hf ↦ h f (List.mem_cons_of_mem m hf)) hms

end Mark

namespace Markup.Html

variable {F : String → Prop}

theorem filled_valueMarks {v : Value} (h : v.Filled F) : Mark.Filled F (valueMarks v) := by
  intro f hf
  obtain ⟨p, hp, hpf⟩ := List.mem_map.1 hf
  cases p with
  | text s => cases hpf
  | field g =>
    cases hpf
    exact h f (Value.mem_fields.2 hp)

theorem filled_attributeContent {v : Value} (h : v.Filled F) :
    Mark.Filled F (attributeContent v) := by
  rw [attributeContent]
  split
  · simp [Mark.Filled]
  · exact filled_valueMarks h

theorem filled_spaced {classes : List Value} (h : ∀ v ∈ classes, v.Filled F) :
    Value.Filled F (spaced classes) := by
  rw [← joinClasses_eq, joinClasses]
  refine List.foldlRecOn _ _ Value.filled_nil fun joined hjoined v hv ↦ ?_
  split
  · exact h v hv
  · intro f hf
    rcases List.mem_append.1 (Value.mem_fields.1 hf) with hf | hf
    · exact hjoined f (Value.mem_fields.2 hf)
    · exact h v hv f (Value.mem_fields.2 (by simpa using hf))

theorem filled_openingContent {e : Element} (h : e.Filled F) :
    Mark.Filled F (openingContent e) := by
  have hparts := Element.filled_iff_parts.1 h
  refine Mark.filled_cons_text (Mark.filled_append (Mark.filled_flatMap fun v hv ↦ ?_)
    (Mark.filled_append ?_ (Mark.filled_flatMap fun a ha ↦ ?_)))
  · exact filled_attributeContent (hparts.id v hv)
  · split
    · exact Mark.filled_nil
    · exact filled_attributeContent (filled_spaced hparts.classes)
  · exact Mark.filled_cons_text (filled_attributeContent (hparts.attributes a ha))

theorem filled_insideContent (style : Style) {e : Element} (h : e.Filled F)
    (children : List Node) {below : List Mark} (hbelow : Mark.Filled F below) :
    Mark.Filled F (insideContent style e children below) := by
  rw [insideContent]
  split
  · split <;> simp [Mark.Filled]
  · have htext : Value.Filled F ((textOf e).getD []) := by
      cases ht : textOf e with
      | none => exact Value.filled_nil
      | some v =>
        exact (Element.filled_iff_parts.1 h).text v
          (Option.mem_toList.2 (Option.filter_eq_some_iff.1 ht).1)
    exact Mark.filled_append (Mark.filled_append (filled_valueMarks htext) hbelow)
      (by simp [Mark.Filled])

mutual

theorem filled_nodeContent (style : Style) : ∀ {n : Node}, n.Filled F →
    Mark.Filled F (nodeContent style n)
  | .text _ _ _, h => filled_valueMarks (Node.filled_text.1 h)
  | .group _ _ _, _ => Mark.filled_nil
  | .element _ _ children, h => by
    obtain ⟨he, hc⟩ := Node.filled_element.1 h
    exact Mark.filled_append (filled_openingContent he)
      (filled_insideContent style he children (filled_content style hc))

theorem filled_content (style : Style) : ∀ {ns : List Node}, Node.AllFilled F ns →
    Mark.Filled F (content style ns)
  | [], _ => Mark.filled_nil
  | _ :: _, h => by
    obtain ⟨hn, hns⟩ := Node.allFilled_cons.1 h
    exact Mark.filled_append (filled_nodeContent style hn) (filled_content style hns)

end

theorem filled_marks (style : Style) {nodes : List Node} (h : Node.AllFilled F nodes) :
    Mark.Filled F (marks style nodes) := by
  intro f hf
  refine filled_content style h f ?_
  rw [← content_marks]
  exact List.mem_filter.2 ⟨hf, rfl⟩

end Markup.Html

namespace Expansion

open Markup

/-- **The placeholders of a tree are those of texts**: what is true of the placeholders of all texts
is true of those of every tree that an abbreviation stands for. -/
theorem filled_of_markupTree {F : String → Prop} (h : ∀ s, (Value.parse s).Filled F) {c : Config}
    {s : String} {nodes : List Node} (hnodes : markupTree c s = .ok nodes) :
    Node.AllFilled F nodes := by
  obtain ⟨parsed, hparsed, hnodes⟩ := bind_eq_ok_iff.1 hnodes
  obtain ⟨expanded, hexpanded, hnodes⟩ := bind_eq_ok_iff.1 hnodes
  obtain ⟨unrolled, hunrolled, hnodes⟩ := bind_eq_ok_iff.1 hnodes
  obtain ⟨r, hr, rfl⟩ := map_eq_ok_iff.1 hexpanded
  obtain ⟨⟨out, s'⟩, hout, rfl⟩ := map_eq_ok_iff.1 (located_eq_ok_iff.1 hunrolled)
  have hgains := Snippet.expandTo_gains h (Snippet.filled_of_parse h hparsed) Shown.filled_nil hr
  have hfilled := Copies.unrollTo_filling _ _ _ _ (hgains.nodes.settle hgains.shown) _ out s' hout
  refine Numbering.filled_of_number ?_ hnodes
  rwa [Node.AllFilled, Node.allValues_nameAll]

/-- The output for a markup abbreviation is that of the marks of its tree. -/
theorem segments_eq_ok_iff {c : Config} (hmarkup : c.grammar = .markup) {s : String}
    {output : List Segment} : segments c s = .ok output ↔
      ∃ nodes, markupTree c s = .ok nodes ∧
        Html.write c.htmlStyle nodes = .ok output := by
  rw [segments, hmarkup]
  exact bind_eq_ok_iff

/-- **The placeholders of the output are those of texts**, where tab stops are not empty. -/
theorem placeholder_of_segments {F : String → Prop} (hempty : F "")
    (h : ∀ s, (Value.parse s).Filled F) {c : Config} (hmarkup : c.grammar = .markup) {s : String}
    {output : List Segment} (houtput : segments c s = .ok output) {number : Nat}
    {placeholder : String} (hmem : .stop number placeholder ∈ output) : F placeholder := by
  obtain ⟨nodes, hnodes, hwrite⟩ := (segments_eq_ok_iff hmarkup).1 houtput
  rw [Html.write] at hwrite
  split at hwrite
  · cases hwrite
  · cases hwrite
    rw [Html.segments_eq_marks] at hmem
    exact Mark.filled_of_mem_segments hempty
      (Html.filled_marks c.htmlStyle (filled_of_markupTree h hnodes)) hmem

end Expansion

end Shorthand
