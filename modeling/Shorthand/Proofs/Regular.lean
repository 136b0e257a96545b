import Shorthand.Proofs.Fields
import Shorthand.Proofs.Likeness
import Shorthand.Proofs.Nodewise
import Shorthand.Proofs.Parentheses

/-!
# Regular trees

No element of a regular tree has two attributes of one name, and no multiplier asks for no copy at
all.  What else is known of the values and the attributes of a tree comes along as two predicates.

A tree that was read from a text is regular: no attribute of it is linked, and all its fields are
the user's.

* `Node.AllRegular` : regular trees.
* `AllRegular.mono`, `AllRegular.append`, `AllRegular.adoptLast` : how they are put together.
* `Tree.typed_of_parse` : what was read is regular.
-/

set_option autoImplicit false

namespace Shorthand.Markup

/-! ## Regular trees -/

/-- A multiplier asks for a copy at least. -/
def Counted (times : Option Multiplier) : Prop := ∀ m, times = some m → 1 ≤ m.count

/-- The values of an element that are not those of attributes. -/
def Element.ownValues (e : Element) : List Value := e.id.toList ++ e.classes ++ e.text.toList

/-- An element with distinct attribute names, of whose values and attributes something is known. -/
structure Element.Regular (P : Value → Prop) (Q : Attribute → Prop) (e : Element) : Prop where
  values : ∀ v ∈ e.ownValues, P v
  attributes : ∀ a ∈ e.attributes, Q a
  names : (e.attributes.map (·.name)).Nodup

mutual

/-- A regular node. -/
inductive Node.Regular (P : Value → Prop) (Q : Attribute → Prop) : Node → Prop where
  | element {e : Element} {t : Option Multiplier} {ns : List Node} (he : e.Regular P Q)
      (ht : Counted t) (hc : Node.AllRegular P Q ns) : Node.Regular P Q (.element e t ns)
  | text {v : Value} {t : Option Multiplier} (i : Nat) (hv : P v) (ht : Counted t) :
      Node.Regular P Q (.text v t i)
  | group {ns : List Node} {t : Option Multiplier} (i : Nat) (ht : Counted t)
      (hc : Node.AllRegular P Q ns) : Node.Regular P Q (.group ns t i)

/-- A list of regular nodes. -/
inductive Node.AllRegular (P : Value → Prop) (Q : Attribute → Prop) : List Node → Prop where
  | nil : Node.AllRegular P Q []
  | cons {n : Node} {ns : List Node} (hn : n.Regular P Q) (hns : Node.AllRegular P Q ns) :
      Node.AllRegular P Q (n :: ns)

end

section Regular

variable {P P' : Value → Prop} {Q Q' : Attribute → Prop}

theorem Element.Regular.mono (hP : ∀ v, P v → P' v) (hQ : ∀ a, Q a → Q' a) {e : Element}
    (h : e.Regular P Q) : e.Regular P' Q' where
  values v hv := hP v (h.values v hv)
  attributes a ha := hQ a (h.attributes a ha)
  names := h.names

mutual

theorem Node.Regular.mono (hP : ∀ v, P v → P' v) (hQ : ∀ a, Q a → Q' a) :
    ∀ {n : Node}, n.Regular P Q → n.Regular P' Q'
  | _, .element he ht hc => .element (he.mono hP hQ) ht (hc.mono hP hQ)
  | _, .text i hv ht => .text i (hP _ hv) ht
  | _, .group i ht hc => .group i ht (hc.mono hP hQ)

theorem Node.AllRegular.mono (hP : ∀ v, P v → P' v) (hQ : ∀ a, Q a → Q' a) :
    ∀ {ns : List Node}, Node.AllRegular P Q ns → Node.AllRegular P' Q' ns
  | _, .nil => .nil
  | _, .cons hn hns => .cons (hn.mono hP hQ) (hns.mono hP hQ)

end

theorem Node.AllRegular.append : ∀ {ns ms : List Node}, Node.AllRegular P Q ns →
    Node.AllRegular P Q ms → Node.AllRegular P Q (ns ++ ms)
  | _, _, .nil, h => h
  | _, _, .cons hn hns, h => .cons hn (hns.append h)

theorem Node.AllRegular.of_forall {ns : List Node} (h : ∀ n ∈ ns, n.Regular P Q) :
    Node.AllRegular P Q ns := by
  induction ns with
  | nil => exact .nil
  | cons n ns ih =>
    obtain ⟨hn, hns⟩ := List.forall_mem_cons.1 h
    exact .cons hn (ih hns)

theorem Node.AllRegular.of_mem : ∀ {ns : List Node}, Node.AllRegular P Q ns →
    ∀ n ∈ ns, n.Regular P Q
  | _, .nil => by simp
  | _, .cons hn hns => List.forall_mem_cons.2 ⟨hn, hns.of_mem⟩

theorem Node.Regular.children : ∀ {n : Node}, n.Regular P Q → Node.AllRegular P Q n.children
  | _, .element _ _ hc => hc
  | _, .text _ _ _ => .nil
  | _, .group _ _ hc => hc

theorem Node.Regular.withChildren {ns : List Node} (hns : Node.AllRegular P Q ns) :
    ∀ {n : Node}, n.Regular P Q → (n.withChildren ns).Regular P Q
  | _, .element he ht _ => .element he ht hns
  | _, .text i hv ht => .text i hv ht
  | _, .group i ht _ => .group i ht hns

mutual

theorem Node.Regular.places : ∀ {n : Node}, n.Regular P Q → ∀ p ∈ n.places, Q p.2
  | _, .element he _ hc => by
    rw [Node.places, List.forall_mem_append, List.forall_mem_map]
    exact ⟨he.attributes, hc.places⟩
  | _, .text _ _ _ => by simp [Node.places]
  | _, .group _ _ hc => by
    rw [Node.places]
    exact hc.places

/-- What is known of the attributes of a tree. -/
theorem Node.AllRegular.places : ∀ {ns : List Node}, Node.AllRegular P Q ns →
    ∀ p ∈ Node.allPlaces ns, Q p.2
  | _, .nil => by simp [Node.allPlaces]
  | _, .cons hn hns => List.forall_mem_append.2 ⟨hn.places, hns.places⟩

end

theorem Node.AllRegular.nodewise : Node.Nodewise (Node.AllRegular P Q) where
  append {ns ms} := by
    refine ⟨fun h ↦ ?_, fun h ↦ h.1.append h.2⟩
    obtain ⟨hns, hms⟩ := List.forall_mem_append.1 h.of_mem
    exact ⟨.of_forall hns, .of_forall hms⟩
  children | .cons hn .nil => hn.children
  withChildren | .cons hn .nil, hns => .cons (hn.withChildren hns) .nil

/-- Regular nodes may hang in a regular tree. -/
theorem Node.AllRegular.adoptLast {extra : List Node} (hextra : Node.AllRegular P Q extra)
    {ns ms : List Node} (h : Node.AllRegular P Q ns) (hms : Node.adoptLast extra ns = some ms) :
    Node.AllRegular P Q ms := by
  have hlast := nodewise.adoptLast hextra h
  rwa [hms] at hlast

mutual

theorem Node.Regular.rewrite {m : Mapper} (hP : ∀ v, P v → P' (m.value v))
    (hQ : ∀ a, Q a → Q' (m.attr a)) (hname : ∀ a, (m.attr a).name = a.name) :
    ∀ {n : Node}, n.Regular P Q → (n.rewrite fun _ ↦ m).Regular P' Q'
  | _, .element (e := e) he ht hc => by
    refine .element ⟨?_, ?_, ?_⟩ ht (hc.rewriteAll hP hQ hname)
    · have hvalues := he.values
      simp only [Element.ownValues, Element.rewrite, List.forall_mem_append] at hvalues ⊢
      refine ⟨⟨?_, ?_⟩, ?_⟩
      · intro v hv
        obtain ⟨w, hw, rfl⟩ := Option.map_eq_some_iff.1 (Option.mem_toList.1 hv)
        exact hP w (hvalues.1.1 w (Option.mem_toList.2 hw))
      · intro v hv
        obtain ⟨w, hw, rfl⟩ := List.mem_map.1 hv
        exact hP w (hvalues.1.2 w hw)
      · intro v hv
        obtain ⟨w, hw, rfl⟩ := Option.map_eq_some_iff.1 (Option.mem_toList.1 hv)
        exact hP w (hvalues.2 w (Option.mem_toList.2 hw))
    · intro a ha
      obtain ⟨b, hb, rfl⟩ := List.mem_map.1 ha
      exact hQ b (he.attributes b hb)
    · have hnames : (e.attributes.map m.attr).map (·.name) = e.attributes.map (·.name) := by
        rw [List.map_map]
        exact List.map_congr_left fun a _ ↦ hname a
      rw [Element.rewrite, hnames]
      exact he.names
  | _, .text i hv ht => .text i (hP _ hv) ht
  | _, .group i ht hc => .group i ht (hc.rewriteAll hP hQ hname)

/-- A regular tree stays regular when its values and attributes are rewritten. -/
theorem Node.AllRegular.rewriteAll {m : Mapper} (hP : ∀ v, P v → P' (m.value v))
    (hQ : ∀ a, Q a → Q' (m.attr a)) (hname : ∀ a, (m.attr a).name = a.name) :
    ∀ {ns : List Node}, Node.AllRegular P Q ns →
      Node.AllRegular P' Q' (Node.rewriteAll (fun _ ↦ m) ns)
  | _, .nil => .nil
  | _, .cons hn hns => .cons (hn.rewrite hP hQ hname) (hns.rewriteAll hP hQ hname)

end

/-! ### Regular trees that are alike others -/

variable {R : Likeness}

mutual

theorem Node.Regular.of_like (hvalue : ∀ v w, P v → R.value v w → P' w)
    (hattr : ∀ a b, Q a → R.attr a b → Q' b ∧ a.name = b.name)
    (htimes : ∀ t u, R.times t u → t = u) :
    ∀ {n m : Node}, n.Regular P Q → n.Like R m → m.Regular P' Q'
  | _, _, .element (e := e) he ht hc, .element (f := f) he' ht' hc' => by
    refine .element ⟨?_, ?_, ?_⟩ (htimes _ _ ht' ▸ ht)
      (Node.AllRegular.of_like hvalue hattr htimes hc hc')
    · have hvalues := he.values
      simp only [Element.ownValues, List.forall_mem_append] at hvalues ⊢
      have hoption : ∀ {o o' : Option Value}, (∀ v ∈ o.toList, P v) → Option.Rel R.value o o' →
          ∀ w ∈ o'.toList, P' w := by
        intro o o' ho hrel
        cases hrel with
        | none => simp
        | some hvw => simpa using hvalue _ _ (ho _ (by simp)) hvw
      refine ⟨⟨hoption hvalues.1.1 he'.id, fun w hw ↦ ?_⟩, hoption hvalues.2 he'.text⟩
      obtain ⟨v, hv, hvw⟩ := forall₂_mem_right he'.classes hw
      exact hvalue v w (hvalues.1.2 v hv) hvw
    · intro b hb
      obtain ⟨a, ha, hab⟩ := forall₂_mem_right he'.attributes hb
      exact (hattr a b (he.attributes a ha) hab).1
    · have hnames : ∀ {as bs : List Attribute}, (∀ a ∈ as, Q a) → List.Forall₂ R.attr as bs →
          as.map (·.name) = bs.map (·.name) := by
        intro as bs has hrel
        induction hrel with
        | nil => rfl
        | cons hab _ ih =>
          obtain ⟨ha, has⟩ := List.forall_mem_cons.1 has
          rw [List.map_cons, List.map_cons, (hattr _ _ ha hab).2, ih has]
      exact hnames he.attributes he'.attributes ▸ he.names
  | _, _, .text _ hv ht, .text _ j hv' ht' => .text j (hvalue _ _ hv hv') (htimes _ _ ht' ▸ ht)
  | _, _, .group _ ht hc, .group _ j ht' hc' =>
    .group j (htimes _ _ ht' ▸ ht) (Node.AllRegular.of_like hvalue hattr htimes hc hc')

/-- What is alike a regular tree is regular. -/
theorem Node.AllRegular.of_like (hvalue : ∀ v w, P v → R.value v w → P' w)
    (hattr : ∀ a b, Q a → R.attr a b → Q' b ∧ a.name = b.name)
    (htimes : ∀ t u, R.times t u → t = u) :
    ∀ {ns ms : List Node}, Node.AllRegular P Q ns → Node.AllLike R ns ms →
      Node.AllRegular P' Q' ms
  | _, _, .nil, .nil => .nil
  | _, _, .cons hn hns, .cons hn' hns' =>
    .cons (Node.Regular.of_like hvalue hattr htimes hn hn')
      (Node.AllRegular.of_like hvalue hattr htimes hns hns')

end

theorem Element.Like.mono_of_regular {S : Likeness}
    (hvalue : ∀ v w, P v → R.value v w → S.value v w)
    (hattr : ∀ a b, Q a → R.attr a b → S.attr a b) {e f : Element} (he : e.Regular P Q)
    (h : e.Like R f) : e.Like S f := by
  have hvalues := he.values
  simp only [ownValues, List.forall_mem_append] at hvalues
  have hoption : ∀ {o o' : Option Value}, (∀ v ∈ o.toList, P v) → Option.Rel R.value o o' →
      Option.Rel S.value o o' := by
    intro o o' ho hrel
    cases hrel with
    | some hr => exact .some (hvalue _ _ (ho _ (by simp)) hr)
    | none => exact .none
  have hlist : ∀ {α : Type} {p : α → Prop} {r s : α → α → Prop} {as bs : List α},
      (∀ a b, p a → r a b → s a b) → (∀ a ∈ as, p a) → List.Forall₂ r as bs →
      List.Forall₂ s as bs := by
    intro α p r s as bs hrs has hrel
    induction hrel with
    | nil => exact .nil
    | cons hr _ ih =>
      obtain ⟨ha, has⟩ := List.forall_mem_cons.1 has
      exact .cons (hrs _ _ ha hr) (ih has)
  exact ⟨h.name, hoption hvalues.1.1 h.id, hlist hvalue hvalues.1.2 h.classes,
    hlist hattr he.attributes h.attributes, hoption hvalues.2 h.text, h.selfClosing⟩

mutual

theorem Node.Like.mono_of_regular {S : Likeness}
    (hvalue : ∀ v w, P v → R.value v w → S.value v w)
    (hattr : ∀ a b, Q a → R.attr a b → S.attr a b) (htimes : ∀ t u, R.times t u → S.times t u) :
    ∀ {n m : Node}, n.Regular P Q → n.Like R m → n.Like S m
  | _, _, .element he _ hc, .element he' ht hc' =>
    .element (he'.mono_of_regular hvalue hattr he) (htimes _ _ ht)
      (Node.AllLike.mono_of_regular hvalue hattr htimes hc hc')
  | _, _, .text _ hv _, .text i j hv' ht => .text i j (hvalue _ _ hv hv') (htimes _ _ ht)
  | _, _, .group _ _ hc, .group i j ht hc' =>
    .group i j (htimes _ _ ht) (Node.AllLike.mono_of_regular hvalue hattr htimes hc hc')

/-- Trees that are alike differ in no more than follows from what is known of the first. -/
theorem Node.AllLike.mono_of_regular {S : Likeness}
    (hvalue : ∀ v w, P v → R.value v w → S.value v w)
    (hattr : ∀ a b, Q a → R.attr a b → S.attr a b) (htimes : ∀ t u, R.times t u → S.times t u) :
    ∀ {ns ms : List Node}, Node.AllRegular P Q ns → Node.AllLike R ns ms → Node.AllLike S ns ms
  | _, _, .nil, .nil => .nil
  | _, _, .cons hn hns, .cons hn' hns' =>
    .cons (Node.Like.mono_of_regular hvalue hattr htimes hn hn')
      (Node.AllLike.mono_of_regular hvalue hattr htimes hns hns')

end

end Regular

/-! ## What was read -/

/-- A value with no field but the user's. -/
def Value.Unscoped (v : Value) : Prop := ∀ f ∈ v.fields, f.scope = 0

/-- An attribute as it was read. -/
def Attribute.Typed (a : Attribute) : Prop := a.link = none ∧ Value.Unscoped a.value

/-- A property of all values that reading makes: of texts that are taken apart, of such values one
after the other, and of words. -/
structure Value.OfReading (P : Value → Prop) : Prop where
  nil : P []
  parse : ∀ s, P (Value.parse s)
  append : ∀ {v w}, P v → P w → P (v ++ w)
  word : ∀ word, P [.text word]

/-- What all fields of texts have in common is a property of all values that reading makes. -/
theorem Value.ofReading_fields {F : Field → Prop} (h : ∀ s, ∀ f ∈ (Value.parse s).fields, F f) :
    Value.OfReading fun v ↦ ∀ f ∈ v.fields, F f where
  nil := by simp [Value.fields]
  parse := h
  append hv hw f hf := by
    rw [Value.fields, List.filterMap_append] at hf
    exact (List.mem_append.1 hf).elim (hv f) (hw f)
  word := by simp [Value.fields]

/-- An attribute as it was read, its value with a property. -/
def Attribute.TypedWith (P : Value → Prop) (a : Attribute) : Prop := a.link = none ∧ P a.value

/-- A regular element as it was read, its values with a property. -/
abbrev Element.TypedWith (P : Value → Prop) (e : Element) : Prop :=
  e.Regular P (Attribute.TypedWith P)

/-- Regular nodes as they were read. -/
abbrev Node.AllTyped (ns : List Node) : Prop := Node.AllRegular Value.Unscoped Attribute.Typed ns

/-- A putting of an attribute among others of distinct names: it replaces the value of the one with
its name. -/
theorem Attribute.putInto_eq (a : Attribute) {as : List Attribute} (h : (as.map (·.name)).Nodup) :
    a.putInto as = if a.name ∈ as.map (·.name)
      then as.map fun b ↦ if b.name = a.name then { b with value := a.value } else b
      else as ++ [a] := by
  induction as with
  | nil => rfl
  | cons b bs ih =>
    obtain ⟨hb, hbs⟩ := List.nodup_cons.1 h
    rw [putInto]
    by_cases hname : b.name = a.name
    · have hmap : bs.map (fun c ↦ if c.name = a.name then { c with value := a.value } else c)
          = bs := by
        refine (List.map_congr_left fun c hc ↦ if_neg ?_).trans (List.map_id _)
        intro hc'
        exact hb (List.mem_map.2 ⟨c, hc, hc'.trans hname.symm⟩)
      simp [hname, hmap]
    · have hne : (b.name == a.name) = false := by simpa using hname
      rw [hne, ih hbs]
      simp only [Bool.false_eq_true, if_false, List.map_cons, List.mem_cons, hname, Ne.symm hname,
        false_or]
      split <;> rfl

/-- Putting an attribute on an element keeps the names distinct. -/
theorem Attribute.names_putInto (a : Attribute) {as : List Attribute}
    (h : (as.map (·.name)).Nodup) : ((a.putInto as).map (·.name)).Nodup := by
  rw [putInto_eq a h]
  split
  · have hmap : (as.map fun b ↦ if b.name = a.name then { b with value := a.value } else b).map
        (·.name) = as.map (·.name) := by
      rw [List.map_map]
      refine List.map_congr_left fun b _ ↦ ?_
      rw [Function.comp_apply]
      split <;> rfl
    rwa [hmap]
  · next hmem =>
    rw [List.map_append]
    refine List.nodup_append.2 ⟨h, by simp, fun x hx y hy hxy ↦ hmem ?_⟩
    obtain rfl : y = a.name := by simpa using hy
    rwa [← hxy]

/-- What becomes of an attribute when others are put on its element. -/
def Attribute.overridden (as : List Attribute) (b : Attribute) : Attribute :=
  as.foldl (fun b a ↦ if b.name = a.name then { b with value := a.value } else b) b

theorem Attribute.overridden_cons (a : Attribute) (as : List Attribute) (b : Attribute) :
    b.overridden (a :: as)
      = (if b.name = a.name then { b with value := a.value } else b : Attribute).overridden as :=
  rfl

theorem Attribute.link_overridden (as : List Attribute) (b : Attribute) :
    (b.overridden as).link = b.link := by
  induction as generalizing b with
  | nil => rfl
  | cons a as ih =>
    rw [overridden_cons, ih]
    split <;> rfl

theorem Attribute.overridden_of_not_mem {as : List Attribute} {b : Attribute}
    (h : b.name ∉ as.map (·.name)) : b.overridden as = b := by
  induction as with
  | nil => rfl
  | cons a as ih =>
    obtain ⟨hne, h⟩ := not_or.1 (List.mem_cons.not.1 h)
    rw [overridden_cons, if_neg hne, ih h]

/-- The value of an overridden attribute is its own or that of one that was put on its element. -/
theorem Attribute.value_overridden (as : List Attribute) (b : Attribute) :
    (b.overridden as).value = b.value ∨ ∃ a ∈ as, (b.overridden as).value = a.value := by
  induction as generalizing b with
  | nil => exact .inl rfl
  | cons a as ih =>
    rw [overridden_cons]
    split
    · rcases ih { b with value := a.value } with h | ⟨c, hc, h⟩
      · exact .inr ⟨a, List.mem_cons_self, h⟩
      · exact .inr ⟨c, List.mem_cons_of_mem a hc, h⟩
    · rcases ih b with h | ⟨c, hc, h⟩
      · exact .inl h
      · exact .inr ⟨c, List.mem_cons_of_mem a hc, h⟩

/-- Attributes of an element after others were put on it are its own, overridden, or those. -/
theorem Element.mem_putAttributes {as : List Attribute} (has : (as.map (·.name)).Nodup)
    {e : Element} (he : (e.attributes.map (·.name)).Nodup) :
    ((as.foldl Element.putAttribute e).attributes.map (·.name)).Nodup ∧
      ∀ c ∈ (as.foldl Element.putAttribute e).attributes,
        (∃ b ∈ e.attributes, c = b.overridden as) ∨ c ∈ as := by
  induction as generalizing e with
  | nil => exact ⟨he, fun c hc ↦ .inl ⟨c, hc, rfl⟩⟩
  | cons a as ih =>
    obtain ⟨ha, has⟩ := List.nodup_cons.1 has
    obtain ⟨hnames, hmem⟩ := ih has (e := e.putAttribute a) (a.names_putInto he)
    refine ⟨hnames, fun c hc ↦ ?_⟩
    rcases hmem c hc with ⟨b, hb, rfl⟩ | hc
    · rw [putAttribute, a.putInto_eq he] at hb
      dsimp only at hb
      split at hb
      · obtain ⟨b', hb', rfl⟩ := List.mem_map.1 hb
        exact .inl ⟨b', hb', (Attribute.overridden_cons a as b').symm⟩
      · next hnot =>
        rcases List.mem_append.1 hb with hb | hb
        · refine .inl ⟨b, hb, ?_⟩
          rw [Attribute.overridden_cons, if_neg]
          exact fun hname ↦ hnot (List.mem_map.2 ⟨b, hb, hname⟩)
        · obtain rfl := List.mem_singleton.1 hb
          rw [Attribute.overridden_of_not_mem ha]
          exact .inr List.mem_cons_self
    · exact .inr (List.mem_cons_of_mem a hc)

theorem Text.mem_tileFrom {α ε : Type} {step : Nat → List Char → Except ε (List α × Nat)}
    {pos skip : Nat} {cs : List Char} {out : List α} (h : Text.tileFrom step pos skip cs = .ok out)
    {a : α} (ha : a ∈ out) : ∃ p ds r, step p ds = .ok r ∧ a ∈ r.1 := by
  induction cs generalizing pos skip out with
  | nil =>
    rw [Text.tileFrom_nil] at h
    cases h
    cases ha
  | cons c cs ih =>
    cases skip with
    | succ skip => exact ih h ha
    | zero =>
      obtain ⟨r, hr, h⟩ := bind_eq_ok_iff.1 h
      obtain ⟨rest, hrest, h⟩ := bind_eq_ok_iff.1 h
      cases h
      rcases List.mem_append.1 ha with ha | ha
      · exact ⟨pos, _, r, hr, ha⟩
      · exact ih hrest ha

/-- The attributes of a set are not linked, and their values are texts taken apart. -/
theorem AttributeSet.value_of_read {pos : Nat} {inner : String} {as : List Attribute}
    (h : read pos inner = .ok as) :
    ∀ a ∈ as, a.link = none ∧ (a.value = [] ∨ ∃ s, a.value = Value.parse s) := by
  intro a ha
  obtain ⟨p, ds, r, hr, ha⟩ := Text.mem_tileFrom h ha
  rw [step] at hr
  split at hr
  · cases hr
    cases ha
  · dsimp only at hr
    split at hr
    · cases hr
    · split at hr
      · obtain ⟨⟨value, size⟩, -, hr⟩ := bind_eq_ok_iff.1 hr
        cases hr
        obtain rfl := List.mem_singleton.1 ha
        exact ⟨rfl, .inr ⟨_, rfl⟩⟩
      · cases hr
        obtain rfl := List.mem_singleton.1 ha
        exact ⟨rfl, .inl rfl⟩

section Reading

variable {P : Value → Prop}

/-- The attributes of a set are typed. -/
theorem AttributeSet.typed_of_read (hP : Value.OfReading P) {pos : Nat} {inner : String}
    {as : List Attribute} (h : read pos inner = .ok as) : ∀ a ∈ as, a.TypedWith P := by
  intro a ha
  obtain ⟨hlink, hvalue | ⟨s, hvalue⟩⟩ := value_of_read h a ha
  · exact ⟨hlink, hvalue ▸ hP.nil⟩
  · exact ⟨hlink, hvalue ▸ hP.parse s⟩

namespace Element.TypedWith

variable {e : Element}

theorem addClass (h : e.TypedWith P) {v : Value} (hv : P v) : (e.addClass v).TypedWith P := by
  rw [Element.addClass]
  split
  · exact h
  · refine ⟨?_, h.attributes, h.names⟩
    have hvalues := h.values
    simp only [ownValues, List.forall_mem_append, List.forall_mem_singleton] at hvalues ⊢
    exact ⟨⟨hvalues.1.1, hvalues.1.2, hv⟩, hvalues.2⟩

theorem putAttribute (h : e.TypedWith P) {a : Attribute} (ha : a.TypedWith P) :
    (e.putAttribute a).TypedWith P := by
  have hsingle : ([a].map (·.name)).Nodup := by simp
  obtain ⟨hnames, hmem⟩ := mem_putAttributes hsingle h.names
  refine ⟨h.values, fun c hc ↦ ?_, hnames⟩
  rcases hmem c hc with ⟨b, hb, rfl⟩ | hc
  · refine ⟨(Attribute.link_overridden _ b).trans (h.attributes b hb).1, ?_⟩
    rcases Attribute.value_overridden [a] b with hv | ⟨a', ha', hv⟩
    · rw [hv]
      exact (h.attributes b hb).2
    · rw [hv, List.mem_singleton.1 ha']
      exact ha.2
  · rw [List.mem_singleton.1 hc]
    exact ha

theorem fold (hP : Value.OfReading P) (h : e.TypedWith P) {a : Attribute} (ha : a.TypedWith P) :
    (e.fold a).TypedWith P := by
  have hclasses : ∀ v ∈ classesOf a.value, P v := by
    intro v hv
    rw [classesOf.eq_def] at hv
    split at hv
    · cases hv
    · obtain ⟨word, -, rfl⟩ := List.mem_map.1 hv
      exact hP.word _
    · rw [List.mem_singleton.1 hv]
      exact ha.2
  have hfold : ∀ (vs : List Value) (e : Element), e.TypedWith P → (∀ v ∈ vs, P v) →
      (vs.foldl Element.addClass e).TypedWith P := by
    intro vs
    induction vs with
    | nil => exact fun _ he _ ↦ he
    | cons v vs ih =>
      intro e he hvs
      obtain ⟨hv, hvs⟩ := List.forall_mem_cons.1 hvs
      exact ih _ (he.addClass hv) hvs
  rw [Element.fold]
  split
  · refine ⟨?_, h.attributes, h.names⟩
    have hvalues := h.values
    simp only [ownValues, List.forall_mem_append, Option.toList_some,
      List.forall_mem_singleton] at hvalues ⊢
    exact ⟨⟨ha.2, hvalues.1.2⟩, hvalues.2⟩
  · split
    · exact hfold _ e h hclasses
    · exact h.putAttribute ha

theorem foldAll (hP : Value.OfReading P) {as : List Attribute} (has : ∀ a ∈ as, a.TypedWith P)
    (h : e.TypedWith P) : (as.foldl Element.fold e).TypedWith P := by
  induction as generalizing e with
  | nil => exact h
  | cons a as ih =>
    obtain ⟨ha, has⟩ := List.forall_mem_cons.1 has
    exact ih has (h.fold hP ha)

theorem addText (hP : Value.OfReading P) (h : e.TypedWith P) {v : Value} (hv : P v) :
    (e.addText v).TypedWith P := by
  refine ⟨?_, h.attributes, h.names⟩
  have hvalues := h.values
  simp only [ownValues, Element.addText, List.forall_mem_append, Option.toList_some,
    List.forall_mem_singleton] at hvalues ⊢
  refine ⟨hvalues.1, hP.append ?_ hv⟩
  cases ht : e.text with
  | none => exact hP.nil
  | some w => exact hvalues.2 w (by simp [ht])

end Element.TypedWith

namespace Tree

theorem typed_of_modifiers (hP : Value.OfReading P) {stop : Nat} {e e₁ : Element}
    {ts rest : Tokens} (he : e.TypedWith P) (h : modifiers stop e ts = .ok (e₁, rest)) :
    e₁.TypedWith P := by
  fun_induction modifiers stop e ts with
  | case1 e _ text _ rest ih =>
    refine ih ⟨?_, he.attributes, he.names⟩ h
    have hvalues := he.values
    simp only [Element.ownValues, List.forall_mem_append, Option.toList_some,
      List.forall_mem_singleton] at hvalues ⊢
    exact ⟨⟨hP.parse _, hvalues.1.2⟩, hvalues.2⟩
  | case2 => cases h
  | case3 e _ text _ rest ih => exact ih (he.addClass (hP.parse _)) h
  | case4 => cases h
  | case5 e inner o rest ih =>
    obtain ⟨as, hread, h⟩ := bind_eq_ok_iff.1 h
    exact ih as (he.foldAll hP (AttributeSet.typed_of_read hP hread)) h
  | case6 e inner o rest ih => exact ih (he.addText hP (hP.parse _)) h
  | case7 =>
    cases h
    exact he

theorem counted_of_multiplier {digits : String} {o : Nat} {m : Multiplier}
    (h : multiplier digits o = .ok m) : Counted (some m) := by
  intro m' hm
  obtain rfl := Option.some.inj hm
  rw [multiplier] at h
  split at h
  · cases h
  · split at h
    · cases h
    · cases h
    · next count hne hnumeral =>
      cases h
      exact Nat.one_le_iff_ne_zero.2 hne

theorem counted_none : Counted none := fun _ h ↦ by cases h

theorem typed_of_mark {e e₁ : Element} {times times₁ : Option Multiplier} {ts rest : Tokens}
    (he : e.TypedWith P) (ht : Counted times) (h : mark e times ts = .ok (e₁, times₁, rest)) :
    e₁.TypedWith P ∧ Counted times₁ := by
  unfold mark at h
  split at h
  · split at h
    · obtain ⟨m, hm, h⟩ := bind_eq_ok_iff.1 h
      cases h
      exact ⟨he, counted_of_multiplier hm⟩
    · cases h
      exact ⟨he, ht⟩
  · cases h
    exact ⟨⟨he.values, he.attributes, he.names⟩, ht⟩
  · cases h
    exact ⟨he, ht⟩

theorem typed_nodeOf {e : Element} {times : Option Multiplier} (he : e.TypedWith P)
    (ht : Counted times) : (nodeOf e times).Regular P (Attribute.TypedWith P) := by
  rw [nodeOf]
  split
  · next text htext =>
    split
    · exact .text _ (he.values text (by simp [Element.ownValues, htext])) ht
    · exact .element he ht .nil
  · exact .element he ht .nil

theorem typed_of_finish (hP : Value.OfReading P) {stop : Nat} {e : Element} {node : Node}
    {ts rest : Tokens} (he : e.TypedWith P) (h : finish stop e ts = .ok (node, rest)) :
    node.Regular P (Attribute.TypedWith P) := by
  obtain ⟨⟨e₁, rest₁⟩, h₁, h⟩ := bind_eq_ok_iff.1 h
  obtain ⟨⟨e₂, times₂, rest₂⟩, h₂, h⟩ := bind_eq_ok_iff.1 h
  obtain ⟨⟨e₃, times₃, rest₃⟩, h₃, h⟩ := bind_eq_ok_iff.1 h
  cases h
  obtain ⟨he₂, ht₂⟩ := typed_of_mark (typed_of_modifiers hP he h₁) counted_none h₂
  obtain ⟨he₃, ht₃⟩ := typed_of_mark he₂ ht₂ h₃
  exact typed_nodeOf he₃ ht₃

theorem typed_of_element (hP : Value.OfReading P) {stop : Nat} {node : Node} {ts rest : Tokens}
    (h : element stop ts = .ok (node, rest)) : node.Regular P (Attribute.TypedWith P) := by
  have hempty : ∀ name offset, Element.TypedWith P { name, offset } := fun _ _ ↦
    ⟨by simp [Element.ownValues], by simp, by simp⟩
  unfold element at h
  split at h
  · cases h
  · exact typed_of_finish hP (hempty _ _) h
  · split at h
    · exact typed_of_finish hP (hempty _ _) h
    · cases h

theorem typed_attach {node : Node} (hn : node.Regular P (Attribute.TypedWith P))
    (level : Nat) {nodes : List Node} (h : Node.AllRegular P (Attribute.TypedWith P) nodes) :
    Node.AllRegular P (Attribute.TypedWith P) (attach level node nodes) := by
  have hlast : ∀ {f : Node → Node} {ns : List Node},
      (∀ n : Node, n.Regular P (Attribute.TypedWith P) →
        (f n).Regular P (Attribute.TypedWith P)) →
      Node.AllRegular P (Attribute.TypedWith P) ns →
      Node.AllRegular P (Attribute.TypedWith P) (mapLast f ns) := by
    intro f ns hf hns
    induction ns with
    | nil => exact .nil
    | cons n ns ih =>
      cases hns with
      | cons hn hns =>
        cases ns with
        | nil => exact .cons (hf n hn) .nil
        | cons m ns => exact .cons hn (ih hns)
  induction level generalizing nodes with
  | zero => exact h.append (.cons hn .nil)
  | succ level ih => exact hlast (fun n hn ↦ hn.withChildren (ih hn.children)) h

theorem typed_nest {items : List (Nat × Node)}
    (h : ∀ item ∈ items, item.2.Regular P (Attribute.TypedWith P)) :
    Node.AllRegular P (Attribute.TypedWith P) (nest items) := by
  suffices hfold : ∀ nodes, Node.AllRegular P (Attribute.TypedWith P) nodes →
      Node.AllRegular P (Attribute.TypedWith P)
        (items.foldl (fun nodes item ↦ attach item.1 item.2 nodes) nodes) from
    hfold [] .nil
  induction items with
  | nil => exact fun _ hnodes ↦ hnodes
  | cons item items ih =>
    obtain ⟨hitem, hitems⟩ := List.forall_mem_cons.1 h
    exact fun nodes hnodes ↦ ih hitems _ (typed_attach hitem item.1 hnodes)

theorem typed_of_item (hP : Value.OfReading P) {stop : Nat}
    {inside : Tokens → Except Fault (List (Nat × Node) × Tokens)}
    (hin : ∀ ts items rest, inside ts = .ok (items, rest) →
      ∀ item ∈ items, item.2.Regular P (Attribute.TypedWith P))
    {node : Node} {ts rest : Tokens} (h : item stop inside ts = .ok (node, rest)) :
    node.Regular P (Attribute.TypedWith P) := by
  unfold item at h
  split at h
  · obtain ⟨⟨items, rest₁⟩, h₁, h⟩ := bind_eq_ok_iff.1 h
    have hnest := typed_nest (hin _ _ _ h₁)
    dsimp only at h
    split at h
    · split at h
      · cases h
      · split at h
        · obtain ⟨m, hm, h⟩ := bind_eq_ok_iff.1 h
          cases h
          exact .group _ (counted_of_multiplier hm) hnest
        · cases h
          exact .group _ counted_none hnest
    · cases h
  · split at h
    · cases h
    · exact typed_of_element hP h
  · cases h

theorem typed_of_statements (hP : Value.OfReading P) {stop fuel level : Nat}
    {items : List (Nat × Node)} {ts rest : Tokens}
    (h : statements stop fuel level ts = .ok (items, rest)) :
    ∀ item ∈ items, item.2.Regular P (Attribute.TypedWith P) := by
  induction fuel generalizing level items ts rest with
  | zero => cases h
  | succ fuel ih =>
    rw [statements] at h
    split at h
    · cases h
      simp
    · obtain ⟨⟨node, rest₁⟩, h₁, h⟩ := bind_eq_ok_iff.1 h
      have hnode := typed_of_item hP (fun _ _ _ ↦ ih) h₁
      dsimp only at h
      split at h
      · cases h
        simpa using hnode
      · obtain ⟨⟨next, after⟩, -, h⟩ := bind_eq_ok_iff.1 h
        dsimp only at h
        split at h
        · obtain ⟨⟨items₃, rest₃⟩, h₃, h⟩ := bind_eq_ok_iff.1 h
          cases h
          exact List.forall_mem_cons.2 ⟨hnode, ih h₃⟩
        · cases h

/-- **What was read is regular**: no attribute is linked, and all values have what values that are
read have in common. -/
theorem typedWith_of_parse (hP : Value.OfReading P) {s : String} {nodes : List Node}
    (h : parse s = .ok nodes) : Node.AllRegular P (Attribute.TypedWith P) nodes := by
  rw [parse, located_eq_ok_iff] at h
  obtain ⟨tokens, -, h⟩ := bind_eq_ok_iff.1 h
  rw [ofTokens] at h
  split at h
  · cases h
  · obtain ⟨⟨items, rest⟩, hrow, h⟩ := bind_eq_ok_iff.1 h
    dsimp only at h
    split at h
    · cases h
      exact typed_nest (typed_of_statements hP hrow)
    · cases h

/-- All fields that were read are the user's. -/
theorem typed_of_parse {s : String} {nodes : List Node} (h : parse s = .ok nodes) :
    Node.AllTyped nodes :=
  typedWith_of_parse (Value.ofReading_fields fun _ _ ↦ Value.scope_of_mem_parse) h

end Tree

end Reading

end Shorthand.Markup
