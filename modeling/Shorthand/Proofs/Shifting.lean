import Shorthand.Proofs.Instances

/-!
# Expanding with other supplies

Expansion does not look at the numbers that it gives out.  If it begins with greater ones, the same
tree comes out with all its scopes and links greater by as much; the user's scope 0 stays.

* `Likeness.shifted` : trees whose scopes and links differ by constants.
* `Snippet.expandTo_shifts` : expansion from a later progress.
-/

set_option autoImplicit false

namespace Shorthand.Markup

/-! ## Shifts -/

/-- An attribute with greater scopes and a greater link. -/
def Attribute.shifted (d k : Nat) (a : Attribute) : Attribute :=
  { a with value := Value.moved (· + d) a.value, link := a.link.map (· + k) }

/-- Trees of which the second has greater scopes and links. -/
def Likeness.shifted (d k : Nat) : Likeness where
  value v w := w = Value.moved (· + d) v
  attr a b := b = a.shifted d k
  times t u := t = u

/-- The map that shifts scopes and links. -/
def shifter (d k : Nat) : Mapper where
  value := Value.moved (· + d)
  attr := Attribute.shifted d k

section Shift

variable {d k : Nat}

theorem Value.moved_zero (v : Value) : Value.moved (· + 0) v = v := by
  refine (List.map_congr_left fun p _ ↦ ?_).trans (List.map_id v)
  cases p with
  | text s => rfl
  | field g =>
    obtain ⟨index, placeholder, scope⟩ := g
    by_cases h0 : scope = 0 <;> simp [h0]

/-- A tree that is shifted by nothing is the same tree. -/
theorem Node.AllLike.same_of_shifted {ns ms : List Node} (h : Node.AllLike (.shifted 0 0) ns ms) :
    Node.AllLike .same ns ms := by
  refine h.mono (R := .shifted 0 0) (S := .same) ⟨?_, ?_, fun _ _ ht ↦ ht⟩
  · rintro v _ rfl
    exact (Value.moved_zero v).symm
  · rintro ⟨name, value, link⟩ _ rfl
    rw [Attribute.shifted, Value.moved_zero]
    exact congrArg (Attribute.mk name value) Option.map_id'.symm

theorem Value.moved_injective (d : Nat) : Function.Injective (Value.moved (· + d)) := by
  intro v w h
  induction v generalizing w with
  | nil => exact (List.map_eq_nil_iff.1 h.symm).symm
  | cons p v ih =>
    cases w with
    | nil => cases h
    | cons q w =>
      obtain ⟨hpart, htail⟩ := List.cons.inj h
      rw [ih htail]
      rcases p with s | ⟨i, p, s⟩ <;> rcases q with t | ⟨j, q, t⟩
      · exact congrArg (· :: w) hpart
      · cases hpart
      · cases hpart
      · obtain ⟨rfl, rfl, hscope⟩ := Field.mk.inj (Part.field.inj hpart)
        dsimp only at hscope
        obtain rfl : s = t := by split at hscope <;> split at hscope <;> omega
        rfl

theorem forall₂_eq_map {α β : Type} {f : α → β} {as : List α} {bs : List β} :
    List.Forall₂ (fun a b ↦ b = f a) as bs ↔ bs = as.map f := by
  constructor
  · intro h
    induction h with
    | nil => rfl
    | cons hab _ ih => rw [hab, ih, List.map_cons]
  · rintro rfl
    rw [List.forall₂_map_right_iff]
    exact List.forall₂_same.2 fun _ _ ↦ rfl

theorem optionRel_eq_map {α β : Type} {f : α → β} {o : Option α} {o' : Option β} :
    Option.Rel (fun a b ↦ b = f a) o o' ↔ o' = o.map f := by
  cases o <;> cases o' <;> simp

/-- Elements that are shifted are what the shift makes of them, somewhere else. -/
theorem Element.like_shifted_iff {e f : Element} :
    e.Like (.shifted d k) f ↔ f = (e.rewrite (shifter d k)).placed f.offset := by
  have hname : e.name.map (shifter d k).name = e.name := Option.map_id'
  constructor
  · intro h
    obtain ⟨name, id, classes, attributes, text, selfClosing, offset⟩ := f
    obtain ⟨hn, hid, hclasses, hattributes, htext, hself⟩ := h
    obtain rfl := optionRel_eq_map.1 hid
    obtain rfl := forall₂_eq_map.1 hclasses
    obtain rfl := forall₂_eq_map.1 hattributes
    obtain rfl := optionRel_eq_map.1 htext
    obtain rfl : e.name = name := hn
    obtain rfl : e.selfClosing = selfClosing := hself
    simp only [placed, rewrite, hname]
    rfl
  · intro h
    rw [h]
    exact ⟨hname.symm, optionRel_eq_map.2 rfl, forall₂_eq_map.2 rfl, forall₂_eq_map.2 rfl,
      optionRel_eq_map.2 rfl, rfl⟩

/-! ## Merging -/

theorem Value.isEmpty_moved (f : Nat → Nat) (v : Value) : (Value.moved f v).isEmpty = v.isEmpty :=
  List.isEmpty_map

theorem Element.addClass_rewrite (d k : Nat) (e : Element) (v : Value) :
    (e.rewrite (shifter d k)).addClass (Value.moved (· + d) v)
      = (e.addClass v).rewrite (shifter d k) := by
  have hcontains : (e.rewrite (shifter d k)).classes.contains (Value.moved (· + d) v)
      = e.classes.contains v := by
    rw [Bool.eq_iff_iff, List.contains_iff_mem, List.contains_iff_mem]
    exact List.mem_map_of_injective (Value.moved_injective d)
  rw [addClass, addClass, Value.isEmpty_moved, hcontains]
  split
  · rfl
  · simp [rewrite, shifter]

theorem Element.foldl_addClass_rewrite (d k : Nat) (vs : List Value) (e : Element) :
    (vs.map (Value.moved (· + d))).foldl addClass (e.rewrite (shifter d k))
      = (vs.foldl addClass e).rewrite (shifter d k) := by
  induction vs generalizing e with
  | nil => rfl
  | cons v vs ih => rw [List.map_cons, List.foldl_cons, List.foldl_cons, addClass_rewrite, ih]

theorem Attribute.putInto_shifted (d k : Nat) (a : Attribute) (as : List Attribute) :
    (a.shifted d k).putInto (as.map (Attribute.shifted d k))
      = (a.putInto as).map (Attribute.shifted d k) := by
  induction as with
  | nil => rfl
  | cons b bs ih =>
    rw [List.map_cons, putInto, putInto, ih]
    have hname : ((b.shifted d k).name == (a.shifted d k).name) = (b.name == a.name) := rfl
    rw [hname]
    split <;> rfl

theorem Element.foldl_putAttribute_rewrite (d k : Nat) (as : List Attribute) (e : Element) :
    (as.map (Attribute.shifted d k)).foldl putAttribute (e.rewrite (shifter d k))
      = (as.foldl putAttribute e).rewrite (shifter d k) := by
  induction as generalizing e with
  | nil => rfl
  | cons a as ih =>
    have hput : (e.rewrite (shifter d k)).putAttribute (a.shifted d k)
        = (e.putAttribute a).rewrite (shifter d k) := by
      have := Attribute.putInto_shifted d k a e.attributes
      simp only [putAttribute, rewrite, shifter] at this ⊢
      rw [this]
    rw [List.map_cons, List.foldl_cons, List.foldl_cons, hput, ih]

/-- Merging does not look at scopes and links. -/
theorem Element.mergeTyped_shifted {e f typed typed' : Element} (h : e.Like (.shifted d k) f)
    (ht : typed.Like (.shifted d k) typed') :
    (e.mergeTyped typed).Like (.shifted d k) (f.mergeTyped typed') := by
  rw [like_shifted_iff] at h ht
  have hplaced : ∀ (vs : List Value) (e : Element) (o : Nat),
      vs.foldl addClass (e.placed o) = (vs.foldl addClass e).placed o := by
    intro vs
    induction vs with
    | nil => exact fun _ _ ↦ rfl
    | cons v vs ih =>
      exact fun e o ↦ by rw [List.foldl_cons, List.foldl_cons, Tree.addClass_placed, ih]
  have hplaced' : ∀ (as : List Attribute) (e : Element) (o : Nat),
      as.foldl putAttribute (e.placed o) = (as.foldl putAttribute e).placed o := by
    intro as
    induction as with
    | nil => exact fun _ _ ↦ rfl
    | cons a as ih => exact fun e o ↦ by rw [List.foldl_cons, List.foldl_cons, ← ih]; rfl
  have hor : ∀ o o' : Option Value, (o.map (Value.moved (· + d))).or (o'.map (Value.moved (· + d)))
      = (o.or o').map (Value.moved (· + d)) := by
    rintro (_ | v) (_ | w) <;> rfl
  rw [like_shifted_iff, h, ht]
  generalize f.offset = o
  generalize typed'.offset = o'
  have hmerged : ((typed.rewrite (shifter d k)).placed o').attributes.foldl putAttribute
      (((typed.rewrite (shifter d k)).placed o').classes.foldl addClass
        ((e.rewrite (shifter d k)).placed o))
      = ((typed.attributes.foldl putAttribute (typed.classes.foldl addClass e)).rewrite
          (shifter d k)).placed o := by
    rw [hplaced, hplaced']
    refine congrArg (Element.placed · o) ?_
    rw [← foldl_putAttribute_rewrite, ← foldl_addClass_rewrite]
    rfl
  rw [mergeTyped, hmerged, mergeTyped]
  simp only [placed, rewrite, shifter, hor]

theorem Node.mergeTyped_shifted {typed typed' : Element} (ht : typed.Like (.shifted d k) typed')
    (times : Option Multiplier) : ∀ {ns ms : List Node}, Node.AllLike (.shifted d k) ns ms →
    Node.AllLike (.shifted d k) (ns.map (Node.mergeTyped typed times))
      (ms.map (Node.mergeTyped typed' times))
  | _, _, .nil => .nil
  | _, _, .cons hn hns => by
    refine .cons ?_ (Node.mergeTyped_shifted ht times hns)
    cases hn with
    | element he htimes hc =>
      exact .element (Element.mergeTyped_shifted he ht) (congrArg times.or htimes) hc
    | text i j hv htimes => exact .text i j hv (congrArg times.or htimes)
    | group i j htimes hc => exact .group i j (congrArg times.or htimes) hc

/-- A supply with greater numbers. -/
structure Supply.Shifts (d k : Nat) (s t : Supply) : Prop where
  scope : t.scope = s.scope + d
  link : t.link = s.link + k

theorem linkAttributes_shifted (as : List Attribute) {s t : Supply} (h : s.Shifts d k t) :
    (linkAttributes (as.map (Attribute.shifted d k)) t).1
        = (linkAttributes as s).1.map (Attribute.shifted d k) ∧
      (linkAttributes as s).2.Shifts d k (linkAttributes (as.map (Attribute.shifted d k)) t).2 := by
  induction as generalizing s t with
  | nil => exact ⟨rfl, h⟩
  | cons a as ih =>
    rw [List.map_cons, linkAttributes, walk_cons, walk_cons]
    cases hl : a.link with
    | none =>
      have hl' : (a.shifted d k).link = none := by simp [Attribute.shifted, hl]
      obtain ⟨h₁, h₂⟩ :=
        ih (s := { s with link := s.link + 1 }) (t := { t with link := t.link + 1 })
        ⟨h.scope, by simp only [h.link]; omega⟩
      simp only [hl', Option.isSome_none, Bool.false_eq_true, if_false]
      refine ⟨?_, h₂⟩
      rw [linkAttributes] at h₁
      rw [h₁, h.link]
      rfl
    | some l =>
      have hl' : (a.shifted d k).link = some (l + k) := by simp [Attribute.shifted, hl]
      obtain ⟨h₁, h₂⟩ := ih h
      simp only [hl', Option.isSome_some, if_true]
      exact ⟨congrArg (a.shifted d k :: ·) h₁, h₂⟩

theorem Element.shared_shifted {typed typed' : Element} (ht : typed.Like (.shifted d k) typed')
    {tops tops' : List Node} (h : Node.AllLike (.shifted d k) tops tops') {s t : Supply}
    (hs : s.Shifts d k t) :
    (typed.shared tops s).1.Like (.shifted d k) (typed'.shared tops' t).1 ∧
      (typed.shared tops s).2.Shifts d k (typed'.shared tops' t).2 := by
  rw [shared, shared, ← h.elements_eq]
  split
  · exact ⟨ht, hs⟩
  · have hattributes := forall₂_eq_map.1 ht.attributes
    obtain ⟨h₁, h₂⟩ := linkAttributes_shifted typed.attributes hs
    rw [← hattributes] at h₁ h₂
    exact ⟨⟨ht.name, ht.id, ht.classes, forall₂_eq_map.2 h₁, ht.text, ht.selfClosing⟩, h₂⟩

/-- Merging puts on other numbers what it puts on these, only shifted. -/
theorem Node.mergeAll_shifted {typed typed' : Element} (ht : typed.Like (.shifted d k) typed')
    (times : Option Multiplier) {tops tops' : List Node}
    (h : Node.AllLike (.shifted d k) tops tops') {p q : Progress}
    (hpq : p.toSupply.Shifts d k q.toSupply) (hp : p.shown = []) (hq : q.shown = []) :
    Node.AllLike (.shifted d k) (Node.mergeAll typed times tops p).1
        (Node.mergeAll typed' times tops' q).1 ∧
      (Node.mergeAll typed times tops p).2.toSupply.Shifts d k
        (Node.mergeAll typed' times tops' q).2.toSupply := by
  rw [Node.mergeAll, Node.mergeAll, hp, hq, Element.current_nil, Element.current_nil]
  obtain ⟨hshared, hs⟩ := Element.shared_shifted ht h hpq
  exact ⟨Node.mergeTyped_shifted hshared times h, hs⟩

end Shift

/-! ## Hanging nodes into a tree -/

theorem Node.AllLike.getD_append {R : Likeness} {xs ys ns ms : List Node}
    (hx : Node.AllLike R xs ys) (h : Node.AllLike R ns ms) {o o' : Option (List Node)}
    (ho : Option.Rel (Node.AllLike R) o o') :
    Node.AllLike R (o.getD (ns ++ xs)) (o'.getD (ms ++ ys)) := by
  cases ho with
  | none => exact h.append hx
  | some hl => exact hl

mutual

theorem Node.Like.adopt {R : Likeness} {xs ys : List Node} (hx : Node.AllLike R xs ys) :
    ∀ {n m : Node}, n.Like R m → Option.Rel (Node.Like R) (n.adopt xs) (m.adopt ys)
  | _, _, .element he ht hc =>
    .some (.element he ht (hx.getD_append hc (Node.AllLike.adoptLast hx hc)))
  | _, _, .text _ _ _ _ => .none
  | _, _, .group i j ht hc =>
    .some (.group i j ht (hx.getD_append hc (Node.AllLike.adoptLast hx hc)))

/-- Nodes that are alike hang in trees that are alike. -/
theorem Node.AllLike.adoptLast {R : Likeness} {xs ys : List Node} (hx : Node.AllLike R xs ys) :
    ∀ {ns ms : List Node}, Node.AllLike R ns ms →
      Option.Rel (Node.AllLike R) (Node.adoptLast xs ns) (Node.adoptLast ys ms)
  | _, _, .nil => .none
  | _, _, .cons hn .nil => by
    have hl := Node.Like.adopt hx hn
    rw [Node.adoptLast, Node.adoptLast]
    revert hl
    cases Node.adopt xs _ <;> cases Node.adopt ys _ <;> intro hl <;> cases hl
    · exact .none
    · exact .some (.singleton ‹_›)
  | _, _, .cons hn (.cons hm hns) => by
    have hl := Node.AllLike.adoptLast hx (.cons hm hns)
    rw [Node.adoptLast, Node.adoptLast]
    revert hl
    cases Node.adoptLast xs _ <;> cases Node.adoptLast ys _ <;> intro hl <;> cases hl
    · exact .none
    · exact .some (.cons hn ‹_›)

end

/-! ## Expanding -/

theorem Value.moved_of_unscoped {v : Value} (h : Value.Unscoped v) (f : Nat → Nat) :
    Value.moved f v = v := by
  refine (List.map_congr_left fun p hp ↦ ?_).trans (List.map_id v)
  cases p with
  | text s => rfl
  | field g =>
    obtain ⟨i, placeholder, scope⟩ := g
    obtain rfl : scope = 0 := h _ (Value.mem_fields.2 hp)
    rfl

/-- A tree as it was read is shifted if it is read elsewhere. -/
theorem Node.AllLike.shifted_of_typed {ns ms : List Node} (hns : Node.AllTyped ns)
    (h : Node.AllLike .same ns ms) (d k : Nat) : Node.AllLike (.shifted d k) ns ms := by
  refine Node.AllLike.mono_of_regular ?_ ?_ ?_ hns h
  · rintro v _ hv rfl
    exact (Value.moved_of_unscoped hv _).symm
  · rintro ⟨name, value, link⟩ _ ha rfl
    obtain rfl : link = none := ha.1
    exact (congrArg (Attribute.mk name · none) (Value.moved_of_unscoped ha.2 _)).symm
  · exact fun _ _ ht ↦ ht

/-- Expansion succeeds from a progress with greater numbers too, and its outcome is shifted. -/
def Snippet.Shifts (d k : Nat) (f : Progress → Except Failure (List Node × Progress)) : Prop :=
  ∀ p q r, 0 < p.scope → p.shown = [] → q.shown = [] → p.toSupply.Shifts d k q.toSupply →
    f p = .ok r → ∃ r', f q = .ok r' ∧ r.2.toSupply.Shifts d k r'.2.toSupply ∧
      Node.AllLike (.shifted d k) r.1 r'.1

namespace Snippet

section Expanding

variable {snippet : Expander} {table : Table String} {d k : Nat}

theorem find?_eq {R : Likeness} {e f : Element} (h : e.Like R f) :
    find? table e = find? table f := by
  rw [find?, find?, h.name]

mutual

theorem expandNode_shifts
    (hgives : ∀ key text p r, p.shown = [] → snippet key text p = .ok r → Gives p.scope p r)
    (hshifts : ∀ key text, Shifts d k (snippet key text)) :
    ∀ {n m : Node} {p q : Progress} {r : List Node × Progress}, n.Like (.shifted d k) m →
      Plain 0 p.scope n → Plain 0 q.scope m → 0 < p.scope → p.shown = [] → q.shown = [] →
      p.toSupply.Shifts d k q.toSupply → expandNode snippet table n p = .ok r →
      ∃ r', expandNode snippet table m q = .ok r' ∧ r.2.toSupply.Shifts d k r'.2.toSupply ∧
        Node.AllLike (.shifted d k) r.1 r'.1
  | _, _, p, q, r, .text i j hv ht, _, _, _, _, _, hpq, h => by
    cases h
    exact ⟨_, rfl, hpq, .singleton (.text i j hv ht)⟩
  | _, _, p, q, r, .group i j ht hc, .group _ _ hn, .group _ _ hm, h0, hp, hq, hpq, h => by
    obtain ⟨r₁, h₁, h⟩ := bind_eq_ok_iff.1 h
    cases h
    obtain ⟨r₁', h₁', hs, hlike⟩ := expandNodes_shifts hgives hshifts hc hn hm h0 hp hq hpq h₁
    exact ⟨_, bind_eq_ok_iff.2 ⟨_, h₁', rfl⟩, hs, .singleton (.group i j ht hlike)⟩
  | _, _, p, q, r, .element (e := e) (f := f) (t := t) he ht hc, .element hn hnt hnc,
      .element hm _ hmc, h0, hp, hq, hpq, h => by
    rw [expandNode] at h ⊢
    rw [← find?_eq he]
    split at h
    next hfind =>
      obtain ⟨r₁, h₁, h⟩ := bind_eq_ok_iff.1 h
      cases h
      obtain ⟨r₁', h₁', hs, hlike⟩ := expandNodes_shifts hgives hshifts hc hnc hmc h0 hp hq hpq h₁
      exact ⟨_, bind_eq_ok_iff.2 ⟨_, h₁', rfl⟩, hs, .singleton (.element he ht hlike)⟩
    next key text hfind =>
      obtain ⟨⟨tops, p₁⟩, h₁, h⟩ := bind_eq_ok_iff.1 h
      obtain ⟨⟨below, p₃⟩, h₃, h⟩ := bind_eq_ok_iff.1 h
      cases h
      obtain ⟨⟨tops', q₁⟩, h₁', hs₁, hlike₁⟩ := hshifts key text p q _ h0 hp hq hpq h₁
      obtain rfl : t = _ := ht
      have hgp := hgives key text p _ hp h₁
      have hgq := hgives key text q _ hq h₁'
      have hfirst : ∀ p : Progress, Supply.Le ⟨0, p.link⟩ p.toSupply :=
        fun p ↦ ⟨Nat.zero_le _, Nat.le_refl _⟩
      obtain ⟨-, hlep, hp₂⟩ :=
        Node.mergeAll_instances (hfirst p) hgp.le hn hnt hgp.instances hgp.shown
      obtain ⟨-, hleq, hq₂⟩ :=
        Node.mergeAll_instances (hfirst q) hgq.le hm hnt hgq.instances hgq.shown
      obtain ⟨hmerged, hs₂⟩ := Node.mergeAll_shifted he t hlike₁ hs₁ hgp.shown hgq.shown
      have hscopep := Nat.le_trans hgp.le.scope hlep.scope
      have hscopeq := Nat.le_trans hgq.le.scope hleq.scope
      obtain ⟨⟨below', q₃⟩, h₃', hs₃, hlike₃⟩ := expandNodes_shifts hgives hshifts hc
        (AllPlain.mono hscopep hnc) (AllPlain.mono hscopeq hmc) (Nat.lt_of_lt_of_le h0 hscopep)
        hp₂ hq₂ hs₂ h₃
      exact ⟨_, bind_eq_ok_iff.2 ⟨_, h₁', bind_eq_ok_iff.2 ⟨_, h₃', rfl⟩⟩, hs₃,
        hlike₃.getD_append hmerged (Node.AllLike.adoptLast hlike₃ hmerged)⟩

theorem expandNodes_shifts
    (hgives : ∀ key text p r, p.shown = [] → snippet key text p = .ok r → Gives p.scope p r)
    (hshifts : ∀ key text, Shifts d k (snippet key text)) :
    ∀ {ns ms : List Node} {p q : Progress} {r : List Node × Progress},
      Node.AllLike (.shifted d k) ns ms →
      AllPlain 0 p.scope ns → AllPlain 0 q.scope ms → 0 < p.scope → p.shown = [] → q.shown = [] →
      p.toSupply.Shifts d k q.toSupply → expandNodes snippet table ns p = .ok r →
      ∃ r', expandNodes snippet table ms q = .ok r' ∧ r.2.toSupply.Shifts d k r'.2.toSupply ∧
        Node.AllLike (.shifted d k) r.1 r'.1
  | _, _, p, q, r, .nil, _, _, _, _, _, hpq, h => by
    cases h
    exact ⟨_, rfl, hpq, .nil⟩
  | _, _, p, q, r, .cons hn hns, .cons hrn hrns, .cons hrm hrms, h0, hp, hq, hpq, h => by
    obtain ⟨r₁, h₁, h⟩ := bind_eq_ok_iff.1 h
    obtain ⟨r₂, h₂, h⟩ := bind_eq_ok_iff.1 h
    cases h
    obtain ⟨r₁', h₁', hs₁, hlike₁⟩ := expandNode_shifts hgives hshifts hn hrn hrm h0 hp hq hpq h₁
    have hgp := expandNode_gives hgives _ (Nat.zero_le _) hp hrn h₁
    have hgq := expandNode_gives hgives _ (Nat.zero_le _) hq hrm h₁'
    obtain ⟨r₂', h₂', hs₂, hlike₂⟩ := expandNodes_shifts hgives hshifts hns
      (AllPlain.mono hgp.le.scope hrns) (AllPlain.mono hgq.le.scope hrms)
      (Nat.lt_of_lt_of_le h0 hgp.le.scope) hgp.shown hgq.shown hs₁ h₂
    exact ⟨_, bind_eq_ok_iff.2 ⟨_, h₁', bind_eq_ok_iff.2 ⟨_, h₂', rfl⟩⟩, hs₂, hlike₁.append hlike₂⟩

end

end Expanding

/-- The fields of an instance come into a scope that is shifted with the instance. -/
theorem inScope_shifted {scope : Nat} (h0 : 0 < scope) (d k : Nat) {nodes : List Node}
    (h : Node.AllTyped nodes) :
    Node.AllLike (.shifted d k) (inScope scope nodes) (inScope (scope + d) nodes) := by
  have hmap : ∀ scope, Node.AllLike
      { value := fun v w ↦ w = v.mapScope fun _ ↦ scope
        attr := fun a b ↦ b = { a with value := a.value.mapScope fun _ ↦ scope }
        times := fun t u ↦ t = u } nodes (inScope scope nodes) := by
    intro scope
    rw [inScope_eq]
    exact Node.allLike_rewriteAll (fun _ ↦ rfl) (fun _ ↦ rfl) (fun _ ↦ rfl) (fun _ ↦ rfl) nodes
  have hvalue : ∀ v : Value,
      v.mapScope (fun _ ↦ scope + d) = Value.moved (· + d) (v.mapScope fun _ ↦ scope) := by
    intro v
    rw [Value.moved, Value.mapScope, Value.mapScope, Value.mapScope, List.map_map]
    refine List.map_congr_left fun p _ ↦ ?_
    cases p with
    | text s => rfl
    | field g => simp [Nat.pos_iff_ne_zero.1 h0]
  refine Node.AllLike.mono_of_regular ?_ ?_ ?_ (plain_inScope scope h)
    ((hmap scope).flip.comp (hmap (scope + d)))
  · rintro _ _ - ⟨v, rfl, rfl⟩
    exact hvalue v
  · rintro _ _ ha ⟨⟨name, value, link⟩, rfl, rfl⟩
    obtain rfl : link = none := ha.1
    exact congrArg (Attribute.mk name · none) (hvalue value)
  · rintro _ _ ⟨t, rfl, rfl⟩
    rfl

theorem expander_shifts_of {depth d k : Nat}
    (h : ∀ (table : Table String) (ns ms : List Node) (p q : Progress) (r : List Node × Progress),
      Node.AllLike (.shifted d k) ns ms → AllPlain 0 p.scope ns → AllPlain 0 q.scope ms →
      0 < p.scope → p.shown = [] → q.shown = [] → p.toSupply.Shifts d k q.toSupply →
      expandTo depth table ns p = .ok r → ∃ r', expandTo depth table ms q = .ok r' ∧
        r.2.toSupply.Shifts d k r'.2.toSupply ∧ Node.AllLike (.shifted d k) r.1 r'.1)
    (table : Table String) (key text : String) : Shifts d k (expander depth table key text) := by
  intro p q r h0 hp hq hpq hr
  obtain ⟨parsed, hparsed, hr⟩ := bind_eq_ok_iff.1 hr
  have htyped := Tree.typed_of_parse hparsed
  have hplain : ∀ scope, AllPlain 0 (scope + 1) (inScope scope parsed) := fun scope ↦
    Node.AllRegular.mono (fun _ hv ↦ hv.mono (Nat.zero_le _) (Nat.le_refl _))
      (fun _ ha ↦ ⟨ha.1, ha.2.mono (Nat.zero_le _) (Nat.le_refl _)⟩) (plain_inScope scope htyped)
  have hlike := inScope_shifted h0 d k htyped
  rw [← hpq.scope] at hlike
  have hnext : Supply.Shifts d k ⟨p.scope + 1, p.link⟩ ⟨q.scope + 1, q.link⟩ :=
    ⟨by rw [hpq.scope]; exact Nat.add_right_comm _ _ _, hpq.link⟩
  obtain ⟨r', hr', hs, hout⟩ := h _ _ _ { p with scope := p.scope + 1 }
    { q with scope := q.scope + 1 } r hlike (hplain _) (hplain _) (Nat.succ_pos _) hp hq hnext hr
  exact ⟨r', bind_eq_ok_iff.2 ⟨parsed, hparsed, hr'⟩, hs, hout⟩

/-- **Expansion from a later progress.**  What is expanded is shifted, if that with which it begins
is. -/
theorem expandTo_shifts (depth d k : Nat) (table : Table String) (ns ms : List Node)
    (p q : Progress) (r : List Node × Progress) (hlike : Node.AllLike (.shifted d k) ns ms)
    (hns : AllPlain 0 p.scope ns) (hms : AllPlain 0 q.scope ms) (h0 : 0 < p.scope)
    (hp : p.shown = []) (hq : q.shown = []) (hpq : p.toSupply.Shifts d k q.toSupply)
    (h : expandTo depth table ns p = .ok r) :
    ∃ r', expandTo depth table ms q = .ok r' ∧ r.2.toSupply.Shifts d k r'.2.toSupply ∧
      Node.AllLike (.shifted d k) r.1 r'.1 := by
  induction depth generalizing table ns ms p q r with
  | zero =>
    cases h
    exact ⟨_, rfl, hpq, hlike⟩
  | succ depth ih =>
    exact expandNodes_shifts (fun key text p r ↦ expander_gives depth table key text p r)
      (expander_shifts_of ih table) hlike hns hms h0 hp hq hpq h

/-! ## Groups in a row -/

/-- Groups in a row from the `i`th on, of which each holds the tree shifted once more. -/
inductive Successive (tree : List Node) (x y : Nat) : Nat → List Node → Prop where
  | nil (i : Nat) : Successive tree x y i []
  | cons {i : Nat} {ns groups : List Node} (offset : Nat)
      (hns : Node.AllLike (.shifted (i * x) (i * y)) tree ns)
      (hrest : Successive tree x y (i + 1) groups) :
      Successive tree x y i (.group ns none offset :: groups)

/-- A group with what was typed before holds the same tree, shifted by what was given out since. -/
theorem expandNode_group {depth d k : Nat} {table : Table String} {raw ns : List Node}
    {p q : Progress} {r : List Node × Progress} (hraw : Node.AllTyped raw) (hns : Node.AllTyped ns)
    (hlike : Node.AllLike .same raw ns) (h0 : 0 < p.scope) (hp : p.shown = []) (hq : q.shown = [])
    (hpq : p.toSupply.Shifts d k q.toSupply)
    (h : expandNodes (expander depth table) table raw p = .ok r) (times : Option Multiplier)
    (offset : Nat) :
    ∃ ms q', expandNode (expander depth table) table (.group ns times offset) q
        = .ok ([.group ms times offset], q') ∧
      q'.shown = [] ∧ r.2.toSupply.Shifts d k q'.toSupply ∧ Node.AllLike (.shifted d k) r.1 ms := by
  obtain ⟨⟨ms, q'⟩, hr', hs, hms⟩ := expandTo_shifts (depth + 1) d k table raw ns p q r
    (hlike.shifted_of_typed hraw d k) (plain_of_typed _ _ hraw) (plain_of_typed _ _ hns) h0 hp hq
    hpq h
  have hgives := expandTo_gives (depth + 1) 0 table ns q _ (Nat.zero_le _) hq
    (plain_of_typed _ _ hns) hr'
  exact ⟨ms, q', bind_eq_ok_iff.2 ⟨_, hr', rfl⟩, hgives.shown, hs, hms⟩

/-- Groups with what was typed before hold the same tree, each shifted once more. -/
theorem expandNodes_successive {depth x y : Nat} {table : Table String} {raw : List Node}
    {p : Progress} {r : List Node × Progress} (hraw : Node.AllTyped raw) (h0 : 0 < p.scope)
    (hp : p.shown = []) (hxy : p.toSupply.Shifts x y r.2.toSupply)
    (h : expandNodes (expander depth table) table raw p = .ok r) (groups : List Node)
    (hgroups : ∀ g ∈ groups, ∃ ns offset, g = .group ns none offset ∧ Node.AllTyped ns ∧
      Node.AllLike .same raw ns) (i : Nat) (q : Progress) (hq : q.shown = [])
    (hpq : p.toSupply.Shifts (i * x) (i * y) q.toSupply) :
    ∃ groups' q', expandNodes (expander depth table) table groups q = .ok (groups', q') ∧
      groups'.length = groups.length ∧ Successive r.1 x y i groups' := by
  induction groups generalizing i q with
  | nil => exact ⟨[], q, rfl, rfl, .nil i⟩
  | cons g groups ih =>
    obtain ⟨⟨ns, offset, rfl, hns, hlike⟩, hrest⟩ := List.forall_mem_cons.1 hgroups
    obtain ⟨ms, q₁, h₁, hq₁, hs₁, hms⟩ :=
      expandNode_group hraw hns hlike h0 hp hq hpq h none offset
    have hnext : p.toSupply.Shifts ((i + 1) * x) ((i + 1) * y) q₁.toSupply := by
      refine ⟨?_, ?_⟩
      · rw [hs₁.scope, hxy.scope, Nat.succ_mul]
        omega
      · rw [hs₁.link, hxy.link, Nat.succ_mul]
        omega
    obtain ⟨groups', q', h₂, hlen, hsucc⟩ := ih hrest (i + 1) q₁ hq₁ hnext
    exact ⟨.group ms none offset :: groups', q', bind_eq_ok_iff.2 ⟨_, h₁, bind_eq_ok_iff.2
      ⟨_, h₂, rfl⟩⟩, congrArg Nat.succ hlen, .cons offset hms hsucc⟩

end Snippet

end Shorthand.Markup
