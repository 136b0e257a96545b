import Shorthand.Markup.Copies
import Shorthand.Proofs.Likeness
import Mathlib.Logic.Function.Iterate

/-!
# What a copy renames

A copy of a node gets links and scopes of its own.  Both come from a renaming, which gives out new
numbers as it meets old ones and is injective.

For links this is all.  Fields are moved attribute by attribute, and an attribute that is shown in
several places is met once for each of them, every time with the scopes that it has just got.  So
the fields of an attribute that is shown in `m` places are moved `m` times.

* `Renaming.Fresh` : what is known of a renaming that began at a given number.
* `Node.relink_spec` : copies have links of their own.
* `Node.rescope_spec` : copies have scopes of their own; an attribute is moved as many times as it
  is shown.
-/

set_option autoImplicit false

namespace Shorthand.Markup

/-! ## Renamings -/

namespace Renaming

/-- A renaming that gave out the numbers from `first` on, to every old number another one. -/
structure Fresh (first : Nat) (r : Renaming) : Prop where
  first_le : first ≤ r.next
  range : ∀ old new, r.known.lookup old = some new → first ≤ new ∧ new < r.next
  inj : ∀ old old' new, r.known.lookup old = some new → r.known.lookup old' = some new → old = old'

/-- A renaming after it has met more. -/
structure Extends (r s : Renaming) : Prop where
  next_le : r.next ≤ s.next
  known : ∀ old new, r.known.lookup old = some new → s.known.lookup old = some new

theorem Extends.refl (r : Renaming) : r.Extends r := ⟨Nat.le_refl _, fun _ _ h ↦ h⟩

theorem Extends.trans {r s t : Renaming} (h : r.Extends s) (h' : s.Extends t) : r.Extends t :=
  ⟨Nat.le_trans h.next_le h'.next_le, fun _ _ hk ↦ h'.known _ _ (h.known _ _ hk)⟩

theorem fresh_nil (first : Nat) : Fresh first ⟨first, []⟩ where
  first_le := Nat.le_refl _
  range _ _ h := by simp at h
  inj _ _ _ h := by simp at h

/-- Meeting an old number. -/
theorem image_spec {first : Nat} {r : Renaming} (h : r.Fresh first) (old : Nat) :
    (r.image old).2.Fresh first ∧ r.Extends (r.image old).2 ∧
      (r.image old).2.known.lookup old = some (r.image old).1 := by
  rw [image]
  cases hk : r.known.lookup old with
  | some new => exact ⟨h, .refl r, hk⟩
  | none =>
    have hcons : ∀ o, ((old, r.next) :: r.known).lookup o
        = if o = old then some r.next else r.known.lookup o := by
      intro o
      rw [List.lookup_cons]
      by_cases ho : o = old
      · simp [ho]
      · simp [ho, beq_false_of_ne ho]
    refine ⟨⟨?_, ?_, ?_⟩, ⟨Nat.le_succ _, ?_⟩, ?_⟩
    · exact Nat.le_succ_of_le h.first_le
    · intro o new hn
      simp only [hcons] at hn
      split at hn
      · obtain rfl := Option.some.inj hn
        exact ⟨h.first_le, Nat.lt_succ_self _⟩
      · exact ⟨(h.range o new hn).1, Nat.lt_succ_of_lt (h.range o new hn).2⟩
    · intro o o' new hn hn'
      simp only [hcons] at hn hn'
      split at hn <;> split at hn'
      next ho ho' => rw [ho, ho']
      next ho ho' =>
        obtain rfl := Option.some.inj hn
        exact absurd (h.range o' _ hn').2 (Nat.lt_irrefl _)
      next ho ho' =>
        obtain rfl := Option.some.inj hn'
        exact absurd (h.range o _ hn).2 (Nat.lt_irrefl _)
      next => exact h.inj o o' new hn hn'
    · intro o new hn
      simp only [hcons]
      rw [if_neg, hn]
      rintro rfl
      rw [hk] at hn
      cases hn
    · simp [hcons]

/-- The renaming as a function: what was never met is sent past everything that was given out. -/
def toFun (r : Renaming) (old : Nat) : Nat := (r.known.lookup old).getD (old + r.next)

theorem toFun_of_lookup {r : Renaming} {old new : Nat} (h : r.known.lookup old = some new) :
    r.toFun old = new := by
  rw [toFun, h]
  rfl

theorem Fresh.le_toFun {first : Nat} {r : Renaming} (h : r.Fresh first) (old : Nat) :
    first ≤ r.toFun old := by
  rw [toFun]
  cases hk : r.known.lookup old with
  | some new => exact (h.range old new hk).1
  | none => exact Nat.le_trans h.first_le (Nat.le_add_left _ _)

theorem Fresh.toFun_injective {first : Nat} {r : Renaming} (h : r.Fresh first) :
    Function.Injective r.toFun := by
  intro o o' he
  rw [toFun, toFun] at he
  cases hk : r.known.lookup o with
  | some new =>
    cases hk' : r.known.lookup o' with
    | some new' =>
      obtain rfl : new = new' := by simpa [hk, hk'] using he
      exact h.inj o o' new hk hk'
    | none =>
      have := (h.range o new hk).2
      simp only [hk, hk', Option.getD_some, Option.getD_none] at he
      omega
  | none =>
    cases hk' : r.known.lookup o' with
    | some new' =>
      have := (h.range o' new' hk').2
      simp only [hk, hk', Option.getD_some, Option.getD_none] at he
      omega
    | none =>
      simp only [hk, hk', Option.getD_none] at he
      omega

end Renaming

/-! ## Links -/

/-- What a copy with new links differs in. -/
def Likeness.relinked (r : Renaming) : Likeness where
  value v w := v = w
  attr a b := a.name = b.name ∧ a.value = b.value ∧
    Option.Rel (fun old new ↦ r.known.lookup old = some new) a.link b.link
  times t u := t = u

/-- The visitor that gives new links. -/
def relinker : Visitor Renaming where
  value v r := (v, r)
  attr a r :=
    match a.link with
    | none => (a, r)
    | some link =>
      let (link, r) := r.image link
      ({ a with link := some link }, r)

theorem Node.relink_eq (nodes : List Node) (next : Nat) :
    Node.relink nodes next = ((Node.visitAll (fun _ ↦ relinker) nodes ⟨next, []⟩).1,
      (Node.visitAll (fun _ ↦ relinker) nodes ⟨next, []⟩).2.next) := rfl

/-- Copies have links of their own. -/
theorem Node.relink_spec (nodes : List Node) (next : Nat) :
    ∃ r : Renaming, r.Fresh next ∧ (Node.relink nodes next).2 = r.next ∧
      Node.AllLike (.relinked r) nodes (Node.relink nodes next).1 := by
  have h : relinker.Yields (Renaming.Fresh next) Renaming.Extends Likeness.relinked :=
    { refl := .refl
      trans := fun _ _ _ ↦ .trans
      mono := fun r s hrs ↦
        ⟨fun _ _ h ↦ h, fun _ _ h ↦ ⟨h.1, h.2.1, optionRel_imp hrs.known h.2.2⟩, fun _ _ h ↦ h⟩
      times := fun _ _ ↦ rfl
      name := fun _ ↦ rfl
      value := fun _ r hr ↦ ⟨hr, .refl r, rfl⟩
      attr := by
        intro a r hr
        dsimp only [relinker]
        cases hl : a.link with
        | none => exact ⟨hr, .refl r, rfl, rfl, by rw [hl]; exact .none⟩
        | some link =>
          obtain ⟨hfresh, hext, hk⟩ := Renaming.image_spec hr link
          exact ⟨hfresh, hext, rfl, rfl, by rw [hl]; exact .some hk⟩ }
  obtain ⟨hr, -, hlike⟩ := h.nodes nodes ⟨next, []⟩ (Renaming.fresh_nil next)
  rw [Node.relink_eq]
  exact ⟨_, hr, rfl, hlike⟩

/-! ## Fields -/

/-- A value with its snippet fields in other scopes. -/
def Value.moved (f : Nat → Nat) (v : Value) : Value := v.mapScope fun s ↦ if s = 0 then 0 else f s

/-- All fields of a value are in scopes below a number. -/
def Value.Below (n : Nat) (v : Value) : Prop := ∀ f ∈ v.fields, f.scope < n

theorem Value.Below.mono {n m : Nat} {v : Value} (hnm : n ≤ m) (h : Value.Below n v) :
    Value.Below m v :=
  fun f hf ↦ Nat.lt_of_lt_of_le (h f hf) hnm

namespace Renaming

/-- Moving a value grows the renaming, to scopes below its next number; once the renaming has grown
to `final`, the value was moved by `final`. -/
theorem moveValue_spec {first : Nat} {r : Renaming} (hfirst : 0 < first) (h : r.Fresh first)
    (v : Value) :
    (r.moveValue v).2.Fresh first ∧ r.Extends (r.moveValue v).2 ∧
      Value.Below (r.moveValue v).2.next (r.moveValue v).1 ∧
      ∀ final, (r.moveValue v).2.Extends final → (r.moveValue v).1 = Value.moved final.toFun v := by
  induction v generalizing r with
  | nil => exact ⟨h, .refl r, by simp [moveValue, Value.Below, Value.fields], fun _ _ ↦ rfl⟩
  | cons p v ih =>
    cases p with
    | text s =>
      obtain ⟨hf, he, hb, hm⟩ := ih h
      exact ⟨hf, he, hb, fun final hfinal ↦ congrArg (Part.text s :: ·) (hm final hfinal)⟩
    | field f =>
      by_cases h0 : f.scope = 0
      · obtain ⟨hf, he, hb, hm⟩ := ih h
        have hmove : r.moveValue (.field f :: v)
            = (.field f :: (r.moveValue v).1, (r.moveValue v).2) := by
          rw [moveValue, walk_cons]
          simp [h0]
        rw [hmove]
        refine ⟨hf, he, ?_, fun final hfinal ↦ ?_⟩
        · have hpos := Nat.lt_of_lt_of_le hfirst hf.first_le
          intro g hg
          replace hg : g ∈ f :: Value.fields (r.moveValue v).1 := hg
          rcases List.mem_cons.1 hg with rfl | hg
          · rwa [h0]
          · exact hb g hg
        · rw [hm final hfinal]
          obtain ⟨index, placeholder, scope⟩ := f
          obtain rfl : scope = 0 := h0
          rfl
      · obtain ⟨hfresh, hext, hk⟩ := image_spec h f.scope
        obtain ⟨hf, he, hb, hm⟩ := ih hfresh
        have hmove : r.moveValue (.field f :: v)
            = (.field { f with scope := (r.image f.scope).1 } ::
                ((r.image f.scope).2.moveValue v).1, ((r.image f.scope).2.moveValue v).2) := by
          rw [moveValue, walk_cons]
          simp [h0]
        rw [hmove]
        refine ⟨hf, hext.trans he, ?_, fun final hfinal ↦ ?_⟩
        · have hlt := Nat.lt_of_lt_of_le (hfresh.range _ _ hk).2 he.next_le
          intro g hg
          rcases List.mem_cons.1
            (show g ∈ _ :: Value.fields ((r.image f.scope).2.moveValue v).1 from hg) with rfl | hg
          · exact hlt
          · exact hb g hg
        · rw [hm final hfinal, ← toFun_of_lookup (hfinal.known _ _ (he.known _ _ hk))]
          simp [Value.moved, Value.mapScope, h0]

end Renaming

/-! ## Moving the fields of a tree -/

/-- The visitor that moves fields. -/
def rescoper : Visitor (Renaming × Shown) where
  value v s :=
    let (v, r) := s.1.moveValue v
    (v, (r, s.2))
  attr a s :=
    let a := a.current s.2
    let (value, r) := s.1.moveValue a.value
    let a := { a with value }
    (a, (r, a.note s.2))

theorem Node.rescope_eq (nodes : List Node) (next : Nat) :
    Node.rescope nodes next
      = (Node.settle (Node.visitAll (fun _ ↦ rescoper) nodes (⟨next, []⟩, [])).2.2
          (Node.visitAll (fun _ ↦ rescoper) nodes (⟨next, []⟩, [])).1,
        (Node.visitAll (fun _ ↦ rescoper) nodes (⟨next, []⟩, [])).2.1.next) := rfl

/-- The map that moves the fields of a value. -/
def mover (f : Nat → Nat) : Mapper where
  value := Value.moved f
  attr a := { a with value := Value.moved f a.value }

/-- Moving with a renaming that grows does what moving with the renaming in the end does. -/
def Follows {α β : Type} (first : Nat) (f : α → Renaming × Shown → β × (Renaming × Shown))
    (g : Renaming → α → Shown → β × Shown) : Prop :=
  ∀ a s, s.1.Fresh first →
    (f a s).2.1.Fresh first ∧ s.1.Extends (f a s).2.1 ∧
      ∀ final, (f a s).2.1.Extends final → g final a s.2 = ((f a s).1, (f a s).2.2)

section Follows

variable {first : Nat}

theorem follows_value (hfirst : 0 < first) :
    Follows first rescoper.value fun final ↦ (mover final.toFun).sharing.value := by
  intro v s hs
  obtain ⟨hf, he, -, hm⟩ := Renaming.moveValue_spec hfirst hs v
  exact ⟨hf, he, fun final hfinal ↦ congrArg (·, s.2) (hm final hfinal).symm⟩

theorem follows_attr (hfirst : 0 < first) :
    Follows first rescoper.attr fun final ↦ (mover final.toFun).sharing.attr := by
  intro a s hs
  obtain ⟨hf, he, -, hm⟩ := Renaming.moveValue_spec hfirst hs (a.current s.2).value
  refine ⟨hf, he, fun final hfinal ↦ ?_⟩
  have hvalue := hm final hfinal
  simp only [rescoper, Mapper.sharing, mover, hvalue]

theorem Follows.walk {α β : Type} {f : α → Renaming × Shown → β × (Renaming × Shown)}
    {g : Renaming → α → Shown → β × Shown} (h : Follows first f g) :
    Follows first (walk f) fun final ↦ walk (g final) := by
  intro as
  induction as with
  | nil => exact fun s hs ↦ ⟨hs, .refl s.1, fun _ _ ↦ rfl⟩
  | cons a as ih =>
    intro s hs
    obtain ⟨hf₁, he₁, hg₁⟩ := h a s hs
    obtain ⟨hf₂, he₂, hg₂⟩ := ih (f a s).2 hf₁
    refine ⟨hf₂, he₁.trans he₂, fun final hfinal ↦ ?_⟩
    simp only [walk_cons, hg₁ final (he₂.trans hfinal), hg₂ final hfinal]

theorem Follows.walkOption {α β : Type} {f : α → Renaming × Shown → β × (Renaming × Shown)}
    {g : Renaming → α → Shown → β × Shown} (h : Follows first f g) :
    Follows first (walkOption f) fun final ↦ walkOption (g final) := by
  intro o s hs
  cases o with
  | none => exact ⟨hs, .refl s.1, fun _ _ ↦ rfl⟩
  | some a =>
    obtain ⟨hf, he, hg⟩ := h a s hs
    refine ⟨hf, he, fun final hfinal ↦ ?_⟩
    simp only [Markup.walkOption, hg final hfinal]

theorem follows_element (hfirst : 0 < first) :
    Follows first (fun e ↦ Element.visit rescoper e)
      fun final e ↦ e.visit (mover final.toFun).sharing := by
  intro e s hs
  have hvalue := follows_value hfirst
  obtain ⟨f₁, e₁, g₁⟩ := hvalue.walkOption e.id s hs
  obtain ⟨f₂, e₂, g₂⟩ := hvalue.walk e.classes _ f₁
  obtain ⟨f₃, e₃, g₃⟩ := (follows_attr hfirst).walk e.attributes _ f₂
  obtain ⟨f₄, e₄, g₄⟩ := hvalue.walkOption e.text _ f₃
  refine ⟨f₄, e₁.trans (e₂.trans (e₃.trans e₄)), fun final hfinal ↦ ?_⟩
  have h₃ := e₄.trans hfinal
  have h₂ := e₃.trans h₃
  simp only [Element.visit, g₁ final (e₂.trans h₂), g₂ final h₂, g₃ final h₃, g₄ final hfinal]
  rfl

mutual

theorem follows_node (hfirst : 0 < first) (n : Node) (s : Renaming × Shown)
    (hs : s.1.Fresh first) :
    (n.visit (fun _ ↦ rescoper) s).2.1.Fresh first ∧
      s.1.Extends (n.visit (fun _ ↦ rescoper) s).2.1 ∧
      ∀ final, (n.visit (fun _ ↦ rescoper) s).2.1.Extends final →
        n.visit (fun _ ↦ (mover final.toFun).sharing) s.2
          = ((n.visit (fun _ ↦ rescoper) s).1, (n.visit (fun _ ↦ rescoper) s).2.2) := by
  cases n with
  | element e times children =>
    obtain ⟨f₁, e₁, g₁⟩ := follows_element hfirst e s hs
    obtain ⟨f₂, e₂, g₂⟩ := follows_nodes hfirst children _ f₁
    refine ⟨f₂, e₁.trans e₂, fun final hfinal ↦ ?_⟩
    simp only [Node.visit, g₁ final (e₂.trans hfinal), g₂ final hfinal]
  | text v times offset =>
    obtain ⟨f₁, e₁, g₁⟩ := follows_value hfirst v s hs
    refine ⟨f₁, e₁, fun final hfinal ↦ ?_⟩
    simp only [Node.visit, g₁ final hfinal]
  | group children times offset =>
    obtain ⟨f₁, e₁, g₁⟩ := follows_nodes hfirst children s hs
    refine ⟨f₁, e₁, fun final hfinal ↦ ?_⟩
    simp only [Node.visit, g₁ final hfinal]

theorem follows_nodes (hfirst : 0 < first) (ns : List Node) (s : Renaming × Shown)
    (hs : s.1.Fresh first) :
    (Node.visitAll (fun _ ↦ rescoper) ns s).2.1.Fresh first ∧
      s.1.Extends (Node.visitAll (fun _ ↦ rescoper) ns s).2.1 ∧
      ∀ final, (Node.visitAll (fun _ ↦ rescoper) ns s).2.1.Extends final →
        Node.visitAll (fun _ ↦ (mover final.toFun).sharing) ns s.2
          = ((Node.visitAll (fun _ ↦ rescoper) ns s).1,
              (Node.visitAll (fun _ ↦ rescoper) ns s).2.2) := by
  cases ns with
  | nil => exact ⟨hs, .refl s.1, fun _ _ ↦ rfl⟩
  | cons n ns =>
    obtain ⟨f₁, e₁, g₁⟩ := follows_node hfirst n s hs
    obtain ⟨f₂, e₂, g₂⟩ := follows_nodes hfirst ns _ f₁
    refine ⟨f₂, e₁.trans e₂, fun final hfinal ↦ ?_⟩
    simp only [Node.visitAll, g₁ final (e₂.trans hfinal), g₂ final hfinal]

end

end Follows

/-! ### Attributes that are shown in several places -/

/-- Attributes with one link are one attribute. -/
def Node.Consistent (nodes : List Node) : Prop :=
  ∀ p ∈ Node.allPlaces nodes, ∀ q ∈ Node.allPlaces nodes, ∀ link,
    p.2.link = some link → q.2.link = some link → p.2 = q.2

/-- The number of places that show the attribute of a link. -/
def Node.uses (nodes : List Node) (link : Nat) : Nat :=
  (Node.allPlaces nodes).countP fun p ↦ p.2.link = some link

/-- The number of places that show an attribute of a tree. -/
def Node.shownIn (nodes : List Node) (a : Attribute) : Nat :=
  match a.link with
  | none => 1
  | some link => Node.uses nodes link

theorem inTurn_const_some (m : Mapper) (link : Nat)
    (places : List (Option Multiplier × Attribute)) (last : Attribute) :
    inTurn (fun _ ↦ m) link places (some last)
      = some (m.attr^[places.countP fun p ↦ p.2.link = some link] last) := by
  induction places generalizing last with
  | nil => rfl
  | cons p ps ih =>
    rw [inTurn_cons]
    by_cases hp : p.2.link = some link
    · rw [if_pos hp, ih, List.countP_cons_of_pos (by simpa using hp), Function.iterate_succ_apply]
      rfl
    · rw [if_neg hp, ih, List.countP_cons_of_neg (by simpa using hp)]

/-- One map after the other, from an attribute that is shown. -/
theorem inTurn_const (m : Mapper) {link : Nat} {places : List (Option Multiplier × Attribute)}
    {a : Attribute} (ha : ∀ p ∈ places, p.2.link = some link → p.2 = a)
    (hp : ∃ p ∈ places, p.2.link = some link) :
    inTurn (fun _ ↦ m) link places none
      = some (m.attr^[places.countP fun p ↦ p.2.link = some link] a) := by
  induction places with
  | nil => simp at hp
  | cons p ps ih =>
    obtain ⟨ha₁, ha⟩ := List.forall_mem_cons.1 ha
    rw [inTurn_cons]
    by_cases hl : p.2.link = some link
    · rw [if_pos hl, inTurn_const_some, List.countP_cons_of_pos (by simpa using hl), ha₁ hl,
        Function.iterate_succ_apply]
      rfl
    · have hps : ∃ p ∈ ps, p.2.link = some link := by
        obtain ⟨q, hq, hql⟩ := hp
        rcases List.mem_cons.1 hq with rfl | hq
        · exact absurd hql hl
        · exact ⟨q, hq, hql⟩
      rw [if_neg hl, ih ha hps, List.countP_cons_of_neg (by simpa using hl)]

theorem mover_attr_iterate (f : Nat → Nat) (n : Nat) (a : Attribute) :
    (mover f).attr^[n] a = { a with value := (Value.moved f)^[n] a.value } := by
  induction n generalizing a with
  | zero => rfl
  | succ n ih => rw [Function.iterate_succ_apply, ih, Function.iterate_succ_apply]; rfl

/-- The map that moves every attribute of a tree as many times as it is shown. -/
def moverIn (nodes : List Node) (f : Nat → Nat) : Mapper where
  value := Value.moved f
  attr a := { a with value := (Value.moved f)^[Node.shownIn nodes a] a.value }

/-- What a copy with fields in scopes of its own differs in. -/
def Likeness.rescoped (nodes : List Node) (r : Renaming) : Likeness where
  value v w := w = Value.moved r.toFun v ∧ Value.Below r.next w
  attr a b := b = (moverIn nodes r.toFun).attr a ∧ Value.Below r.next b.value
  times t u := t = u

/-- Moving leaves no field in a scope that was not given out. -/
theorem rescoper_yields {first : Nat} (hfirst : 0 < first) :
    rescoper.Yields
      (fun s ↦ s.1.Fresh first ∧ ∀ p ∈ s.2, Value.Below s.1.next p.2.value)
      (fun s s' ↦ s.1.next ≤ s'.1.next)
      (fun s ↦ ⟨fun _ w ↦ Value.Below s.1.next w, fun _ b ↦ Value.Below s.1.next b.value,
        fun t u ↦ t = u⟩) where
  refl _ := Nat.le_refl _
  trans _ _ _ := Nat.le_trans
  mono s s' h := ⟨fun _ _ hw ↦ hw.mono h, fun _ _ hb ↦ hb.mono h, fun _ _ ht ↦ ht⟩
  times _ _ := rfl
  name _ := rfl
  value v s hs := by
    obtain ⟨hf, he, hb, -⟩ := Renaming.moveValue_spec hfirst hs.1 v
    exact ⟨⟨hf, fun p hp ↦ (hs.2 p hp).mono he.next_le⟩, he.next_le, hb⟩
  attr a s hs := by
    obtain ⟨hf, he, hb, -⟩ := Renaming.moveValue_spec hfirst hs.1 (a.current s.2).value
    refine ⟨⟨hf, fun p hp ↦ ?_⟩, he.next_le, hb⟩
    have hnote : ∀ b : Attribute, ∀ q ∈ b.note s.2, q.2 = b ∨ q ∈ s.2 := by
      intro b q hq
      rw [Attribute.note] at hq
      split at hq
      · exact .inr hq
      · rcases List.mem_cons.1 hq with rfl | hq
        · exact .inl rfl
        · exact .inr hq
    rcases hnote _ p hp with h | h
    · rw [h]
      exact hb
    · exact (hs.2 p h).mono he.next_le

theorem Attribute.current_mem (shown : Shown) (a : Attribute) :
    a.current shown = a ∨ ∃ p ∈ shown, p.2 = a.current shown := by
  rw [current]
  split
  · exact .inl rfl
  · cases hl : shown.lookup _ with
    | none => exact .inl rfl
    | some b =>
      obtain ⟨before, after, rfl, -⟩ := List.lookup_eq_some_iff.1 hl
      exact .inr ⟨_, List.mem_append_right before List.mem_cons_self, rfl⟩

/-- Moving the fields of a consistent tree is a map, to scopes that were given out. -/
theorem Node.exists_moverIn {nodes : List Node} {next : Nat} (hnext : 0 < next)
    (hc : Node.Consistent nodes) :
    ∃ r : Renaming, r.Fresh next ∧ (Node.rescope nodes next).2 = r.next ∧
      (Node.rescope nodes next).1 = Node.rewriteAll (fun _ ↦ moverIn nodes r.toFun) nodes ∧
      Node.AllLike ⟨fun _ w ↦ Value.Below r.next w, fun _ b ↦ Value.Below r.next b.value,
        fun _ _ ↦ True⟩ nodes (Node.rescope nodes next).1 := by
  obtain ⟨hfresh, -, hfollows⟩ :=
    follows_nodes hnext nodes (⟨next, []⟩, []) (Renaming.fresh_nil next)
  obtain ⟨⟨-, hshown⟩, -, hbelow⟩ := (rescoper_yields hnext).nodes nodes (⟨next, []⟩, [])
    ⟨Renaming.fresh_nil next, by simp⟩
  rw [Node.rescope_eq]
  generalize Node.visitAll (fun _ ↦ rescoper) nodes (⟨next, []⟩, []) = run at *
  obtain ⟨moved, r, shown⟩ := run
  refine ⟨r, hfresh, rfl, ?_, ?_⟩
  · obtain ⟨final, hfinal, hsettle⟩ :=
      Node.settle_visitAll_sharing (m := fun _ ↦ mover r.toFun) (fun _ _ ↦ rfl) nodes
    rw [hfollows r (.refl r)] at hsettle
    have hname : ∀ _ : Option Multiplier, ((mover r.toFun).showing final).name
        = (moverIn nodes r.toFun).name := fun _ ↦ rfl
    have hvalue : ∀ _ : Option Multiplier, ((mover r.toFun).showing final).value
        = (moverIn nodes r.toFun).value := fun _ ↦ rfl
    dsimp only at *
    rw [hsettle]
    refine (Node.rewriteAll_inj hname hvalue nodes).2 fun p hp ↦ ?_
    cases hl : p.2.link with
    | none => simp [Mapper.showing, hl, moverIn, Node.shownIn, mover]
    | some link =>
      have hsame : ∀ q ∈ Node.allPlaces nodes, q.2.link = some link → q.2 = p.2 :=
        fun q hq hql ↦ hc q hq p hp link hql hl
      have hturn := inTurn_const (mover r.toFun) hsame ⟨p, hp, hl⟩
      simp only [Mapper.showing, hl, hfinal, hturn, Option.getD_some, mover_attr_iterate, moverIn,
        Node.shownIn, Node.uses]
  · dsimp only at *
    rw [Node.settle_eq_rewriteAll]
    have hsettler : Node.AllLike ⟨fun v w ↦ v = w, fun a b ↦ b = a.current shown, fun _ _ ↦ True⟩
        moved (Node.rewriteAll (fun _ ↦ settler shown) moved) :=
      Node.allLike_rewriteAll (fun _ ↦ rfl) (fun _ ↦ rfl) (fun _ ↦ rfl) (fun _ ↦ trivial) moved
    refine (hbelow.comp hsettler).mono ⟨?_, ?_, fun _ _ _ ↦ trivial⟩
    · rintro _ _ ⟨v, hv, rfl⟩
      exact hv
    · rintro _ _ ⟨a, ha, rfl⟩
      rcases a.current_mem shown with h | ⟨p, hp, h⟩
      · rwa [h]
      · rw [← h]
        exact hshown p hp

/-- **Copies have scopes of their own**, and every attribute is moved as many times as it is
shown. -/
theorem Node.rescope_spec {nodes : List Node} {next : Nat} (hnext : 0 < next)
    (hc : Node.Consistent nodes) :
    ∃ r : Renaming, r.Fresh next ∧ (Node.rescope nodes next).2 = r.next ∧
      Node.AllLike (.rescoped nodes r) nodes (Node.rescope nodes next).1 := by
  obtain ⟨r, hfresh, hlast, hmap, hbounded⟩ := Node.exists_moverIn hnext hc
  refine ⟨r, hfresh, hlast, ?_⟩
  have hmoved : Node.AllLike ⟨fun v w ↦ w = Value.moved r.toFun v,
      fun a b ↦ b = (moverIn nodes r.toFun).attr a, fun t u ↦ t = u⟩ nodes
      (Node.rescope nodes next).1 := by
    rw [hmap]
    exact Node.allLike_rewriteAll (fun _ ↦ rfl) (fun _ ↦ rfl) (fun _ ↦ rfl) (fun _ ↦ rfl) nodes
  refine (hmoved.and hbounded).mono ⟨?_, ?_, ?_⟩
  · exact fun _ _ h ↦ h
  · exact fun _ _ h ↦ h
  · exact fun _ _ h ↦ h.1

/-! ### Consistency -/

/-- A tree that is alike a consistent one is consistent, if attributes with one link come from
attributes with one link and have become one. -/
theorem Node.Consistent.of_allLike {R : Likeness} {ns ms : List Node} (hc : Node.Consistent ns)
    (h : Node.AllLike R ns ms)
    (hlink : ∀ a b a' b' k, R.attr a a' → R.attr b b' → a'.link = some k → b'.link = some k →
      ∃ l, a.link = some l ∧ b.link = some l)
    (heq : ∀ a a' b', R.attr a a' → R.attr a b' → a'.link = b'.link → a' = b') :
    Node.Consistent ms := by
  intro p' hp' q' hq' k hpk hqk
  obtain ⟨p, hp, hpp⟩ := forall₂_mem_right h.places hp'
  obtain ⟨q, hq, hqq⟩ := forall₂_mem_right h.places hq'
  obtain ⟨l, hpl, hql⟩ := hlink _ _ _ _ k hpp hqq hpk hqk
  rw [← hc p hp q hq l hpl hql] at hqq
  exact heq _ _ _ hpp hqq (hpk.trans hqk.symm)

theorem Node.Consistent.relinked {first : Nat} {r : Renaming} {ns ms : List Node}
    (hc : Node.Consistent ns) (hr : r.Fresh first) (h : Node.AllLike (.relinked r) ns ms) :
    Node.Consistent ms := by
  refine hc.of_allLike h ?_ ?_
  · rintro ⟨_, _, la⟩ ⟨_, _, lb⟩ ⟨_, _, la'⟩ ⟨_, _, lb'⟩ k ⟨-, -, ha⟩ ⟨-, -, hb⟩ rfl rfl
    cases ha with
    | some ha =>
      cases hb with
      | some hb => exact ⟨_, rfl, congrArg some (hr.inj _ _ k hb ha)⟩
  · rintro a ⟨_, _, _⟩ ⟨_, _, _⟩ ⟨rfl, rfl, -⟩ ⟨rfl, rfl, -⟩ rfl
    rfl

theorem Node.Consistent.rescoped {r : Renaming} {ns ms : List Node}
    (hc : Node.Consistent ns) (h : Node.AllLike (.rescoped ns r) ns ms) : Node.Consistent ms := by
  refine hc.of_allLike h ?_ ?_
  · rintro a b a' b' k ⟨rfl, -⟩ ⟨rfl, -⟩ ha hb
    exact ⟨k, ha, hb⟩
  · rintro a a' b' ⟨rfl, -⟩ ⟨rfl, -⟩ -
    rfl

/-- Trees with corresponding links show corresponding attributes equally often. -/
theorem Node.uses_eq {R : Likeness} {ns ms : List Node} (h : Node.AllLike R ns ms)
    {links : Nat → Nat → Prop} (hb : Relator.BiUnique links)
    (hR : ∀ a b, R.attr a b → Option.Rel links a.link b.link) {l k : Nat} (hlk : links l k) :
    Node.uses ns l = Node.uses ms k := by
  rw [Node.uses, Node.uses]
  have hplaces := h.places
  generalize Node.allPlaces ns = ps at hplaces
  generalize Node.allPlaces ms = qs at hplaces
  induction hplaces with
  | nil => rfl
  | @cons p q ps qs hpq _ ih =>
    have hiff : p.2.link = some l ↔ q.2.link = some k := by
      have hpq := hR _ _ hpq
      revert hpq
      cases p.2.link <;> cases q.2.link <;> intro hpq
      · simp
      · cases hpq
      · cases hpq
      · cases hpq with
        | some hpq =>
          rw [Option.some.injEq, Option.some.injEq]
          constructor
          · rintro rfl
            exact hb.2 hpq hlk
          · rintro rfl
            exact hb.1 hpq hlk
    by_cases hp : p.2.link = some l
    · rw [List.countP_cons_of_pos (by simpa using hp),
        List.countP_cons_of_pos (by simpa using hiff.1 hp), ih]
    · rw [List.countP_cons_of_neg (by simpa using hp),
        List.countP_cons_of_neg (by simpa using fun h ↦ hp (hiff.2 h)), ih]

theorem Node.shownIn_eq {R : Likeness} {ns ms : List Node} (h : Node.AllLike R ns ms)
    {links : Nat → Nat → Prop} (hb : Relator.BiUnique links)
    (hR : ∀ a b, R.attr a b → Option.Rel links a.link b.link) {a b : Attribute}
    (hab : R.attr a b) : Node.shownIn ns a = Node.shownIn ms b := by
  have hl := hR a b hab
  rw [Node.shownIn, Node.shownIn]
  revert hl
  cases a.link <;> cases b.link <;> intro hl
  · rfl
  · cases hl
  · cases hl
  · cases hl with
    | some hl => exact Node.uses_eq h hb hR hl

end Shorthand.Markup
