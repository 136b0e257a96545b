import Shorthand.Proofs.Sharing
import Mathlib.Data.List.Forall2

/-!
# Trees of one shape

Two trees are alike if they have the same nodes in the same places, with the same names, and differ
at most in their values, attributes and multipliers in ways that a `Likeness` allows.  Offsets do
not count.

Passes that treat all trees alike are compared on two trees; and a tree is alike the one that a
visit makes of it, which says in one relation what becomes of its parts.

* `Node.Like`, `Node.AllLike` : trees of one shape.
* `AllLike.mono`, `AllLike.flip`, `AllLike.comp`, `AllLike.and` : the calculus of likenesses.
* `Visitor.Yields.nodes` : a tree is alike the one that a visit makes of it.
-/

set_option autoImplicit false

namespace Shorthand.Markup

/-- In what two trees of one shape may differ. -/
structure Likeness where
  value : Value → Value → Prop
  attr : Attribute → Attribute → Prop
  times : Option Multiplier → Option Multiplier → Prop

namespace Likeness

/-- All that two likenesses allow. -/
def and (R S : Likeness) : Likeness where
  value v w := R.value v w ∧ S.value v w
  attr a b := R.attr a b ∧ S.attr a b
  times t u := R.times t u ∧ S.times t u

/-- A likeness with the trees in the other order. -/
def flip (R : Likeness) : Likeness where
  value v w := R.value w v
  attr a b := R.attr b a
  times t u := R.times u t

/-- A likeness after another. -/
def comp (R S : Likeness) : Likeness where
  value v w := ∃ x, R.value v x ∧ S.value x w
  attr a b := ∃ c, R.attr a c ∧ S.attr c b
  times t u := ∃ r, R.times t r ∧ S.times r u

/-- A likeness that allows less than another. -/
structure Le (R S : Likeness) : Prop where
  value : ∀ v w, R.value v w → S.value v w
  attr : ∀ a b, R.attr a b → S.attr a b
  times : ∀ t u, R.times t u → S.times t u

end Likeness

/-- Elements that are alike. -/
structure Element.Like (R : Likeness) (e f : Element) : Prop where
  name : e.name = f.name
  id : Option.Rel R.value e.id f.id
  classes : List.Forall₂ R.value e.classes f.classes
  attributes : List.Forall₂ R.attr e.attributes f.attributes
  text : Option.Rel R.value e.text f.text
  selfClosing : e.selfClosing = f.selfClosing

mutual

/-- Nodes that are alike. -/
inductive Node.Like (R : Likeness) : Node → Node → Prop where
  | element {e f : Element} {t u : Option Multiplier} {ns ms : List Node} (he : e.Like R f)
      (ht : R.times t u) (hc : Node.AllLike R ns ms) :
      Node.Like R (.element e t ns) (.element f u ms)
  | text {v w : Value} {t u : Option Multiplier} (i j : Nat) (hv : R.value v w)
      (ht : R.times t u) : Node.Like R (.text v t i) (.text w u j)
  | group {ns ms : List Node} {t u : Option Multiplier} (i j : Nat) (ht : R.times t u)
      (hc : Node.AllLike R ns ms) : Node.Like R (.group ns t i) (.group ms u j)

/-- Lists of nodes that are alike. -/
inductive Node.AllLike (R : Likeness) : List Node → List Node → Prop where
  | nil : Node.AllLike R [] []
  | cons {n m : Node} {ns ms : List Node} (hn : n.Like R m) (hns : Node.AllLike R ns ms) :
      Node.AllLike R (n :: ns) (m :: ms)

end

section Calculus

variable {R S T : Likeness} {ns ms ks : List Node}

/-! ## Lists -/

theorem Node.AllLike.append : ∀ {ns ms ns' ms' : List Node}, Node.AllLike R ns ms →
    Node.AllLike R ns' ms' → Node.AllLike R (ns ++ ns') (ms ++ ms')
  | _, _, _, _, .nil, h' => h'
  | _, _, _, _, .cons hn hns, h' => .cons hn (hns.append h')

theorem Node.AllLike.singleton {n m : Node} (h : n.Like R m) : Node.AllLike R [n] [m] :=
  .cons h .nil

theorem Node.AllLike.length_eq : ∀ {ns ms : List Node}, Node.AllLike R ns ms →
    ns.length = ms.length
  | _, _, .nil => rfl
  | _, _, .cons _ hns => congrArg Nat.succ hns.length_eq

/-- Trees that are alike have as many elements at the top. -/
theorem Node.AllLike.elements_eq : ∀ {ns ms : List Node}, Node.AllLike R ns ms →
    (ns.filter Node.isElement).length = (ms.filter Node.isElement).length
  | _, _, .nil => rfl
  | _, _, .cons hn hns => by
    have ih := hns.elements_eq
    cases hn <;> simp [List.filter_cons, Node.isElement, ih]

mutual

theorem Node.Like.height_eq : ∀ {n m : Node}, n.Like R m → n.height = m.height
  | _, _, .element _ _ hc => congrArg (· + 1) (Node.AllLike.heights_eq hc)
  | _, _, .text _ _ _ _ => rfl
  | _, _, .group _ _ _ hc => congrArg (· + 1) (Node.AllLike.heights_eq hc)

/-- Trees of one shape are equally high. -/
theorem Node.AllLike.heights_eq : ∀ {ns ms : List Node}, Node.AllLike R ns ms →
    Node.heights ns = Node.heights ms
  | _, _, .nil => rfl
  | _, _, .cons hn hns => by
    rw [Node.heights, Node.heights, Node.Like.height_eq hn, Node.AllLike.heights_eq hns]

end

/-- Lists that are alike can be cut in the same place. -/
theorem Node.AllLike.of_append {ns' ms' : List Node}
    (h : Node.AllLike R (ns ++ ns') (ms ++ ms')) (hlen : ns.length = ms.length) :
    Node.AllLike R ns ms ∧ Node.AllLike R ns' ms' := by
  induction ns generalizing ms with
  | nil =>
    obtain rfl := List.length_eq_zero_iff.1 hlen.symm
    exact ⟨.nil, h⟩
  | cons n ns ih =>
    cases ms with
    | nil => simp at hlen
    | cons m ms =>
      cases h with
      | cons hn hns =>
        obtain ⟨h₁, h₂⟩ := ih hns (by simpa using hlen)
        exact ⟨.cons hn h₁, h₂⟩

/-! ## Calculus -/

theorem optionRel_imp {α β : Type} {p q : α → β → Prop} (h : ∀ a b, p a b → q a b) :
    ∀ {o : Option α} {o' : Option β}, Option.Rel p o o' → Option.Rel q o o'
  | _, _, .some hp => .some (h _ _ hp)
  | _, _, .none => .none

theorem optionRel_flip {α β : Type} {p : α → β → Prop} :
    ∀ {o : Option α} {o' : Option β}, Option.Rel p o o' → Option.Rel (fun b a ↦ p a b) o' o
  | _, _, .some hp => .some hp
  | _, _, .none => .none

theorem optionRel_comp {α β γ : Type} {p : α → β → Prop} {q : β → γ → Prop} :
    ∀ {o : Option α} {o' : Option β} {o'' : Option γ}, Option.Rel p o o' → Option.Rel q o' o'' →
      Option.Rel (fun a c ↦ ∃ b, p a b ∧ q b c) o o''
  | _, _, _, .some hp, .some hq => .some ⟨_, hp, hq⟩
  | _, _, _, .none, .none => .none

theorem optionRel_and {α β : Type} {p q : α → β → Prop} :
    ∀ {o : Option α} {o' : Option β}, Option.Rel p o o' → Option.Rel q o o' →
      Option.Rel (fun a b ↦ p a b ∧ q a b) o o'
  | _, _, .some hp, .some hq => .some ⟨hp, hq⟩
  | _, _, .none, .none => .none

theorem forall₂_comp {α β γ : Type} {p : α → β → Prop} {q : β → γ → Prop} {as : List α}
    {bs : List β} {cs : List γ} (h : List.Forall₂ p as bs) (h' : List.Forall₂ q bs cs) :
    List.Forall₂ (fun a c ↦ ∃ b, p a b ∧ q b c) as cs := by
  induction h generalizing cs with
  | nil => cases h'; exact .nil
  | cons hp _ ih =>
    cases h' with
    | cons hq h' => exact .cons ⟨_, hp, hq⟩ (ih h')

theorem forall₂_and {α β : Type} {p q : α → β → Prop} {as : List α} {bs : List β}
    (h : List.Forall₂ p as bs) (h' : List.Forall₂ q as bs) :
    List.Forall₂ (fun a b ↦ p a b ∧ q a b) as bs := by
  induction h with
  | nil => exact .nil
  | cons hp _ ih =>
    cases h' with
    | cons hq h' => exact .cons ⟨hp, hq⟩ (ih h')

theorem forall₂_mem_right {α β : Type} {p : α → β → Prop} {as : List α} {bs : List β}
    (h : List.Forall₂ p as bs) {b : β} (hb : b ∈ bs) : ∃ a ∈ as, p a b := by
  induction h with
  | nil => simp at hb
  | cons hp _ ih =>
    rcases List.mem_cons.1 hb with rfl | hb
    · exact ⟨_, List.mem_cons_self, hp⟩
    · obtain ⟨a, ha, hab⟩ := ih hb
      exact ⟨a, List.mem_cons_of_mem _ ha, hab⟩

theorem Element.Like.mono (hle : R.Le S) {e f : Element} (h : e.Like R f) : e.Like S f where
  name := h.name
  id := optionRel_imp hle.value h.id
  classes := h.classes.imp hle.value
  attributes := h.attributes.imp hle.attr
  text := optionRel_imp hle.value h.text
  selfClosing := h.selfClosing

theorem Element.Like.flip {e f : Element} (h : e.Like R f) : f.Like R.flip e where
  name := h.name.symm
  id := optionRel_flip h.id
  classes := h.classes.flip
  attributes := h.attributes.flip
  text := optionRel_flip h.text
  selfClosing := h.selfClosing.symm

theorem Element.Like.comp {e f g : Element} (h : e.Like R f) (h' : f.Like S g) :
    e.Like (R.comp S) g where
  name := h.name.trans h'.name
  id := optionRel_comp h.id h'.id
  classes := forall₂_comp h.classes h'.classes
  attributes := forall₂_comp h.attributes h'.attributes
  text := optionRel_comp h.text h'.text
  selfClosing := h.selfClosing.trans h'.selfClosing

theorem Element.Like.and {e f : Element} (h : e.Like R f) (h' : e.Like S f) :
    e.Like (R.and S) f where
  name := h.name
  id := optionRel_and h.id h'.id
  classes := forall₂_and h.classes h'.classes
  attributes := forall₂_and h.attributes h'.attributes
  text := optionRel_and h.text h'.text
  selfClosing := h.selfClosing

mutual

theorem Node.Like.mono (hle : R.Le S) : ∀ {n m : Node}, n.Like R m → n.Like S m
  | _, _, .element he ht hc => .element (he.mono hle) (hle.times _ _ ht) (hc.mono hle)
  | _, _, .text i j hv ht => .text i j (hle.value _ _ hv) (hle.times _ _ ht)
  | _, _, .group i j ht hc => .group i j (hle.times _ _ ht) (hc.mono hle)

/-- What is alike stays so if more is allowed. -/
theorem Node.AllLike.mono (hle : R.Le S) :
    ∀ {ns ms : List Node}, Node.AllLike R ns ms → Node.AllLike S ns ms
  | _, _, .nil => .nil
  | _, _, .cons hn hns => .cons (hn.mono hle) (hns.mono hle)

end

mutual

theorem Node.Like.flip : ∀ {n m : Node}, n.Like R m → m.Like R.flip n
  | _, _, .element he ht hc => .element he.flip ht hc.flip
  | _, _, .text i j hv ht => .text j i hv ht
  | _, _, .group i j ht hc => .group j i ht hc.flip

theorem Node.AllLike.flip : ∀ {ns ms : List Node}, Node.AllLike R ns ms → Node.AllLike R.flip ms ns
  | _, _, .nil => .nil
  | _, _, .cons hn hns => .cons hn.flip hns.flip

end

mutual

theorem Node.Like.comp : ∀ {n m k : Node}, n.Like R m → m.Like S k → n.Like (R.comp S) k
  | _, _, _, .element he ht hc, .element he' ht' hc' =>
    .element (he.comp he') ⟨_, ht, ht'⟩ (hc.comp hc')
  | _, _, _, .text i _ hv ht, .text _ j hv' ht' => .text i j ⟨_, hv, hv'⟩ ⟨_, ht, ht'⟩
  | _, _, _, .group i _ ht hc, .group _ j ht' hc' => .group i j ⟨_, ht, ht'⟩ (hc.comp hc')

theorem Node.AllLike.comp : ∀ {ns ms ks : List Node}, Node.AllLike R ns ms →
    Node.AllLike S ms ks → Node.AllLike (R.comp S) ns ks
  | _, _, _, .nil, .nil => .nil
  | _, _, _, .cons hn hns, .cons hn' hns' => .cons (hn.comp hn') (hns.comp hns')

end

mutual

theorem Node.Like.and : ∀ {n m : Node}, n.Like R m → n.Like S m → n.Like (R.and S) m
  | _, _, .element he ht hc, .element he' ht' hc' => .element (he.and he') ⟨ht, ht'⟩ (hc.and hc')
  | _, _, .text i j hv ht, .text _ _ hv' ht' => .text i j ⟨hv, hv'⟩ ⟨ht, ht'⟩
  | _, _, .group i j ht hc, .group _ _ ht' hc' => .group i j ⟨ht, ht'⟩ (hc.and hc')

theorem Node.AllLike.and : ∀ {ns ms : List Node}, Node.AllLike R ns ms →
    Node.AllLike S ns ms → Node.AllLike (R.and S) ns ms
  | _, _, .nil, .nil => .nil
  | _, _, .cons hn hns, .cons hn' hns' => .cons (hn.and hn') (hns.and hns')

end

/-! ## Parts -/

theorem forall₂_append {α β : Type} {p : α → β → Prop} {as as' : List α} {bs bs' : List β}
    (h : List.Forall₂ p as bs) (h' : List.Forall₂ p as' bs') :
    List.Forall₂ p (as ++ as') (bs ++ bs') := by
  induction h with
  | nil => exact h'
  | cons hp _ ih => exact .cons hp ih

mutual

theorem Node.Like.places : ∀ {n m : Node}, n.Like R m →
    List.Forall₂ (fun p q ↦ R.attr p.2 q.2) n.places m.places
  | _, _, .element he _ hc => by
    refine forall₂_append ?_ hc.places
    rw [List.forall₂_map_left_iff, List.forall₂_map_right_iff]
    exact he.attributes
  | _, _, .text _ _ _ _ => .nil
  | _, _, .group _ _ _ hc => by
    rw [Node.places, Node.places]
    exact hc.places

/-- Trees that are alike show attributes in the same places. -/
theorem Node.AllLike.places : ∀ {ns ms : List Node}, Node.AllLike R ns ms →
    List.Forall₂ (fun p q ↦ R.attr p.2 q.2) (Node.allPlaces ns) (Node.allPlaces ms)
  | _, _, .nil => .nil
  | _, _, .cons hn hns => forall₂_append hn.places hns.places

end

end Calculus

/-! ## Visits -/

section Visits

variable {σ : Type}

/-- What a visit guarantees of the parts of a tree, given its state after them.  The state has an
invariant and only grows, and what holds of a part goes on to hold when the state has grown. -/
structure Visitor.Yields (v : Visitor σ) (inv : σ → Prop) (le : σ → σ → Prop)
    (R : σ → Likeness) : Prop where
  refl : ∀ s, le s s
  trans : ∀ s₁ s₂ s₃, le s₁ s₂ → le s₂ s₃ → le s₁ s₃
  mono : ∀ s s', le s s' → (R s).Le (R s')
  times : ∀ s t, (R s).times t t
  name : ∀ s, v.name s = s
  value : ∀ x s, inv s →
    inv (v.value x s).2 ∧ le s (v.value x s).2 ∧ (R (v.value x s).2).value x (v.value x s).1
  attr : ∀ a s, inv s →
    inv (v.attr a s).2 ∧ le s (v.attr a s).2 ∧ (R (v.attr a s).2).attr a (v.attr a s).1

variable {v : Visitor σ} {inv : σ → Prop} {le : σ → σ → Prop} {R : σ → Likeness}

theorem Visitor.Yields.walk {α β : Type} {f : α → σ → β × σ} {p : σ → α → β → Prop}
    (h : v.Yields inv le R) (hp : ∀ s s', le s s' → ∀ a b, p s a b → p s' a b)
    (hf : ∀ a s, inv s → inv (f a s).2 ∧ le s (f a s).2 ∧ p (f a s).2 a (f a s).1)
    (as : List α) (s : σ) (hs : inv s) :
    inv (walk f as s).2 ∧ le s (walk f as s).2 ∧
      List.Forall₂ (p (walk f as s).2) as (walk f as s).1 := by
  induction as generalizing s with
  | nil => exact ⟨hs, h.refl s, .nil⟩
  | cons a as ih =>
    obtain ⟨hs₁, hle₁, hp₁⟩ := hf a s hs
    obtain ⟨hs₂, hle₂, hp₂⟩ := ih _ hs₁
    exact ⟨hs₂, h.trans _ _ _ hle₁ hle₂, .cons (hp _ _ hle₂ _ _ hp₁) hp₂⟩

theorem Visitor.Yields.walkOption {α β : Type} {f : α → σ → β × σ} {p : σ → α → β → Prop}
    (h : v.Yields inv le R)
    (hf : ∀ a s, inv s → inv (f a s).2 ∧ le s (f a s).2 ∧ p (f a s).2 a (f a s).1)
    (o : Option α) (s : σ) (hs : inv s) :
    inv (walkOption f o s).2 ∧ le s (walkOption f o s).2 ∧
      Option.Rel (p (walkOption f o s).2) o (walkOption f o s).1 := by
  cases o with
  | none => exact ⟨hs, h.refl s, .none⟩
  | some a =>
    obtain ⟨hs₁, hle₁, hp₁⟩ := hf a s hs
    exact ⟨hs₁, hle₁, .some hp₁⟩

theorem Visitor.Yields.element (h : v.Yields inv le R) (e : Element) (s : σ) (hs : inv s) :
    inv (e.visit v s).2 ∧ le s (e.visit v s).2 ∧ e.Like (R (e.visit v s).2) (e.visit v s).1 := by
  have hmono := fun s s' hle ↦ (h.mono s s' hle).value
  obtain ⟨i₁, l₁, hid⟩ := h.walkOption (p := fun s ↦ (R s).value) h.value e.id s hs
  obtain ⟨i₂, l₂, hclasses⟩ := h.walk (p := fun s ↦ (R s).value) hmono h.value e.classes _ i₁
  obtain ⟨i₃, l₃, hattr⟩ := h.walk (p := fun s ↦ (R s).attr)
    (fun s s' hle ↦ (h.mono s s' hle).attr) h.attr e.attributes _ i₂
  obtain ⟨i₄, l₄, htext⟩ := h.walkOption (p := fun s ↦ (R s).value) h.value e.text _ i₃
  have l₃₄ := h.trans _ _ _ l₃ l₄
  have l₂₄ := h.trans _ _ _ l₂ l₃₄
  refine ⟨i₄, h.trans _ _ _ l₁ l₂₄, ?_, ?_, ?_, ?_, htext, rfl⟩
  · cases hn : e.name <;> simp [Element.visit, hn, h.name]
  · exact optionRel_imp (hmono _ _ l₂₄) hid
  · exact hclasses.imp (hmono _ _ l₃₄)
  · exact hattr.imp (h.mono _ _ l₄).attr

mutual

theorem Visitor.Yields.node (h : v.Yields inv le R) (n : Node) (s : σ) (hs : inv s) :
    inv (n.visit (fun _ ↦ v) s).2 ∧ le s (n.visit (fun _ ↦ v) s).2 ∧
      n.Like (R (n.visit (fun _ ↦ v) s).2) (n.visit (fun _ ↦ v) s).1 := by
  cases n with
  | element e times children =>
    obtain ⟨i₁, l₁, he⟩ := h.element e s hs
    obtain ⟨i₂, l₂, hc⟩ := h.nodes children _ i₁
    exact ⟨i₂, h.trans _ _ _ l₁ l₂, .element (he.mono (h.mono _ _ l₂)) (h.times _ _) hc⟩
  | text x times offset =>
    obtain ⟨i₁, l₁, hv⟩ := h.value x s hs
    exact ⟨i₁, l₁, .text offset offset hv (h.times _ _)⟩
  | group children times offset =>
    obtain ⟨i₂, l₂, hc⟩ := h.nodes children s hs
    exact ⟨i₂, l₂, .group offset offset (h.times _ _) hc⟩

/-- A tree is alike the one that a visit makes of it. -/
theorem Visitor.Yields.nodes (h : v.Yields inv le R) (ns : List Node) (s : σ) (hs : inv s) :
    inv (Node.visitAll (fun _ ↦ v) ns s).2 ∧ le s (Node.visitAll (fun _ ↦ v) ns s).2 ∧
      Node.AllLike (R (Node.visitAll (fun _ ↦ v) ns s).2) ns
        (Node.visitAll (fun _ ↦ v) ns s).1 := by
  cases ns with
  | nil => exact ⟨hs, h.refl s, .nil⟩
  | cons n ns =>
    obtain ⟨i₁, l₁, hn⟩ := h.node n s hs
    obtain ⟨i₂, l₂, hns⟩ := h.nodes ns _ i₁
    exact ⟨i₂, h.trans _ _ _ l₁ l₂, .cons (hn.mono (h.mono _ _ l₂)) hns⟩

end

/-- A tree is alike what a map makes of it. -/
theorem Node.allLike_rewriteAll {m : Mapper} {R : Likeness} (hname : ∀ s, m.name s = s)
    (hvalue : ∀ x, R.value x (m.value x)) (hattr : ∀ a, R.attr a (m.attr a))
    (htimes : ∀ t, R.times t t) (ns : List Node) :
    Node.AllLike R ns (Node.rewriteAll (fun _ ↦ m) ns) := by
  have h : m.visitor.Yields (fun _ : Unit ↦ True) (fun _ _ ↦ True) (fun _ ↦ R) :=
    { refl := fun _ ↦ trivial
      trans := fun _ _ _ _ _ ↦ trivial
      mono := fun _ _ _ ↦ ⟨fun _ _ h ↦ h, fun _ _ h ↦ h, fun _ _ h ↦ h⟩
      times := fun _ t ↦ htimes t
      name := hname
      value := fun x _ _ ↦ ⟨trivial, trivial, hvalue x⟩
      attr := fun a _ _ ↦ ⟨trivial, trivial, hattr a⟩ }
  have hvisit := (h.nodes ns () trivial).2.2
  rwa [Node.visitAll_visitor] at hvisit

end Visits

end Shorthand.Markup
