import Shorthand.Proofs.Renaming

/-!
# Scopes of two trees, paired

When one tree is unrolled next to another of its shape, the scopes of the two are different numbers,
and copies move them further.  A `Stage` says which scope on the left stands for which on the right
and how far the supplies of scopes have come; copying on both sides grows it.

What matters in the end is whether the pairing is exact, so that fields are one stop on the left
exactly when they are one stop on the right.  Growing keeps this, since copies get fresh scopes.

* `Stage` : pairs of scopes, index by index.
* `Stage.grow`, `Stage.Grows` : what copies add to the pairs.
* `Stage.Grows.exact` : an exact pairing stays exact.
* `Stage.rescope_paired` : trees whose fields are paired keep them paired when they are copied.
-/

set_option autoImplicit false

namespace Shorthand.Markup

/-- Which scopes of fields of an index stand for each other, and the scopes not yet used. -/
structure Stage where
  pairs : Nat → Nat → Nat → Prop
  left : Nat
  right : Nat
  left_pos : 0 < left
  right_pos : 0 < right
  /-- Scope 0 is the user's on both sides. -/
  zero : ∀ i s t, pairs i s t → (s = 0 ↔ t = 0)

namespace Stage

theorem iterate_ge {f : Nat → Nat} {bound : Nat} (hf : ∀ s, bound ≤ f s) (m s : Nat) :
    bound ≤ f^[m + 1] s := by
  rw [Function.iterate_succ_apply']
  exact hf _

/-- Numbers that a renaming did not give out tell from each other what it makes of them. -/
theorem iterate_inj {f : Nat → Nat} {bound : Nat} (hinj : Function.Injective f)
    (hf : ∀ s, bound ≤ f s) {s t m n : Nat} (hs : s < bound) (ht : t < bound)
    (he : f^[m] s = f^[n] t) : m = n ∧ s = t := by
  induction m generalizing n with
  | zero =>
    cases n with
    | zero => exact ⟨rfl, he⟩
    | succ n =>
      have := iterate_ge hf n t
      rw [← he, Function.iterate_zero_apply] at this
      omega
  | succ m ih =>
    cases n with
    | zero =>
      have := iterate_ge hf m s
      rw [he, Function.iterate_zero_apply] at this
      omega
    | succ n =>
      rw [Function.iterate_succ_apply', Function.iterate_succ_apply'] at he
      obtain ⟨rfl, hst⟩ := ih (hinj he)
      exact ⟨rfl, hst⟩

theorem left_pos_of_le (S : Stage) {left : Nat} (hl : S.left ≤ left) : 0 < left :=
  Nat.lt_of_lt_of_le S.left_pos hl

/-- The pairs after a copy on both sides: what was paired stays so, and so does what it is moved to,
by as many moves on the left as on the right. -/
def grow (S : Stage) (f g : Nat → Nat) (left right : Nat) (hf : ∀ s, S.left ≤ f s)
    (hg : ∀ s, S.right ≤ g s) (hl : S.left ≤ left) (hr : S.right ≤ right) : Stage where
  pairs i s t := S.pairs i s t ∨ ∃ m s₀ t₀, S.pairs i s₀ t₀ ∧ s₀ ≠ 0 ∧ s = f^[m + 1] s₀ ∧
    t = g^[m + 1] t₀ ∧ s < left ∧ t < right
  left := left
  right := right
  left_pos := S.left_pos_of_le hl
  right_pos := Nat.lt_of_lt_of_le S.right_pos hr
  zero i s t h := by
    rcases h with h | ⟨m, s₀, t₀, -, -, rfl, rfl, -, -⟩
    · exact S.zero i s t h
    · have h₁ := iterate_ge hf m s₀
      have h₂ := iterate_ge hg m t₀
      have h₃ := S.left_pos
      have h₄ := S.right_pos
      omega

/-- A stage that copies have led to. -/
inductive Grows (S : Stage) : Stage → Prop where
  | refl : Grows S S
  | step {T : Stage} (h : Grows S T) {f g : Nat → Nat} {left right : Nat}
      (hinjf : Function.Injective f) (hinjg : Function.Injective g) (hf : ∀ s, T.left ≤ f s)
      (hg : ∀ s, T.right ≤ g s) (hl : T.left ≤ left) (hr : T.right ≤ right) :
      Grows S (T.grow f g left right hf hg hl hr)

namespace Grows

variable {S T U : Stage}

theorem trans (h : S.Grows T) (h' : T.Grows U) : S.Grows U := by
  induction h' with
  | refl => exact h
  | step _ hinjf hinjg hf hg hl hr ih => exact .step ih hinjf hinjg hf hg hl hr

theorem left_le (h : S.Grows T) : S.left ≤ T.left := by
  induction h with
  | refl => exact Nat.le_refl _
  | step _ _ _ _ _ hl _ ih => exact Nat.le_trans ih hl

theorem right_le (h : S.Grows T) : S.right ≤ T.right := by
  induction h with
  | refl => exact Nat.le_refl _
  | step _ _ _ _ _ _ hr ih => exact Nat.le_trans ih hr

/-- What was paired stays so. -/
theorem pairs (h : S.Grows T) {i s t : Nat} (hp : S.pairs i s t) : T.pairs i s t := by
  induction h with
  | refl => exact hp
  | step _ _ _ _ _ _ _ ih => exact .inl ih

/-- New pairs are of fresh scopes. -/
theorem fresh (h : S.Grows T) {i s t : Nat} (hp : T.pairs i s t) :
    S.pairs i s t ∨ (S.left ≤ s ∧ S.right ≤ t) := by
  induction h generalizing s t with
  | refl => exact .inl hp
  | step h _ _ hf hg _ _ ih =>
    rcases hp with hp | ⟨m, s₀, t₀, -, -, rfl, rfl, -, -⟩
    · exact ih hp
    · exact .inr ⟨Nat.le_trans h.left_le (iterate_ge hf m s₀),
        Nat.le_trans h.right_le (iterate_ge hg m t₀)⟩

end Grows

/-- Fields are one stop on the left exactly when they are one stop on the right. -/
structure Mirrors (S : Stage) : Prop where
  left_unique : ∀ i s s' t, S.pairs i s t → S.pairs i s' t → s = s'
  right_unique : ∀ i s t t', S.pairs i s t → S.pairs i s t' → t = t'

/-- A pairing that mirrors, of scopes that are in use. -/
structure Exact (S : Stage) : Prop extends Mirrors S where
  bound : ∀ i s t, S.pairs i s t → s < S.left ∧ t < S.right

/-- An exact pairing stays exact. -/
theorem Grows.exact {S T : Stage} (h : S.Grows T) (hS : S.Exact) : T.Exact := by
  induction h with
  | refl => exact hS
  | @step T h f g left right hinjf hinjg hf hg hl hr ih =>
    refine ⟨⟨?_, ?_⟩, ?_⟩
    · rintro i s s' t (hp | ⟨m, s₀, t₀, hp, -, rfl, rfl, -, -⟩)
        (hp' | ⟨m', s₁, t₁, hp', -, rfl, ht, -, -⟩)
      · exact ih.left_unique i s s' t hp hp'
      · have := iterate_ge hg m' t₁
        have := (ih.bound i s t hp).2
        omega
      · have := iterate_ge hg m t₀
        have := (ih.bound i s' _ hp').2
        omega
      · obtain ⟨hm, rfl⟩ := iterate_inj hinjg hg (ih.bound _ _ _ hp).2 (ih.bound _ _ _ hp').2 ht
        obtain rfl := Nat.succ.inj hm
        rw [ih.left_unique i s₀ s₁ t₀ hp hp']
    · rintro i s t t' (hp | ⟨m, s₀, t₀, hp, -, rfl, rfl, -, -⟩)
        (hp' | ⟨m', s₁, t₁, hp', -, hs, rfl, -, -⟩)
      · exact ih.right_unique i s t t' hp hp'
      · have := iterate_ge hf m' s₁
        have := (ih.bound i s t hp).1
        omega
      · have := iterate_ge hf m s₀
        have := (ih.bound i _ t' hp').1
        omega
      · obtain ⟨hm, rfl⟩ := iterate_inj hinjf hf (ih.bound _ _ _ hp).1 (ih.bound _ _ _ hp').1 hs
        obtain rfl := Nat.succ.inj hm
        rw [ih.right_unique i s₀ t₀ t₁ hp hp']
    · rintro i s t (hp | ⟨-, -, -, -, -, -, -, hs, ht⟩)
      · have := ih.bound i s t hp
        exact ⟨Nat.lt_of_lt_of_le this.1 hl, Nat.lt_of_lt_of_le this.2 hr⟩
      · exact ⟨hs, ht⟩

end Stage

/-! ## Trees with paired fields -/

/-- Fields that are paired; those of index 0 need no partner. -/
def Stage.field (S : Stage) (f g : Field) : Prop :=
  f.index = g.index ∧ f.placeholder = g.placeholder ∧
    (f.index = 0 ∨ S.pairs f.index f.scope g.scope)

/-- Parts of values that are paired. -/
inductive Stage.Part (S : Stage) : Part → Part → Prop where
  | text (s : String) : Stage.Part S (.text s) (.text s)
  | field {f g : Field} (h : S.field f g) : Stage.Part S (.field f) (.field g)

/-- Values that are paired, part by part. -/
abbrev Stage.value (S : Stage) : Value → Value → Prop := List.Forall₂ S.Part

/-- Trees whose fields are paired at a stage, with related links and multipliers. -/
def Likeness.paired (S : Stage) (links : Option Nat → Option Nat → Prop)
    (times : Option Multiplier → Option Multiplier → Prop) : Likeness where
  value := S.value
  attr a b := a.name = b.name ∧ S.value a.value b.value ∧ links a.link b.link
  times := times

/-- Trees whose fields are paired, and whose links and multipliers do not matter. -/
abbrev Likeness.outcome (S : Stage) : Likeness := .paired S (fun _ _ ↦ True) fun _ _ ↦ True

namespace Stage

variable {S T : Stage}

theorem Part.mono (h : ∀ i s t, S.pairs i s t → T.pairs i s t) {p q : Shorthand.Part}
    (hp : S.Part p q) : T.Part p q := by
  cases hp with
  | text s => exact .text s
  | field hf => exact .field ⟨hf.1, hf.2.1, hf.2.2.imp_right (h _ _ _)⟩

/-- Trees that are paired stay so when there are more pairs. -/
theorem le_paired (h : ∀ i s t, S.pairs i s t → T.pairs i s t)
    (links : Option Nat → Option Nat → Prop)
    (times : Option Multiplier → Option Multiplier → Prop) :
    (Likeness.paired S links times).Le (.paired T links times) := by
  have hvalue : ∀ v w, S.value v w → T.value v w := fun _ _ hv ↦ hv.imp fun _ _ ↦ .mono h
  exact ⟨hvalue, fun _ _ ha ↦ ⟨ha.1, hvalue _ _ ha.2.1, ha.2.2⟩, fun _ _ ht ↦ ht⟩

theorem Grows.value (h : S.Grows T) {v w : Value} (hv : S.value v w) : T.value v w :=
  hv.imp fun _ _ ↦ .mono fun _ _ _ ↦ h.pairs

theorem Grows.le (h : S.Grows T) {links : Option Nat → Option Nat → Prop}
    {times : Option Multiplier → Option Multiplier → Prop} :
    (Likeness.paired S links times).Le (.paired T links times) :=
  le_paired (fun _ _ _ ↦ h.pairs) links times

theorem scope_move_iterate {f : Nat → Nat} (hf : ∀ s, f s ≠ 0) (m s : Nat) :
    (fun s ↦ if s = 0 then 0 else f s)^[m] s = if s = 0 then 0 else f^[m] s := by
  induction m generalizing s with
  | zero => by_cases hs : s = 0 <;> simp [hs]
  | succ m ih =>
    rw [Function.iterate_succ_apply, ih]
    by_cases hs : s = 0
    · simp [hs]
    · simp [hs, hf]

theorem moved_iterate (f : Nat → Nat) (m : Nat) (v : Value) :
    (Value.moved f)^[m] v = v.mapScope ((fun s ↦ if s = 0 then 0 else f s)^[m]) := by
  induction m generalizing v with
  | zero =>
    refine (List.map_id v).symm.trans (List.map_congr_left fun p _ ↦ ?_)
    cases p <;> rfl
  | succ m ih =>
    rw [Function.iterate_succ_apply, ih, Value.moved, Value.mapScope, Value.mapScope,
      Value.mapScope, List.map_map]
    congr 1
    funext p
    cases p <;> rfl

/-- Values that are paired stay so when they are moved equally often on both sides. -/
theorem moved_succ_paired {f g : Nat → Nat} {left right : Nat} (hf : ∀ s, S.left ≤ f s)
    (hg : ∀ s, S.right ≤ g s) (hl : S.left ≤ left) (hr : S.right ≤ right) (m : Nat)
    {v w : Value} (h : S.value v w)
    (hv : Value.Below left ((Value.moved f)^[m + 1] v))
    (hw : Value.Below right ((Value.moved g)^[m + 1] w)) :
    (S.grow f g left right hf hg hl hr).value ((Value.moved f)^[m + 1] v)
      ((Value.moved g)^[m + 1] w) := by
  have hf0 : ∀ s, f s ≠ 0 := fun s ↦ by have := hf s; have := S.left_pos; omega
  have hg0 : ∀ s, g s ≠ 0 := fun s ↦ by have := hg s; have := S.right_pos; omega
  rw [moved_iterate] at hv hw ⊢
  rw [moved_iterate]
  induction h with
  | nil => exact .nil
  | @cons p q v w hp _ ih =>
    cases hp with
    | text s => exact .cons (.text s) (ih hv hw)
    | @field x y hxy =>
      refine .cons (.field ⟨hxy.1, hxy.2.1, ?_⟩) (ih ?_ ?_)
      · refine hxy.2.2.imp_right fun hp ↦ ?_
        have hx := hv _ List.mem_cons_self
        have hy := hw _ List.mem_cons_self
        dsimp only at hx hy ⊢
        rw [scope_move_iterate hf0] at hx ⊢
        rw [scope_move_iterate hg0] at hy ⊢
        by_cases h0 : x.scope = 0
        · have h0' := (S.zero _ _ _ hp).1 h0
          rw [if_pos h0, if_pos h0']
          rw [h0, h0'] at hp
          exact .inl hp
        · have h0' : y.scope ≠ 0 := fun h ↦ h0 ((S.zero _ _ _ hp).2 h)
          rw [if_neg h0] at hx ⊢
          rw [if_neg h0'] at hy ⊢
          exact .inr ⟨m, x.scope, y.scope, hp, h0, rfl, rfl, hx, hy⟩
      · exact fun z hz ↦ hv z (List.mem_cons_of_mem _ hz)
      · exact fun z hz ↦ hw z (List.mem_cons_of_mem _ hz)

theorem moved_paired {f g : Nat → Nat} {left right : Nat} (hf : ∀ s, S.left ≤ f s)
    (hg : ∀ s, S.right ≤ g s) (hl : S.left ≤ left) (hr : S.right ≤ right) (m : Nat)
    {v w : Value} (h : S.value v w) (hv : Value.Below left ((Value.moved f)^[m] v))
    (hw : Value.Below right ((Value.moved g)^[m] w)) :
    (S.grow f g left right hf hg hl hr).value ((Value.moved f)^[m] v) ((Value.moved g)^[m] w) := by
  cases m with
  | zero => exact h.imp fun _ _ ↦ Part.mono fun _ _ _ hp ↦ Or.inl hp
  | succ m => exact moved_succ_paired hf hg hl hr m h hv hw

/-- Trees whose fields are paired keep them paired when their fields are moved. -/
theorem rescope_paired {links : Nat → Nat → Prop} (hb : Relator.BiUnique links)
    {ns ms : List Node} (h : Node.AllLike (.paired S (Option.Rel links) Eq) ns ms)
    (hns : Node.Consistent ns) (hms : Node.Consistent ms) :
    ∃ T, S.Grows T ∧ T.left = (Node.rescope ns S.left).2 ∧
      T.right = (Node.rescope ms S.right).2 ∧
      Node.AllLike (.paired T (Option.Rel links) Eq) (Node.rescope ns S.left).1
        (Node.rescope ms S.right).1 ∧
      Node.Consistent (Node.rescope ns S.left).1 ∧ Node.Consistent (Node.rescope ms S.right).1 := by
  obtain ⟨r, hr, hrnext, hrlike⟩ := Node.rescope_spec S.left_pos hns
  obtain ⟨q, hq, hqnext, hqlike⟩ := Node.rescope_spec S.right_pos hms
  refine ⟨S.grow r.toFun q.toFun r.next q.next hr.le_toFun hq.le_toFun hr.first_le hq.first_le,
    .step .refl hr.toFun_injective hq.toFun_injective _ _ _ _, hrnext.symm, hqnext.symm, ?_,
    hns.rescoped hrlike, hms.rescoped hqlike⟩
  have hshown := fun {a b} ↦ Node.shownIn_eq h hb (fun _ _ hab ↦ hab.2.2) (a := a) (b := b)
  refine ((hrlike.flip.comp h).comp hqlike).mono ⟨?_, ?_, ?_⟩
  · rintro v' w' ⟨w, ⟨v, ⟨rfl, hv⟩, hvw⟩, rfl, hw⟩
    exact moved_paired hr.le_toFun hq.le_toFun hr.first_le hq.first_le 1 hvw hv hw
  · rintro a' b' ⟨b, ⟨a, ⟨rfl, ha⟩, hab⟩, rfl, hb⟩
    refine ⟨hab.1, ?_, hab.2.2⟩
    simp only [moverIn, hshown hab] at ha hb ⊢
    exact moved_paired hr.le_toFun hq.le_toFun hr.first_le hq.first_le _ hab.2.1 ha hb
  · rintro t u ⟨t', ⟨t'', h₁, h₂⟩, h₃⟩
    exact h₁.symm.trans (h₂.trans h₃)

/-- Trees whose fields are paired keep them paired when they get new links. -/
theorem relink_paired {links : Nat → Nat → Prop} (hb : Relator.BiUnique links)
    {ns ms : List Node} (h : Node.AllLike (.paired S (Option.Rel links) Eq) ns ms)
    (hns : Node.Consistent ns) (hms : Node.Consistent ms) (left right : Nat) :
    ∃ links' : Nat → Nat → Prop, Relator.BiUnique links' ∧
      Node.AllLike (.paired S (Option.Rel links') Eq) (Node.relink ns left).1
        (Node.relink ms right).1 ∧
      Node.Consistent (Node.relink ns left).1 ∧ Node.Consistent (Node.relink ms right).1 := by
  obtain ⟨r, hr, -, hrlike⟩ := Node.relink_spec ns left
  obtain ⟨q, hq, -, hqlike⟩ := Node.relink_spec ms right
  refine ⟨fun l' k' ↦ ∃ l k, r.known.lookup l = some l' ∧ links l k ∧ q.known.lookup k = some k',
    ⟨?_, ?_⟩, ?_, hns.relinked hr hrlike, hms.relinked hq hqlike⟩
  · rintro l' m' k' ⟨l, k, hl, hlk, hk⟩ ⟨m, k₁, hm, hmk, hk₁⟩
    obtain rfl := hq.inj _ _ _ hk hk₁
    obtain rfl := hb.1 hlk hmk
    exact Option.some.inj (hl.symm.trans hm)
  · rintro l' k' m' ⟨l, k, hl, hlk, hk⟩ ⟨l₁, m, hl₁, hlm, hm⟩
    obtain rfl := hr.inj _ _ _ hl hl₁
    obtain rfl := hb.2 hlk hlm
    exact Option.some.inj (hk.symm.trans hm)
  refine ((hrlike.flip.comp h).comp hqlike).mono ⟨?_, ?_, ?_⟩
  · rintro v' w' ⟨w, ⟨v, rfl, hvw⟩, rfl⟩
    exact hvw
  · rintro a' b' ⟨b, ⟨a, ⟨ha₁, ha₂, ha₃⟩, hab⟩, hb₁, hb₂, hb₃⟩
    refine ⟨ha₁.symm.trans (hab.1.trans hb₁), ha₂ ▸ hb₂ ▸ hab.2.1, ?_⟩
    have h₁ := optionRel_comp (optionRel_comp (optionRel_flip ha₃) hab.2.2) hb₃
    refine optionRel_imp ?_ h₁
    rintro l' k' ⟨k, ⟨l, hl, hlk⟩, hk⟩
    exact ⟨l, k, hl, hlk, hk⟩
  · rintro t u ⟨t', ⟨t'', h₁, h₂⟩, h₃⟩
    exact h₁.symm.trans (h₂.trans h₃)

end Stage

end Shorthand.Markup
