import Shorthand.Proofs.Repetition

/-!
# A group with a multiplier, next to groups in a row

The copies of a group are unrolled one after the other, and so are groups that hold the tree of the
group each on their own.  Copy by copy the outcomes are twins, and the pairing is exact as long as
the tree shows its fields equally often.

* `Stage.first` : the pairs of the first copy, which keeps its scopes.
* `Copies.later_copies` : the copies after the first.
* `Copies.unroll_copies` : all copies.
-/

set_option autoImplicit false

namespace Shorthand.Markup

/-! ## The first copy -/

namespace Stage

/-- Every scope below some numbers stands for itself. -/
def first (left right next : Nat) (hl : 0 < left) (hr : 0 < right) : Stage where
  pairs _ s t := s = t ∧ s < left ∧ s < right ∧ s < next
  left := left
  right := right
  left_pos := hl
  right_pos := hr
  zero _ _ _ h := by rw [h.1]

variable {left right next : Nat} {hl : 0 < left} {hr : 0 < right}

theorem first_exact : (first left right next hl hr).Exact where
  left_unique _ _ _ _ h h' := h.1.trans h'.1.symm
  right_unique _ _ _ _ h h' := h.1.symm.trans h'.1
  bound _ _ _ h := ⟨h.2.1, h.1 ▸ h.2.2.1⟩

theorem first_before (hnext : 0 < next) : (first left right next hl hr).Before next right where
  user _ := ⟨rfl, hl, hr, hnext⟩
  right _ _ _ h := .inl (h.1 ▸ h.2.2.2)
  bound_le := Nat.le_refl _

/-- A tree with other links is a twin of the tree. -/
theorem first_twins (hl : 0 < left) (hr : 0 < right) {tree ms ns : List Node}
    {ρ : Nat → Nat → Prop} (hρ : Relator.BiUnique ρ)
    (hms : Node.AllLike ⟨Eq, fun a b ↦ a.name = b.name ∧ a.value = b.value ∧
      Option.Rel ρ a.link b.link, Eq⟩ tree ms) (hmsc : Node.Consistent ms)
    (hns : Node.AllLike .same tree ns) (hnsc : Node.Consistent ns)
    (htree : Node.AllBelow left tree) (hnext : Node.AllBelow next tree)
    (hright : Node.AllBelow right ns) : (first left right next hl hr).Twins ms ns := by
  refine ⟨fun new old ↦ ρ old new, ⟨fun _ _ _ h h' ↦ hρ.2 h h', fun _ _ _ h h' ↦ hρ.1 h h'⟩, ?_,
    hmsc, hnsc⟩
  have hvalue : ∀ v, Value.Below left v → Value.Below next v → Value.Below right v →
      (first left right next hl hr).value v v := fun v h₁ h₂ h₃ ↦
    List.forall₂_same.2 fun p hp ↦ by
      cases p with
      | text s => exact .text s
      | field f =>
        have hf := Value.mem_fields.2 hp
        exact .field ⟨rfl, rfl, .inr ⟨rfl, h₁ f hf, h₃ f hf, h₂ f hf⟩⟩
  refine (((hms.given htree).given hnext).flip.comp (hns.flip.given hright).flip).mono ⟨?_, ?_, ?_⟩
  · rintro _ _ ⟨v, ⟨h₂, h₁, rfl⟩, h₃, rfl⟩
    exact hvalue v h₁ h₂ h₃
  · rintro ⟨_, _, l'⟩ _ ⟨⟨name, value, l⟩, ⟨h₂, h₁, hname, hv, hlink⟩, h₃, rfl⟩
    obtain rfl : name = _ := hname
    obtain rfl : value = _ := hv
    exact ⟨rfl, hvalue value h₁ h₂ h₃, optionRel_flip hlink⟩
  · rintro _ _ ⟨_, ⟨rfl⟩, rfl⟩
    rfl

end Stage

namespace Copies

/-! ## Later copies -/

theorem gather_singleton {α β σ ε : Type} (f : α → σ → Except ε (List β × σ)) (a : α) (s : σ) :
    gather f [a] s = f a s := by
  rw [gather]
  cases f a s <;> simp [gather, bind, Except.bind, pure, Except.pure]

/-- A copy of a group is unrolled to what is in it. -/
theorem unrollCopy_group
    {below : Option Multiplier → List Node → Supply → Except Fault (List Node × Supply)}
    {inherited times times' : Option Multiplier} {ms ms' : List Node} {offset offset' index : Nat}
    {s s' : Supply} (hcount : 1 < countOf times)
    (hcopy : (Node.group ms times offset).copy index s = ([.group ms' times' offset'], s')) :
    unrollCopy below inherited (.group ms times offset) index s
      = below (multiplierOf times inherited index) ms' s' := by
  rw [unrollCopy, Node.times, if_pos hcount, hcopy]
  exact gather_singleton _ _ _

/-- A group without a multiplier is unrolled to what is in it. -/
theorem unrollNode_group {limit : Nat} (hlimit : 1 ≤ limit)
    (below : Option Multiplier → Nat → List Node → Supply → Except Fault (List Node × Supply))
    (ns : List Node) (offset : Nat) (s : Supply) :
    unrollNode limit below none 1 (.group ns none offset) s = below none 1 ns s := by
  have hle : ¬ limit < 1 * countOf none := Nat.not_lt.2 hlimit
  rw [unrollNode, Node.times, if_neg hle]
  exact (gather_singleton _ _ _).trans (gather_singleton _ _ _)

/-- What is known of a tree that is copied: its scopes are below a number, and it is not too
high. -/
structure Original (tree : List Node) (next height : Nat) : Prop where
  consistent : Node.Consistent tree
  below : Node.AllBelow next tree
  height_le : Node.heights tree ≤ height

/-- What copies and groups that were unrolled next to each other have led to. -/
structure Beside (tree : List Node) (S T : Stage) (out out' : List Node) : Prop where
  left_le : S.left ≤ T.left
  pairs : ∀ i s t, S.pairs i s t → T.pairs i s t
  outcome : Node.AllLike (.outcome T) out out'
  exact : Node.EquallyShown tree → S.Exact → T.Exact

theorem Beside.trans {tree out₁ out₁' out₂ out₂' : List Node} {S T U : Stage}
    (h : Beside tree S T out₁ out₁') (h' : Beside tree T U out₂ out₂') :
    Beside tree S U (out₁ ++ out₂) (out₁' ++ out₂') where
  left_le := Nat.le_trans h.left_le h'.left_le
  pairs i s t hp := h'.pairs i s t (h.pairs i s t hp)
  outcome := (h.outcome.mono (Stage.le_paired h'.pairs _ _)).append h'.outcome
  exact hshown hS := h'.exact hshown (h.exact hshown hS)

section Later

variable {limit height total x bound : Nat} {inherited times : Option Multiplier}
  {tree ms : List Node}

/-- A later copy of a tree and a group that holds the tree.  Whatever pairs their outcomes without
ambiguity tells that fields are shown equally often. -/
theorem later_copy (ho : Original tree (1 + x) height) (hms : Node.AllLike .same tree ms)
    (hcount : 1 < countOf times) (htotal : 1 ≤ total) {ns : List Node} {d k index offset : Nat}
    (hindex : index ≠ 1) (hns : Node.AllLike (.shifted d k) tree ns)
    (hnsb : Node.AllBelow bound ns) (hnsc : Node.Consistent ns) {S : Stage} {s t s' : Supply}
    {out : List Node} (hs : s.scope = S.left) (ht : t.scope = S.right)
    (hS : S.Before (1 + d) bound) (hleft : Node.AllBelow S.left tree)
    (hf : unrollCopy (fun times ↦ unrollTo limit height times total) inherited
      (.group ms times offset) index s = .ok (out, s')) :
    ∃ T out' t', unrollTo limit height none 1 ns t = .ok (out', t') ∧ s'.scope = T.left ∧
      t'.scope = T.right ∧ T.Before (1 + (d + x)) bound ∧ Beside tree S T out out' ∧
      ∀ V : Stage, V.Mirrors → Node.AllLike (.outcome V) out out' → Node.EquallyShown tree := by
  have hpos : 0 < s.scope := by rw [hs]; exact S.left_pos
  obtain ⟨r, q, ms', offset', hcopy, hr, hq, hlike, hmsc⟩ :=
    Node.copy_group hms ho.consistent hpos hindex times offset
  rw [hs] at hq
  rw [unrollCopy_group hcount hcopy] at hf
  have htwins := Stage.extend_twins ho.below hS.user hr hq hlike hmsc hns hnsb hnsc
  have hext : (S.extend tree q.toFun d bound q.next hq.le_toFun hq.first_le).Before
      (1 + (d + x)) bound := Stage.extend_before hS fun p hp ↦ ho.below.of_mem_shown p hp
  obtain ⟨T, out', t', hg, hgrow, hs', ht', hout⟩ := unrollTo_outcomes limit height _ none htotal
    _ ms' ns _ t out s' htwins rfl ht hf
  refine ⟨T, out', t', hg, hs', ht', hgrow.before hext, ⟨?_, ?_, hout, ?_⟩, ?_⟩
  · exact Nat.le_trans hq.first_le hgrow.left_le
  · exact fun i s t hp ↦ hgrow.pairs (.inl hp)
  · exact fun hshown hexact ↦ hgrow.exact (Stage.extend_exact hexact hS hshown hq.toFun_injective
      fun p hp ↦ hleft.of_mem_shown p hp)
  · intro V hV hlikeV
    have hmeasured : AllMeasured height
        (S.extend tree q.toFun d bound q.next hq.le_toFun hq.first_le) ms' ns := by
      refine ⟨htwins, hlike.heights_eq ▸ ho.height_le, ?_⟩
      exact Node.AllRegular.of_like (R := .copied tree r q) (fun _ _ _ _ ↦ trivial)
        (fun _ _ _ h ↦ ⟨trivial, h.1⟩) (fun _ _ h ↦ h) ho.below hlike
    have hback := unrollTo_reflects limit height _ none htotal _ V ms' ns _ t out out' s' t'
      hmeasured rfl ht hf hg hlikeV
    exact Node.equallyShown_of_mirrors hV ho.below (fun p hp ↦ hleft.of_mem_shown p hp)
      S.left_pos hq hlike hns hback

theorem AllBelow.head {ns groups : List Node} {offset : Nat}
    (h : Node.AllBelow bound (.group ns none offset :: groups)) :
    Node.AllBelow bound ns ∧ Node.AllBelow bound groups := by
  rcases h with - | ⟨hn, hgroups⟩
  cases hn with
  | group _ _ hns => exact ⟨hns, hgroups⟩

/-- The copies after the `i`th and groups that hold the tree, each shifted once more. -/
theorem later_copies (ho : Original tree (1 + x) height) (hms : Node.AllLike .same tree ms)
    (hlimit : 1 ≤ limit) (htotal : 1 ≤ total) {y i : Nat} (hi : i ≠ 0) {groups : List Node}
    (hgroups : Snippet.Successive tree x y i groups) (hcount : groups ≠ [] → 1 < countOf times)
    (hbound : Node.AllBelow bound groups) (hc : Node.Consistent groups) {S : Stage}
    {s t s' : Supply} {out : List Node} {offset : Nat} (hs : s.scope = S.left)
    (ht : t.scope = S.right) (hS : S.Before (1 + i * x) bound) (hleft : Node.AllBelow S.left tree)
    (hf : gather (unrollCopy (fun times ↦ unrollTo limit height times total) inherited
      (.group ms times offset)) (List.range' (i + 1) groups.length) s = .ok (out, s')) :
    ∃ T out' t', gather (unrollNode limit (unrollTo limit height) none 1) groups t
        = .ok (out', t') ∧ Beside tree S T out out' ∧ (groups = [] → T = S) ∧
      (groups ≠ [] → ∀ V : Stage, V.Mirrors → Node.AllLike (.outcome V) out out' →
        Node.EquallyShown tree) := by
  induction hgroups generalizing S s t out with
  | nil =>
    cases hf
    exact ⟨S, [], t, rfl, ⟨Nat.le_refl _, fun _ _ _ hp ↦ hp, .nil, fun _ h ↦ h⟩, fun _ ↦ rfl,
      fun h ↦ absurd rfl h⟩
  | @cons i ns groups o hns hrest ih =>
    rw [List.length_cons, List.range'_succ] at hf
    obtain ⟨out₁, s₁, out₂, hf₁, hf₂, rfl⟩ := gather_cons_eq_ok_iff.1 hf
    obtain ⟨hnsb, hgroupsb⟩ := AllBelow.head hbound
    have hnsc : Node.Consistent ns := hc.of_subset fun p hp ↦ List.mem_append_left _ hp
    have hgroupsc : Node.Consistent groups := hc.of_subset fun p hp ↦ List.mem_append_right _ hp
    have h1 : 1 < countOf times := hcount (List.cons_ne_nil _ _)
    obtain ⟨T₁, out₁', t₁, hg₁, hs₁, ht₁, hT₁, hbeside₁, hmirrors⟩ := later_copy ho hms h1 htotal
      (fun h ↦ hi (Nat.succ.inj h)) hns hnsb hnsc hs ht hS hleft hf₁
    have hT₁' : T₁.Before (1 + (i + 1) * x) bound := by rwa [Nat.succ_mul]
    have hleft₁ : Node.AllBelow T₁.left tree := Node.AllRegular.mono
      (fun _ hv ↦ hv.mono hbeside₁.left_le) (fun _ ha ↦ ha.mono hbeside₁.left_le) hleft
    obtain ⟨T, out₂', t', hg₂, hbeside₂, -, -⟩ := ih (Nat.succ_ne_zero i) (fun _ ↦ h1) hgroupsb
      hgroupsc hs₁ ht₁ hT₁' hleft₁ hf₂
    refine ⟨T, out₁' ++ out₂', t', gather_cons_eq_ok_iff.2 ⟨_, _, _, ?_, hg₂, rfl⟩,
      hbeside₁.trans hbeside₂, fun h ↦ absurd h (List.cons_ne_nil _ _), fun _ V hV hlike ↦ ?_⟩
    · rw [unrollNode_group hlimit]
      exact hg₁
    · exact hmirrors V hV (hlike.of_append hbeside₁.outcome.length_eq).1

/-! ## All copies -/

/-- The first copy of a group, which differs from its tree in links. -/
theorem first_copy
    (below : Option Multiplier → List Node → Supply → Except Fault (List Node × Supply))
    (hc : Node.Consistent tree) (hms : Node.AllLike .same tree ms) (offset : Nat) (s : Supply) :
    ∃ ms' s₁, unrollCopy below inherited (.group ms times offset) 1 s
        = below (multiplierOf times inherited 1) ms' s₁ ∧ s₁.scope = s.scope ∧
      Node.Consistent ms' ∧ ∃ ρ : Nat → Nat → Prop, Relator.BiUnique ρ ∧
        Node.AllLike ⟨Eq, fun a b ↦ a.name = b.name ∧ a.value = b.value ∧
          Option.Rel ρ a.link b.link, Eq⟩ tree ms' := by
  by_cases hcount : 1 < countOf times
  · obtain ⟨r, ms', offset', hrelink, hr, hlike, hc'⟩ :=
      Node.relink_group hms hc s.link times offset
    have hcopy : (Node.group ms times offset).copy 1 s
        = ([.group ms' times offset'], { s with link := r.next }) := by
      rw [Node.copy, hrelink]
      rfl
    exact ⟨ms', _, unrollCopy_group hcount hcopy, rfl, hc', _, hr.biUnique, hlike⟩
  · refine ⟨ms, s, ?_, rfl, hc.same hms, Eq,
      ⟨fun _ _ _ h h' ↦ h.trans h'.symm, fun _ _ _ h h' ↦ h.symm.trans h'⟩, hms.mono ?_⟩
    · rw [unrollCopy, Node.times, if_neg hcount]
      exact gather_singleton _ _ _
    · refine ⟨fun _ _ h ↦ h, ?_, fun _ _ h ↦ h⟩
      rintro ⟨name, value, link⟩ _ rfl
      exact ⟨rfl, rfl, by cases link <;> constructor; rfl⟩

/-- **The copies of a group and groups in a row** that hold its tree.  Their outcomes have one
shape; and they are paired without ambiguity exactly if there is one copy only, or fields that are
one stop are shown equally often. -/
theorem unroll_copies (ho : Original tree (1 + x) height) (hms : Node.AllLike .same tree ms)
    (hcount : 1 ≤ countOf times) {y : Nat} {groups : List Node}
    (hgroups : Snippet.Successive tree x y 0 groups) (hlen : groups.length = countOf times)
    (hc : Node.Consistent groups) {s t s' : Supply} (hs : 0 < s.scope) (ht : 0 < t.scope)
    (hleft : Node.AllBelow s.scope tree) (hright : Node.AllBelow t.scope groups) {offset : Nat}
    {out : List Node}
    (hf : unrollNode limit (unrollTo limit height) none 1 (.group ms times offset) s
      = .ok (out, s')) :
    ∃ out' t', gather (unrollNode limit (unrollTo limit height) none 1) groups t = .ok (out', t') ∧
      (∃ T, Node.AllLike (.outcome T) out out') ∧
      ((∃ T : Stage, T.Mirrors ∧ Node.AllLike (.outcome T) out out') ↔
        countOf times = 1 ∨ Node.EquallyShown tree) := by
  rw [unrollNode, Node.times] at hf
  split at hf
  · cases hf
  next hle =>
  have hlimit : 1 ≤ limit := by omega
  have htotal : 1 ≤ 1 * countOf times := by omega
  rcases hgroups with - | @⟨_, ns, groups, o, hns, hrest⟩
  · rw [← hlen] at hcount
    exact absurd hcount (by decide)
  rw [← hlen, List.length_cons, List.range'_succ] at hf
  obtain ⟨out₁, s₁, out₂, hf₁, hf₂, rfl⟩ := gather_cons_eq_ok_iff.1 hf
  rw [← List.length_cons (a := .group ns none o), hlen] at hf₁ hf₂
  obtain ⟨hnsb, hgroupsb⟩ := AllBelow.head hright
  have hnsc : Node.Consistent ns := hc.of_subset fun p hp ↦ List.mem_append_left _ hp
  have hgroupsc : Node.Consistent groups := hc.of_subset fun p hp ↦ List.mem_append_right _ hp
  rw [Nat.zero_mul, Nat.zero_mul] at hns
  obtain ⟨ms', s₀, hcopy, hs₀, hmsc, ρ, hρ, hlike⟩ := first_copy _ ho.consistent hms offset s
  rw [hcopy] at hf₁
  have htwins := Stage.first_twins hs ht hρ hlike hmsc hns.same_of_shifted hnsc
    hleft ho.below hnsb
  obtain ⟨T₁, out₁', t₁, hg₁, hgrow, hs₁, ht₁, hout₁⟩ := unrollTo_outcomes limit height _ none
    htotal _ ms' ns s₀ t out₁ s₁ htwins hs₀ rfl hf₁
  have hT₁ : T₁.Before (1 + 1 * x) t.scope := by
    rw [Nat.one_mul]
    exact hgrow.before (Stage.first_before (by omega))
  have hleft₁ : Node.AllBelow T₁.left tree := Node.AllRegular.mono
    (fun _ hv ↦ hv.mono hgrow.left_le) (fun _ ha ↦ ha.mono hgrow.left_le) hleft
  have hcount' : groups ≠ [] → 1 < countOf times := fun hne ↦ by
    rw [← hlen, List.length_cons]
    exact Nat.succ_lt_succ (List.length_pos_iff.2 hne)
  obtain ⟨T, out₂', t', hg₂, hbeside, hT, hmirrors⟩ := later_copies ho hms hlimit htotal
    Nat.one_ne_zero hrest hcount' hgroupsb hgroupsc hs₁ ht₁ hT₁ hleft₁ hf₂
  have hexact : T₁.Exact := hgrow.exact Stage.first_exact
  have hone : countOf times = 1 ↔ groups = [] := by
    rw [← hlen, List.length_cons, ← List.length_eq_zero_iff]
    omega
  have houtcome : Node.AllLike (.outcome T) (out₁ ++ out₂) (out₁' ++ out₂') :=
    (hout₁.mono (Stage.le_paired hbeside.pairs _ _)).append hbeside.outcome
  refine ⟨out₁' ++ out₂', t', gather_cons_eq_ok_iff.2 ⟨_, _, _, ?_, hg₂, rfl⟩, ⟨T, houtcome⟩, ?_⟩
  · rw [unrollNode_group hlimit]
    exact hg₁
  · rw [hone]
    constructor
    · rintro ⟨V, hV, hlikeV⟩
      refine (Classical.em (groups = [])).imp_right fun hne ↦ ?_
      exact hmirrors hne V hV (hlikeV.of_append hout₁.length_eq).2
    · rintro (hnil | hshown)
      · exact ⟨T, hT hnil ▸ hexact.toMirrors, houtcome⟩
      · exact ⟨T, (hbeside.exact hshown hexact).toMirrors, houtcome⟩

end Later

end Copies

end Shorthand.Markup
