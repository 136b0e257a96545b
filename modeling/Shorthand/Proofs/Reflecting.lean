import Shorthand.Proofs.Copying
import Shorthand.Proofs.Shifting

/-!
# What the copies say of the original

The first copy of a node has the scopes of the node.  So whatever pairs the fields of two unrolled
trees of one shape pairs those of the trees themselves.

* `Copies.Reflects` : two passes whose outcomes say what they were made of.
* `Copies.unrollTo_reflects` : unrolling is such a pair of passes.
-/

set_option autoImplicit false

namespace Shorthand.Markup

/-- Every node of a tree asks for a copy at least. -/
abbrev Node.AllCounted : List Node → Prop := Node.AllRegular (fun _ ↦ True) fun _ ↦ True

theorem Node.AllCounted.copy_one {n : Node} (h : Node.AllCounted [n]) (s : Supply) :
    Node.AllCounted (n.copy 1 s).1 := by
  obtain ⟨r, -, -, hlike⟩ := Node.relink_spec [n] s.link
  exact Node.AllRegular.of_like (R := .relinked r) (fun _ _ _ _ ↦ trivial)
    (fun _ _ _ h ↦ ⟨trivial, h.1⟩) (fun _ _ h ↦ h) h hlike

theorem Node.AllLike.of_forall₂ {R : Likeness} {ns ms : List Node}
    (h : List.Forall₂ (Node.Like R) ns ms) : Node.AllLike R ns ms := by
  induction h with
  | nil => exact .nil
  | cons hn _ ih => exact .cons hn ih

namespace Copies

/-- Passes whose outcomes say what they were made of. -/
def Reflects {α β : Type} (rel back : Stage → α → β → Prop)
    (f : α → Supply → Except Fault (List Node × Supply))
    (g : β → Supply → Except Fault (List Node × Supply)) : Prop :=
  ∀ (S U : Stage) a b s t out out' s' t', rel S a b → s.scope = S.left → t.scope = S.right →
    f a s = .ok (out, s') → g b t = .ok (out', t') → Node.AllLike (.outcome U) out out' → back U a b

/-- Outcomes of passes have one shape, and can be told apart when others follow. -/
theorem Outcomes.split {α β : Type} {rel : Stage → α → β → Prop}
    {f : α → Supply → Except Fault (List Node × Supply)}
    {g : β → Supply → Except Fault (List Node × Supply)} (h : Outcomes rel f g) {S U : Stage}
    {a : α} {b : β} {s t s' t' : Supply} {out rest out' rest' : List Node} (hrel : rel S a b)
    (hs : s.scope = S.left) (ht : t.scope = S.right) (hf : f a s = .ok (out, s'))
    (hg : g b t = .ok (out', t'))
    (hlike : Node.AllLike (.outcome U) (out ++ rest) (out' ++ rest')) :
    (∃ T, S.Grows T ∧ s'.scope = T.left ∧ t'.scope = T.right) ∧
      Node.AllLike (.outcome U) out out' ∧ Node.AllLike (.outcome U) rest rest' := by
  obtain ⟨T, out₁, t₁, hg', hgrow, hs', ht', hlike'⟩ := h S a b s t out s' hrel hs ht hf
  cases hg.symm.trans hg'
  exact ⟨⟨T, hgrow, hs', ht'⟩, hlike.of_append hlike'.length_eq⟩

theorem Reflects.gather {α β : Type} {rel back : Stage → α → β → Prop}
    (hmono : ∀ S T a b, Stage.Grows S T → rel S a b → rel T a b)
    {f : α → Supply → Except Fault (List Node × Supply)}
    {g : β → Supply → Except Fault (List Node × Supply)} (hout : Outcomes rel f g)
    (h : Reflects rel back f g) :
    Reflects (fun S ↦ List.Forall₂ (rel S)) (fun U ↦ List.Forall₂ (back U)) (gather f)
      (gather g) := by
  intro S U as
  induction as generalizing S with
  | nil =>
    intro bs s t out out' s' t' hrel
    cases hrel
    exact fun _ _ _ _ _ ↦ .nil
  | cons a as ih =>
    rintro (_ | ⟨b, bs⟩) s t out out' s' t' hrel hs ht hf hg hlike
    · cases hrel
    obtain ⟨hab, hrel⟩ := List.forall₂_cons.1 hrel
    obtain ⟨out₁, s₁, out₂, hf₁, hf₂, rfl⟩ := gather_cons_eq_ok_iff.1 hf
    obtain ⟨out₁', t₁, out₂', hg₁, hg₂, rfl⟩ := gather_cons_eq_ok_iff.1 hg
    obtain ⟨⟨T, hgrow, hs₁, ht₁⟩, hlike₁, hlike₂⟩ := hout.split hab hs ht hf₁ hg₁ hlike
    exact .cons (h S U a b s t out₁ out₁' s₁ t₁ hab hs ht hf₁ hg₁ hlike₁)
      (ih T bs s₁ t₁ out₂ out₂' s' t' (hrel.imp fun a b ↦ hmono S T a b hgrow) hs₁ ht₁ hf₂ hg₂
        hlike₂)

/-- Nodes that are twins, of which the first is not too high and counts its copies. -/
def Measured (height : Nat) (S : Stage) (n m : Node) : Prop :=
  S.Twins [n] [m] ∧ n.height ≤ height ∧ Node.AllCounted [n]

/-- Trees that are twins, of which the first is not too high and counts its copies. -/
def AllMeasured (height : Nat) (S : Stage) (ns ms : List Node) : Prop :=
  S.Twins ns ms ∧ Node.heights ns ≤ height ∧ Node.AllCounted ns

theorem AllMeasured.forall₂ {height : Nat} {S : Stage} {ns ms : List Node}
    (h : AllMeasured height S ns ms) : List.Forall₂ (Measured height S) ns ms := by
  induction ns generalizing ms with
  | nil =>
    obtain ⟨⟨_, -, hlike, -⟩, -⟩ := h
    cases hlike
    exact .nil
  | cons n ns ih =>
    obtain ⟨htwins, hheight, hcounted⟩ := h
    cases ms with
    | nil =>
      obtain ⟨_, -, hlike, -⟩ := htwins
      cases hlike
    | cons m ms =>
      rw [Node.heights] at hheight
      cases hcounted with
      | cons hn hns =>
        exact .cons ⟨htwins.head, by omega, .cons hn .nil⟩ (ih ⟨htwins.tail, by omega, hns⟩)

theorem dissolve_reflects {inside inside' : List Node → Supply → Except Fault (List Node × Supply)}
    {height : Nat}
    (h : Reflects (AllMeasured height) (fun U ↦ Node.AllLike (.outcome U)) inside inside')
    (times times' : Option Multiplier) :
    Reflects (Measured (height + 1)) (fun U n m ↦ n.Like (.outcome U) m) (dissolve inside times)
      (dissolve inside' times') := by
  intro S U n m s t out out' s' t' hrel hs ht hf hg hout
  obtain ⟨⟨links, hb, hlike, hn, hm⟩, hheight, hcounted⟩ := hrel
  cases hlike with
  | cons hnm _ =>
    have hbelow : ∀ {ns ms : List Node}, Node.AllLike (.paired S (Option.Rel links) Eq) ns ms →
        Node.allPlaces ns ⊆ Node.allPlaces [n] → Node.allPlaces ms ⊆ Node.allPlaces [m] →
        Node.heights ns + 1 ≤ height + 1 → Node.AllCounted ns → AllMeasured height S ns ms :=
      fun hc hns hms hle hcount ↦ ⟨⟨links, hb, hc, hn.of_subset hns, hm.of_subset hms⟩,
        Nat.le_of_succ_le_succ hle, hcount⟩
    cases hnm with
    | @element e f _ _ ns ms he _ hc =>
      obtain ⟨⟨out₁, s₁⟩, hf₁, hf⟩ := bind_eq_ok_iff.1 hf
      obtain ⟨⟨out₁', t₁⟩, hg₁, hg⟩ := bind_eq_ok_iff.1 hg
      cases hf
      cases hg
      cases hcounted with
      | cons hcounted _ =>
        cases hcounted with
        | element _ _ hcounted =>
          have hmeasured := hbelow hc (fun p hp ↦ by simp [Node.allPlaces, Node.places, hp])
            (fun p hp ↦ by simp [Node.allPlaces, Node.places, hp]) hheight hcounted
          cases hout with
          | cons hout _ =>
            cases hout with
            | element he' _ hbelow' =>
              exact .element he' trivial (h S U ns ms s t _ _ _ _ hmeasured hs ht hf₁ hg₁ hbelow')
    | @text v w _ _ i j hv _ =>
      cases hf
      cases hg
      cases hout with
      | cons hout _ =>
        cases hout with
        | text _ _ hv' _ => exact .text i j hv' trivial
    | @group ns ms _ _ i j _ hc =>
      cases hcounted with
      | cons hcounted _ =>
        cases hcounted with
        | group _ _ hcounted =>
          have hmeasured := hbelow hc (fun p hp ↦ by simpa [Node.allPlaces, Node.places] using hp)
            (fun p hp ↦ by simpa [Node.allPlaces, Node.places] using hp) hheight hcounted
          exact .group i j trivial (h S U ns ms s t out out' s' t' hmeasured hs ht hf hg hout)

theorem Outcomes.weaken {α β : Type} {rel rel' : Stage → α → β → Prop}
    (hrel : ∀ S a b, rel' S a b → rel S a b)
    {f : α → Supply → Except Fault (List Node × Supply)}
    {g : β → Supply → Except Fault (List Node × Supply)} (h : Outcomes rel f g) :
    Outcomes rel' f g :=
  fun S a b s t out s' hab ↦ h S a b s t out s' (hrel S a b hab)

theorem Measured.mono (height : Nat) (S T : Stage) (n m : Node) (hg : S.Grows T)
    (h : Measured height S n m) : Measured height T n m := ⟨h.1.grow hg, h.2⟩

/-- The first copies of two nodes, unrolled, say what the nodes are. -/
theorem unrollCopy_reflects
    {below below' : Option Multiplier → List Node → Supply → Except Fault (List Node × Supply)}
    {height : Nat} (hout : ∀ times times', Outcomes Stage.Twins (below times) (below' times'))
    (h : ∀ times times', Reflects (AllMeasured height) (fun U ↦ Node.AllLike (.outcome U))
      (below times) (below' times')) (inherited inherited' : Option Multiplier) {S U : Stage}
    {n m : Node} {s t s' t' : Supply} {out out' : List Node} (hnm : Measured (height + 1) S n m)
    (hs : s.scope = S.left) (ht : t.scope = S.right)
    (hf : unrollCopy below inherited n 1 s = .ok (out, s'))
    (hg : unrollCopy below' inherited' m 1 t = .ok (out', t'))
    (hlike : Node.AllLike (.outcome U) out out') : n.Like (.outcome U) m := by
  obtain ⟨htwins, hheight, hcounted⟩ := hnm
  have hgather := fun times times' ↦ Reflects.gather (Measured.mono (height + 1))
    ((dissolve_outcomes (hout times times') times times').weaken fun _ _ _ ↦ And.left)
    (dissolve_reflects (h times times') times times')
  rw [unrollCopy] at hf
  rw [unrollCopy, ← htwins.times_eq] at hg
  by_cases hcount : 1 < countOf n.times
  · rw [if_pos hcount] at hf hg
    obtain ⟨T, -, hs', ht', hcopies⟩ := htwins.copy 1 hs ht
    obtain ⟨r, -, -, hr⟩ := Node.relink_spec [n] s.link
    obtain ⟨q, -, -, hq⟩ := Node.relink_spec [m] t.link
    have hheights : Node.heights (n.copy 1 s).1 ≤ height + 1 := by
      have : Node.heights [n] = Node.heights (n.copy 1 s).1 := hr.heights_eq
      rw [← this]
      exact Nat.max_le.2 ⟨hheight, Nat.zero_le _⟩
    have hmeasured : AllMeasured (height + 1) T (n.copy 1 s).1 (m.copy 1 t).1 :=
      ⟨hcopies, hheights, hcounted.copy_one s⟩
    have hlikes := hgather _ _ T U _ _ _ _ out out' s' t' hmeasured.forall₂ hs' ht' hf hg hlike
    have hall := (hr.comp (Node.AllLike.of_forall₂ hlikes)).comp hq.flip
    have hle : (((Likeness.relinked r).comp (.outcome U)).comp (Likeness.relinked q).flip).Le
        (.outcome U) := by
      refine ⟨?_, ?_, fun _ _ _ ↦ trivial⟩
      · rintro v w ⟨w', ⟨v', rfl, hvw⟩, rfl⟩
        exact hvw
      · rintro a b ⟨b', ⟨a', ⟨ha₁, ha₂, -⟩, hab⟩, hb₁, hb₂, -⟩
        exact ⟨ha₁.trans (hab.1.trans hb₁.symm), ha₂ ▸ hb₂ ▸ hab.2.1, trivial⟩
    cases hall.mono hle with
    | cons hn _ => exact hn
  · rw [if_neg hcount] at hf hg
    have hmeasured : AllMeasured (height + 1) S [n] [m] :=
      ⟨htwins, Nat.max_le.2 ⟨hheight, Nat.zero_le _⟩, hcounted⟩
    have hlikes := hgather _ _ S U _ _ _ _ out out' s' t' hmeasured.forall₂ hs ht hf hg hlike
    exact (List.forall₂_cons.1 hlikes).1

theorem unrollNode_reflects (limit : Nat) {height : Nat}
    {below below' : Option Multiplier → Nat → List Node → Supply →
      Except Fault (List Node × Supply)}
    (hout : ∀ times times' total total', total' ≤ total →
      Outcomes Stage.Twins (below times total) (below' times' total'))
    (h : ∀ times times' total total', total' ≤ total → Reflects (AllMeasured height)
      (fun U ↦ Node.AllLike (.outcome U)) (below times total) (below' times' total'))
    (inherited inherited' : Option Multiplier) {total total' : Nat} (htotal : total' ≤ total) :
    Reflects (Measured (height + 1)) (fun U n m ↦ n.Like (.outcome U) m)
      (unrollNode limit below inherited total) (unrollNode limit below' inherited' total') := by
  intro S U n m s t out out' s' t' hnm hs ht hf hg hlike
  rw [unrollNode] at hf
  rw [unrollNode, ← hnm.1.times_eq] at hg
  split at hf
  · cases hf
  split at hg
  · cases hg
  have hle : total' * countOf n.times ≤ total * countOf n.times := Nat.mul_le_mul_right _ htotal
  have hcount : 1 ≤ countOf n.times := by
    cases hnm.2.2 with
    | cons hn _ =>
      have hcounted : Counted n.times := by cases hn <;> assumption
      cases htimes : n.times with
      | none => exact Nat.le_refl _
      | some m => exact hcounted m htimes
  obtain ⟨count, hsucc⟩ := Nat.exists_eq_add_of_le' hcount
  rw [hsucc, List.range'_succ] at hf hg
  obtain ⟨out₁, s₁, out₂, hf₁, -, rfl⟩ := gather_cons_eq_ok_iff.1 hf
  obtain ⟨out₁', t₁, out₂', hg₁, -, rfl⟩ := gather_cons_eq_ok_iff.1 hg
  rw [← hsucc] at hf₁ hg₁
  have hcopies := unrollCopy_outcomes (fun times times' ↦ hout times times' _ _ hle) inherited
    inherited' n m
  obtain ⟨-, hlike₁, -⟩ := hcopies.split ⟨rfl, hnm.1⟩ hs ht hf₁ hg₁ hlike
  exact unrollCopy_reflects (fun times times' ↦ hout times times' _ _ hle)
    (fun times times' ↦ h times times' _ _ hle) inherited inherited' hnm hs ht hf₁ hg₁ hlike₁

/-- **Unrolled trees say what the trees are.** -/
theorem unrollTo_reflects (limit height : Nat) (inherited inherited' : Option Multiplier)
    {total total' : Nat} (htotal : total' ≤ total) :
    Reflects (AllMeasured height) (fun U ↦ Node.AllLike (.outcome U))
      (unrollTo limit height inherited total) (unrollTo limit height inherited' total') := by
  induction height generalizing inherited inherited' total total' with
  | zero =>
    rintro S U ns ms s t out out' s' t' ⟨⟨_, -, hlike, -⟩, hheight, -⟩ - - - - -
    cases hlike with
    | nil => exact .nil
    | cons hn _ =>
      rw [Node.heights] at hheight
      cases hn <;> simp [Node.height] at hheight
  | succ height ih =>
    intro S U ns ms s t out out' s' t' hmeasured hs ht hf hg hlike
    rw [unrollTo_succ] at hf hg
    have hnodes := Reflects.gather (Measured.mono (height + 1))
      ((unrollNode_outcomes (fun times times' _ _ hle ↦ unrollTo_outcomes limit height times times'
        hle) inherited inherited' htotal).weaken fun _ _ _ ↦ And.left)
      (unrollNode_reflects limit
        (fun times times' _ _ hle ↦ unrollTo_outcomes limit height times times' hle)
        (fun times times' _ _ hle ↦ ih times times' hle) inherited inherited' htotal)
    exact .of_forall₂ (hnodes S U ns ms s t out out' s' t' hmeasured.forall₂ hs ht hf hg hlike)

end Copies

end Shorthand.Markup
