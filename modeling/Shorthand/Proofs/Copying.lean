import Shorthand.Proofs.Pairing
import Shorthand.Proofs.Unrolling
import Shorthand.Proofs.Success

/-!
# Unrolling two trees of one shape

Two trees of one shape are unrolled to trees of one shape, and fields that were paired stay so.  It
does not matter where the two supplies stand, which multipliers are around the trees, or whether
fewer copies were asked for around the second.

* `Stage.Twins` : trees of one shape whose fields are paired.
* `Outcomes` : two passes that make twins of twins.
* `unrollTo_outcomes` : unrolling is such a pair of passes.
-/

set_option autoImplicit false

namespace Shorthand.Markup

/-! ## Twins -/

/-- Trees of one shape, with paired fields and corresponding links. -/
def Stage.Twins (S : Stage) (ns ms : List Node) : Prop :=
  ∃ links : Nat → Nat → Prop, Relator.BiUnique links ∧
    Node.AllLike (.paired S (Option.Rel links) Eq) ns ms ∧ Node.Consistent ns ∧ Node.Consistent ms

theorem Node.Consistent.of_subset {ns ms : List Node} (h : Node.Consistent ns)
    (hsub : ∀ p ∈ Node.allPlaces ms, p ∈ Node.allPlaces ns) : Node.Consistent ms :=
  fun p hp q hq ↦ h p (hsub p hp) q (hsub q hq)

namespace Stage

variable {S T : Stage}

theorem Twins.grow (hg : S.Grows T) {ns ms : List Node} (h : S.Twins ns ms) : T.Twins ns ms := by
  obtain ⟨links, hb, hlike, hns, hms⟩ := h
  exact ⟨links, hb, hlike.mono hg.le, hns, hms⟩

theorem Twins.head {n m : Node} {ns ms : List Node} (h : S.Twins (n :: ns) (m :: ms)) :
    S.Twins [n] [m] := by
  obtain ⟨links, hb, hlike, hns, hms⟩ := h
  have hsub : ∀ (k : Node) (ks : List Node), ∀ p ∈ Node.allPlaces [k],
      p ∈ Node.allPlaces (k :: ks) := by
    intro k ks p hp
    simp only [Node.allPlaces, List.append_nil] at hp ⊢
    exact List.mem_append_left _ hp
  cases hlike with
  | cons hn _ =>
    exact ⟨links, hb, .singleton hn, hns.of_subset (hsub n ns), hms.of_subset (hsub m ms)⟩

theorem Twins.tail {n m : Node} {ns ms : List Node} (h : S.Twins (n :: ns) (m :: ms)) :
    S.Twins ns ms := by
  obtain ⟨links, hb, hlike, hns, hms⟩ := h
  cases hlike with
  | cons _ h =>
    exact ⟨links, hb, h, hns.of_subset fun _ ↦ List.mem_append_right _,
      hms.of_subset fun _ ↦ List.mem_append_right _⟩

/-- Nodes that are twins, one by one. -/
theorem Twins.forall₂ {ns ms : List Node} (h : S.Twins ns ms) :
    List.Forall₂ (fun n m ↦ S.Twins [n] [m]) ns ms := by
  induction ns generalizing ms with
  | nil =>
    obtain ⟨_, -, hlike, -⟩ := h
    cases hlike
    exact .nil
  | cons n ns ih =>
    cases ms with
    | nil =>
      obtain ⟨_, -, hlike, -⟩ := h
      cases hlike
    | cons m ms => exact .cons h.head (ih h.tail)

theorem Twins.times_eq {n m : Node} (h : S.Twins [n] [m]) : n.times = m.times := by
  obtain ⟨_, -, hlike, -⟩ := h
  cases hlike with
  | cons hn _ => cases hn <;> assumption

/-- A copy of a twin is a twin of the copy. -/
theorem Twins.copy {n m : Node} (h : S.Twins [n] [m]) (index : Nat) {s t : Supply}
    (hs : s.scope = S.left) (ht : t.scope = S.right) :
    ∃ T, S.Grows T ∧ (n.copy index s).2.scope = T.left ∧ (m.copy index t).2.scope = T.right ∧
      T.Twins (n.copy index s).1 (m.copy index t).1 := by
  obtain ⟨links, hb, hlike, hn, hm⟩ := h
  obtain ⟨links', hb', hlike', hn', hm'⟩ := relink_paired hb hlike hn hm s.link t.link
  rw [Node.copy, Node.copy]
  by_cases hi : index = 1
  · simp only [if_pos hi]
    exact ⟨S, .refl, hs, ht, links', hb', hlike', hn', hm'⟩
  · simp only [if_neg hi, hs, ht]
    obtain ⟨T, hg, hl, hr, hlike'', hn'', hm''⟩ := rescope_paired hb' hlike' hn' hm'
    exact ⟨T, hg, hl.symm, hr.symm, links', hb', hlike'', hn'', hm''⟩

end Stage

/-! ## Passes -/

namespace Copies

/-- Passes that make twins of what is related.  The second succeeds if the first does. -/
def Outcomes {α β : Type} (rel : Stage → α → β → Prop)
    (f : α → Supply → Except Fault (List Node × Supply))
    (g : β → Supply → Except Fault (List Node × Supply)) : Prop :=
  ∀ (S : Stage) a b s t out s', rel S a b → s.scope = S.left → t.scope = S.right →
    f a s = .ok (out, s') →
    ∃ T out' t', g b t = .ok (out', t') ∧ S.Grows T ∧ s'.scope = T.left ∧ t'.scope = T.right ∧
      Node.AllLike (.outcome T) out out'

theorem Outcomes.gather {α β : Type} {rel : Stage → α → β → Prop}
    (hmono : ∀ S T a b, Stage.Grows S T → rel S a b → rel T a b)
    {f : α → Supply → Except Fault (List Node × Supply)}
    {g : β → Supply → Except Fault (List Node × Supply)} (h : Outcomes rel f g) :
    Outcomes (fun S ↦ List.Forall₂ (rel S)) (gather f) (gather g) := by
  intro S as
  induction as generalizing S with
  | nil =>
    intro bs s t out s' hrel hs ht hf
    cases hrel
    cases hf
    exact ⟨S, [], t, rfl, .refl, hs, ht, .nil⟩
  | cons a as ih =>
    rintro (_ | ⟨b, bs⟩) s t out s' hrel hs ht hf
    · cases hrel
    obtain ⟨hab, hrel⟩ := List.forall₂_cons.1 hrel
    obtain ⟨out₁, s₁, out₂, hf₁, hf₂, rfl⟩ := gather_cons_eq_ok_iff.1 hf
    obtain ⟨T₁, out₁', t₁, hg₁, hgrow₁, hs₁, ht₁, hlike₁⟩ := h S a b s t out₁ s₁ hab hs ht hf₁
    have hrel₁ := hrel.imp fun a b ↦ hmono S T₁ a b hgrow₁
    obtain ⟨T₂, out₂', t₂, hg₂, hgrow₂, hs₂, ht₂, hlike₂⟩ := ih T₁ bs s₁ t₁ out₂ _ hrel₁ hs₁ ht₁ hf₂
    exact ⟨T₂, out₁' ++ out₂', t₂, gather_cons_eq_ok_iff.2 ⟨_, _, _, hg₁, hg₂, rfl⟩,
      hgrow₁.trans hgrow₂, hs₂, ht₂, (hlike₁.mono hgrow₂.le).append hlike₂⟩

theorem dissolve_outcomes {inside inside' : List Node → Supply → Except Fault (List Node × Supply)}
    (h : Outcomes Stage.Twins inside inside') (times times' : Option Multiplier) :
    Outcomes (fun S n m ↦ S.Twins [n] [m]) (dissolve inside times) (dissolve inside' times') := by
  intro S n m s t out s' htwins hs ht hf
  obtain ⟨links, hb, hlike, hn, hm⟩ := htwins
  cases hlike with
  | cons hnm _ =>
    cases hnm with
    | @element e f _ _ ns ms he _ hc =>
      obtain ⟨⟨out₁, s₁⟩, hf₁, hf⟩ := bind_eq_ok_iff.1 hf
      cases hf
      have hsub : S.Twins ns ms := by
        refine ⟨links, hb, hc, hn.of_subset ?_, hm.of_subset ?_⟩ <;>
        · intro p hp
          simp [Node.allPlaces, Node.places, hp]
      obtain ⟨T, out', t', hg, hgrow, hs', ht', hlike'⟩ := h S ns ms s t out₁ _ hsub hs ht hf₁
      have hle : (Likeness.paired S (Option.Rel links) Eq).Le (.outcome T) :=
        ⟨fun _ _ ↦ hgrow.value, fun _ _ ha ↦ ⟨ha.1, hgrow.value ha.2.1, trivial⟩,
          fun _ _ _ ↦ trivial⟩
      refine ⟨T, [.element f times' out'], t', ?_, hgrow, hs', ht',
        .singleton (.element (he.mono hle) trivial hlike')⟩
      rw [dissolve, hg]
      rfl
    | @text v w _ _ i j hv _ =>
      cases hf
      exact ⟨S, [.text w times' j], t, rfl, .refl, hs, ht, .singleton (.text i j hv trivial)⟩
    | @group ns ms _ _ i j _ hc =>
      have hsub : S.Twins ns ms := by
        refine ⟨links, hb, hc, hn.of_subset ?_, hm.of_subset ?_⟩ <;>
        · intro p hp
          simp [Node.allPlaces, Node.places, hp]
      exact h S ns ms s t out s' hsub hs ht hf

theorem unrollCopy_outcomes
    {below below' : Option Multiplier → List Node → Supply → Except Fault (List Node × Supply)}
    (h : ∀ times times', Outcomes Stage.Twins (below times) (below' times'))
    (inherited inherited' : Option Multiplier) (n m : Node) :
    Outcomes (fun S i j ↦ i = j ∧ S.Twins [n] [m]) (unrollCopy below inherited n)
      (unrollCopy below' inherited' m) := by
  rintro S index _ s t out s' ⟨rfl, htwins⟩ hs ht hf
  have hmono : ∀ S T (n m : Node), Stage.Grows S T → S.Twins [n] [m] → T.Twins [n] [m] :=
    fun _ _ _ _ hg hn ↦ hn.grow hg
  have hgather := fun times times' ↦
    Outcomes.gather hmono (dissolve_outcomes (h times times') times times')
  rw [unrollCopy] at hf
  rw [unrollCopy, ← htwins.times_eq]
  by_cases hcount : 1 < countOf n.times
  · rw [if_pos hcount] at hf ⊢
    obtain ⟨T, hg, hs', ht', hcopies⟩ := htwins.copy index hs ht
    obtain ⟨U, out', t', hg', hgrow, hrest⟩ :=
      hgather _ _ T _ _ _ _ out s' hcopies.forall₂ hs' ht' hf
    exact ⟨U, out', t', hg', hg.trans hgrow, hrest⟩
  · rw [if_neg hcount] at hf ⊢
    exact hgather _ _ S _ _ _ _ out s' htwins.forall₂ hs ht hf

theorem unrollNode_outcomes {limit : Nat}
    {below below' : Option Multiplier → Nat → List Node → Supply →
      Except Fault (List Node × Supply)}
    (h : ∀ times times' total total', total' ≤ total →
      Outcomes Stage.Twins (below times total) (below' times' total'))
    (inherited inherited' : Option Multiplier) {total total' : Nat} (htotal : total' ≤ total) :
    Outcomes (fun S n m ↦ S.Twins [n] [m]) (unrollNode limit below inherited total)
      (unrollNode limit below' inherited' total') := by
  intro S n m s t out s' htwins hs ht hf
  rw [unrollNode] at hf
  rw [unrollNode, ← htwins.times_eq]
  have hle : total' * countOf n.times ≤ total * countOf n.times := Nat.mul_le_mul_right _ htotal
  split at hf
  · cases hf
  next hlimit =>
    rw [if_neg (by omega)]
    refine Outcomes.gather ?_ (unrollCopy_outcomes (fun times times' ↦ h times times' _ _ hle)
      inherited inherited' n m) S _ _ s t out s' ?_ hs ht hf
    · rintro S T i j hg ⟨rfl, hn⟩
      exact ⟨rfl, hn.grow hg⟩
    · exact List.forall₂_same.2 fun i _ ↦ ⟨rfl, htwins⟩

/-- **Unrolling makes twins of twins.** -/
theorem unrollTo_outcomes (limit height : Nat) (inherited inherited' : Option Multiplier)
    {total total' : Nat} (htotal : total' ≤ total) :
    Outcomes Stage.Twins (unrollTo limit height inherited total)
      (unrollTo limit height inherited' total') := by
  induction height generalizing inherited inherited' total total' with
  | zero =>
    intro S ns ms s t out s' _ hs ht hf
    cases hf
    exact ⟨S, [], t, rfl, .refl, hs, ht, .nil⟩
  | succ height ih =>
    intro S ns ms s t out s' htwins hs ht hf
    rw [unrollTo_succ] at hf ⊢
    exact Outcomes.gather (fun _ _ _ _ hg hn ↦ hn.grow hg)
      (unrollNode_outcomes (fun times times' _ _ hle ↦ ih times times' hle) inherited inherited'
        htotal) S ns ms s t out s' htwins.forall₂ hs ht hf

end Copies

end Shorthand.Markup
