import Shorthand.Proofs.Literals
import Shorthand.Proofs.Copying
import Shorthand.Proofs.Instances

/-!
# What unrolling keeps

Copies get links that no attribute had before.  So attributes with one link stay one attribute: an
attribute with an old link is as it was, and those with a new link are all in one copy.  No literal
text is added on the way.

* `Copies.Keeps` : what is known of the outcome of a pass.
* `Copies.unrollTo_keeping` : unrolling is such a pass.
-/

set_option autoImplicit false

namespace Shorthand.Markup

/-- The links of a tree are below a number. -/
def Node.LinksBelow (nodes : List Node) (next : Nat) : Prop :=
  ∀ p ∈ Node.allPlaces nodes, ∀ k, p.2.link = some k → k < next

namespace Copies

/-- A tree whose linked attributes are each one attribute, with links that the supply does not give
out. -/
structure Ready (nodes : List Node) (s : Supply) : Prop where
  pos : 0 < s.scope
  consistent : Node.Consistent nodes
  below : Node.LinksBelow nodes s.link

/-- What a pass over a tree keeps: attributes with a link that was not given out on the way are
those of the tree, and so is the literal text. -/
structure Keeps (nodes : List Node) (s : Supply) (out : List Node) (s' : Supply) : Prop where
  le : s.link ≤ s'.link
  ready : Ready out s'
  old : ∀ p ∈ Node.allPlaces out, ∀ k, p.2.link = some k → k < s.link →
    ∃ q ∈ Node.allPlaces nodes, q.2 = p.2
  literals : Node.allLiterals out ⊆ Node.allLiterals nodes

/-- A pass that keeps what it should of a tree. -/
def Keeping (nodes : List Node) (f : Supply → Except Fault (List Node × Supply)) : Prop :=
  ∀ s out s', Ready nodes s → f s = .ok (out, s') → Keeps nodes s out s'

/-- Every number of a list is at most the greatest. -/
theorem le_foldl_max {α : Type} (f : α → Nat) (as : List α) (first : Nat) :
    first ≤ as.foldl (fun n a ↦ max n (f a)) first ∧
      ∀ a ∈ as, f a ≤ as.foldl (fun n a ↦ max n (f a)) first := by
  induction as generalizing first with
  | nil => exact ⟨Nat.le_refl _, by simp⟩
  | cons a as ih =>
    obtain ⟨hle, has⟩ := ih (max first (f a))
    exact ⟨Nat.le_trans (Nat.le_max_left _ _) hle,
      List.forall_mem_cons.2 ⟨Nat.le_trans (Nat.le_max_right _ _) hle, has⟩⟩

mutual

theorem links_eq : ∀ n : Node, n.links = n.places.filterMap (·.2.link)
  | .element e times children => by
    rw [Node.links, Node.places, List.filterMap_append, List.filterMap_map, allLinks_eq children]
    rfl
  | .text _ _ _ => rfl
  | .group children _ _ => allLinks_eq children

theorem allLinks_eq : ∀ ns : List Node, Node.allLinks ns = (Node.allPlaces ns).filterMap (·.2.link)
  | [] => rfl
  | n :: ns => by
    rw [Node.allLinks, Node.allPlaces, List.filterMap_append, links_eq n, allLinks_eq ns]

end

/-- The supply for a tree has not given out the links of the tree. -/
theorem ready_supplyFor {nodes : List Node} (hc : Node.Consistent nodes) :
    Ready nodes (supplyFor nodes) where
  pos := Nat.succ_pos _
  consistent := hc
  below p hp k hk := by
    have hmem : k ∈ Node.allLinks nodes := by
      rw [allLinks_eq]
      exact List.mem_filterMap.2 ⟨p, hp, hk⟩
    exact (le_foldl_max (· + 1) (Node.allLinks nodes) 0).2 k hmem

theorem Ready.mono {nodes : List Node} {s s' : Supply} (h : Ready nodes s) (hpos : 0 < s'.scope)
    (hle : s.link ≤ s'.link) : Ready nodes s' :=
  ⟨hpos, h.consistent, fun p hp k hk ↦ Nat.lt_of_lt_of_le (h.below p hp k hk) hle⟩

theorem Ready.of_subset {ns ms : List Node} {s : Supply} (h : Ready ns s)
    (hsub : Node.allPlaces ms ⊆ Node.allPlaces ns) : Ready ms s :=
  ⟨h.pos, h.consistent.of_subset hsub, fun p hp ↦ h.below p (hsub hp)⟩

theorem Keeps.mono {ns ms out : List Node} {s s' : Supply} (h : Keeps ms s out s')
    (hplaces : Node.allPlaces ms ⊆ Node.allPlaces ns)
    (hliterals : Node.allLiterals ms ⊆ Node.allLiterals ns) : Keeps ns s out s' := by
  refine ⟨h.le, h.ready, fun p hp k hk hlt ↦ ?_, List.Subset.trans h.literals hliterals⟩
  obtain ⟨q, hq, hqp⟩ := h.old p hp k hk hlt
  exact ⟨q, hplaces hq, hqp⟩

theorem keeps_nil {nodes : List Node} {s : Supply} (h : Ready nodes s) : Keeps nodes s [] s where
  le := Nat.le_refl _
  ready := ⟨h.pos, fun p hp ↦ by simp [Node.allPlaces] at hp,
    fun p hp ↦ by simp [Node.allPlaces] at hp⟩
  old p hp := by simp [Node.allPlaces] at hp
  literals := List.nil_subset _

theorem allLiterals_append (ns ms : List Node) :
    Node.allLiterals (ns ++ ms) = Node.allLiterals ns ++ Node.allLiterals ms := by
  induction ns with
  | nil => rfl
  | cons n ns ih => rw [List.cons_append, Node.allLiterals, Node.allLiterals, ih, List.append_assoc]

/-- What two passes over a tree keep, one after the other. -/
theorem Keeps.append {nodes out out' : List Node} {s s₁ s₂ : Supply} (hready : Ready nodes s)
    (h : Keeps nodes s out s₁) (h' : Keeps nodes s₁ out' s₂) : Keeps nodes s (out ++ out') s₂ := by
  -- a link of both outcomes is an old one, since that of the first was given out before the second
  have hcross : ∀ p ∈ Node.allPlaces out, ∀ q ∈ Node.allPlaces out', ∀ k, p.2.link = some k →
      q.2.link = some k → p.2 = q.2 := by
    intro p hp q hq k hpk hqk
    obtain ⟨b, hb, hbq⟩ := h'.old q hq k hqk (h.ready.below p hp k hpk)
    have hbk : b.2.link = some k := by rw [hbq]; exact hqk
    obtain ⟨a, ha, hap⟩ := h.old p hp k hpk (hready.below b hb k hbk)
    rw [← hap, ← hbq]
    exact hready.consistent a ha b hb k (by rw [hap]; exact hpk) hbk
  refine ⟨Nat.le_trans h.le h'.le, ⟨h'.ready.pos, ?_, ?_⟩, ?_, ?_⟩
  · intro p hp q hq k hpk hqk
    rw [Node.allPlaces_append] at hp hq
    rcases List.mem_append.1 hp with hp | hp <;> rcases List.mem_append.1 hq with hq | hq
    · exact h.ready.consistent p hp q hq k hpk hqk
    · exact hcross p hp q hq k hpk hqk
    · exact (hcross q hq p hp k hqk hpk).symm
    · exact h'.ready.consistent p hp q hq k hpk hqk
  · intro p hp k hk
    rw [Node.allPlaces_append] at hp
    rcases List.mem_append.1 hp with hp | hp
    · exact Nat.lt_of_lt_of_le (h.ready.below p hp k hk) h'.le
    · exact h'.ready.below p hp k hk
  · intro p hp k hk hlt
    rw [Node.allPlaces_append] at hp
    rcases List.mem_append.1 hp with hp | hp
    · exact h.old p hp k hk hlt
    · exact h'.old p hp k hk (Nat.lt_of_lt_of_le hlt h.le)
  · rw [allLiterals_append]
    exact List.append_subset.2 ⟨h.literals, h'.literals⟩

theorem gather_keeping {α : Type} {nodes : List Node}
    {f : α → Supply → Except Fault (List Node × Supply)} {as : List α}
    (h : ∀ a ∈ as, Keeping nodes (f a)) : Keeping nodes (gather f as) := by
  intro s out s' hready hf
  induction as generalizing s out with
  | nil =>
    cases hf
    exact keeps_nil hready
  | cons a as ih =>
    obtain ⟨first, s₁, rest, h₁, h₂, rfl⟩ := gather_cons_eq_ok_iff.1 hf
    have hfirst := h a List.mem_cons_self s first s₁ hready h₁
    exact hfirst.append hready
      (ih (fun b hb ↦ h b (List.mem_cons_of_mem a hb)) s₁ rest
        (hready.mono hfirst.ready.pos hfirst.le) h₂)

theorem places_subset {n : Node} {ns : List Node} (hn : n ∈ ns) :
    Node.allPlaces [n] ⊆ Node.allPlaces ns := by
  intro p hp
  simp only [Node.allPlaces, List.append_nil] at hp
  induction ns with
  | nil => simp at hn
  | cons m ns ih =>
    rcases List.mem_cons.1 hn with rfl | hn
    · exact List.mem_append_left _ hp
    · exact List.mem_append_right _ (ih hn)

theorem literals_subset {n : Node} {ns : List Node} (hn : n ∈ ns) :
    Node.allLiterals [n] ⊆ Node.allLiterals ns := by
  induction ns with
  | nil => simp at hn
  | cons m ns ih =>
    rw [Node.allLiterals, Node.allLiterals, List.append_nil, Node.allLiterals]
    rcases List.mem_cons.1 hn with rfl | hn
    · exact List.subset_append_left _ _
    · have := ih hn
      rw [Node.allLiterals, Node.allLiterals, List.append_nil] at this
      exact List.Subset.trans this (List.subset_append_right _ _)

/-- A pass over the nodes of a list, one by one. -/
theorem gather_nodes_keeping {f : Node → Supply → Except Fault (List Node × Supply)}
    (h : ∀ n, Keeping [n] (f n)) (nodes : List Node) : Keeping nodes (gather f nodes) :=
  gather_keeping fun n hn s out s' hready hf ↦
    (h n s out s' (hready.of_subset (places_subset hn)) hf).mono (places_subset hn)
      (literals_subset hn)

/-- What an element keeps whose children were passed over: its own attributes are old ones, and all
that is new is below it. -/
theorem Keeps.element {e : Element} {t times : Option Multiplier} {children below : List Node}
    {s s' : Supply} (hready : Ready [.element e t children] s) (h : Keeps children s below s') :
    Keeps [.element e t children] s [.element e times below] s' := by
  have hout : ∀ p ∈ Node.allPlaces [.element e times below],
      (∃ q ∈ Node.allPlaces [.element e t children], q.2 = p.2) ∨ p ∈ Node.allPlaces below := by
    intro p hp
    simp only [Node.allPlaces, Node.places, List.append_nil, List.mem_append, List.mem_map] at hp
    rcases hp with ⟨a, ha, rfl⟩ | hp
    · exact .inl ⟨(t, a), by simp [Node.allPlaces, Node.places, ha], rfl⟩
    · exact .inr hp
  have hold : ∀ p ∈ Node.allPlaces [.element e times below], ∀ k, p.2.link = some k →
      k < s.link → ∃ q ∈ Node.allPlaces [.element e t children], q.2 = p.2 := by
    intro p hp k hk hlt
    rcases hout p hp with hp | hp
    · exact hp
    · obtain ⟨q, hq, hqp⟩ := h.old p hp k hk hlt
      exact ⟨q, by simp [Node.allPlaces, Node.places, hq], hqp⟩
  have hnew : ∀ p ∈ Node.allPlaces [.element e times below], ∀ k, p.2.link = some k →
      k < s.link ∨ p ∈ Node.allPlaces below := by
    intro p hp k hk
    refine (hout p hp).imp_left ?_
    rintro ⟨q, hq, hqp⟩
    exact hready.below q hq k (by rw [hqp]; exact hk)
  refine ⟨h.le, ⟨h.ready.pos, fun p hp q hq k hpk hqk ↦ ?_, fun p hp k hk ↦ ?_⟩, hold, ?_⟩
  · by_cases hlt : k < s.link
    · obtain ⟨p', hp', hpp⟩ := hold p hp k hpk hlt
      obtain ⟨q', hq', hqq⟩ := hold q hq k hqk hlt
      rw [← hpp, ← hqq]
      exact hready.consistent p' hp' q' hq' k (by rw [hpp]; exact hpk) (by rw [hqq]; exact hqk)
    · exact h.ready.consistent p ((hnew p hp k hpk).resolve_left hlt) q
        ((hnew q hq k hqk).resolve_left hlt) k hpk hqk
  · rcases hnew p hp k hk with hlt | hp
    · exact Nat.lt_of_lt_of_le hlt h.le
    · exact h.ready.below p hp k hk
  · simp only [Node.allLiterals, Node.literals, List.append_nil]
    exact List.append_subset.2 ⟨List.subset_append_left _ _,
      List.Subset.trans h.literals (List.subset_append_right _ _)⟩

theorem dissolve_keeping {inside : List Node → Supply → Except Fault (List Node × Supply)}
    (h : ∀ nodes, Keeping nodes (inside nodes)) (times : Option Multiplier) (n : Node) :
    Keeping [n] (dissolve inside times n) := by
  intro s out s' hready hf
  cases n with
  | text v t offset =>
    cases hf
    exact ⟨Nat.le_refl _, ⟨hready.pos, fun p hp ↦ by simp [Node.allPlaces, Node.places] at hp,
      fun p hp ↦ by simp [Node.allPlaces, Node.places] at hp⟩,
      fun p hp ↦ by simp [Node.allPlaces, Node.places] at hp, List.Subset.refl _⟩
  | group children t offset =>
    have hplaces : Node.allPlaces children ⊆ Node.allPlaces [.group children t offset] := by
      intro p hp
      simpa [Node.allPlaces, Node.places] using hp
    refine (h children s out s' (hready.of_subset hplaces) hf).mono hplaces ?_
    intro x hx
    simpa [Node.allLiterals, Node.literals] using hx
  | element e t children =>
    obtain ⟨⟨below, s₁⟩, h₁, hf⟩ := bind_eq_ok_iff.1 hf
    cases hf
    have hplaces : Node.allPlaces children ⊆ Node.allPlaces [.element e t children] := by
      intro p hp
      simp [Node.allPlaces, Node.places, hp]
    exact (h children s below _ (hready.of_subset hplaces) h₁).element hready

/-- A copy has links that were not given out before, and the literal text of the node. -/
theorem copy_ready {n : Node} {s : Supply} (h : Ready [n] s) (index : Nat) :
    Ready (n.copy index s).1 (n.copy index s).2 ∧ s.link ≤ (n.copy index s).2.link ∧
      (∀ p ∈ Node.allPlaces (n.copy index s).1, ∀ k, p.2.link = some k → s.link ≤ k) ∧
      Node.allLiterals (n.copy index s).1 = Node.allLiterals [n] := by
  obtain ⟨r, hr, hnext, hlike⟩ := Node.relink_spec [n] s.link
  have hc := h.consistent.relinked hr hlike
  have hlinks : ∀ p ∈ Node.allPlaces (Node.relink [n] s.link).1, ∀ k, p.2.link = some k →
      s.link ≤ k ∧ k < r.next := by
    intro p hp k hk
    obtain ⟨q, -, hqp⟩ := forall₂_mem_right hlike.places hp
    have hrel := hqp.2.2
    rw [hk] at hrel
    cases hq : q.2.link with
    | none =>
      rw [hq] at hrel
      cases hrel
    | some old =>
      rw [hq] at hrel
      cases hrel with
      | some hold => exact hr.range old k hold
  have hliterals := (hlike.literals_eq (Likeness.keepsLiterals_relinked r)).symm
  rw [Node.copy]
  by_cases hi : index = 1
  · simp only [if_pos hi, hnext]
    exact ⟨⟨h.pos, hc, fun p hp k hk ↦ (hlinks p hp k hk).2⟩, hr.first_le,
      fun p hp k hk ↦ (hlinks p hp k hk).1, hliterals⟩
  · simp only [if_neg hi, hnext]
    obtain ⟨q, hq, hqnext, hqlike⟩ := Node.rescope_spec h.pos hc
    have hplaces : ∀ p ∈ Node.allPlaces (Node.rescope (Node.relink [n] s.link).1 s.scope).1,
        ∀ k, p.2.link = some k → s.link ≤ k ∧ k < r.next := by
      intro p hp k hk
      obtain ⟨p', hp', hpp⟩ := forall₂_mem_right hqlike.places hp
      refine hlinks p' hp' k ?_
      rw [← hk, hpp.1]
      rfl
    refine ⟨⟨?_, hc.rescoped hqlike, fun p hp k hk ↦ (hplaces p hp k hk).2⟩, hr.first_le,
      fun p hp k hk ↦ (hplaces p hp k hk).1, ?_⟩
    · rw [hqnext]
      exact Nat.lt_of_lt_of_le h.pos hq.first_le
    · exact (hqlike.literals_eq (Likeness.keepsLiterals_rescoped _ q)).symm.trans hliterals

theorem unrollCopy_keeping
    {below : Option Multiplier → List Node → Supply → Except Fault (List Node × Supply)}
    (h : ∀ times nodes, Keeping nodes (below times nodes)) (inherited : Option Multiplier)
    (n : Node) (index : Nat) : Keeping [n] (unrollCopy below inherited n index) := by
  intro s out s' hready hf
  have hgather := fun times nodes ↦ gather_nodes_keeping (dissolve_keeping (h times) times) nodes
  rw [unrollCopy] at hf
  by_cases hcount : 1 < countOf n.times
  · rw [if_pos hcount] at hf
    obtain ⟨hcopy, hle, hnew, hliterals⟩ := copy_ready hready index
    have hkeeps := hgather _ _ _ out s' hcopy hf
    refine ⟨Nat.le_trans hle hkeeps.le, hkeeps.ready, fun p hp k hk hlt ↦ ?_,
      hliterals ▸ hkeeps.literals⟩
    obtain ⟨q, hq, hqp⟩ := hkeeps.old p hp k hk (Nat.lt_of_lt_of_le hlt hle)
    have := hnew q hq k (by rw [hqp]; exact hk)
    omega
  · rw [if_neg hcount] at hf
    exact hgather _ _ s out s' hready hf

theorem unrollNode_keeping {limit : Nat}
    {below : Option Multiplier → Nat → List Node → Supply → Except Fault (List Node × Supply)}
    (h : ∀ times total nodes, Keeping nodes (below times total nodes))
    (inherited : Option Multiplier) (total : Nat) (n : Node) :
    Keeping [n] (unrollNode limit below inherited total n) := by
  intro s out s' hready hf
  rw [unrollNode] at hf
  split at hf
  · cases hf
  · exact gather_keeping (fun index _ ↦ unrollCopy_keeping (fun times ↦ h times _) inherited n
      index) s out s' hready hf

/-- **What unrolling keeps.** -/
theorem unrollTo_keeping (limit height : Nat) (inherited : Option Multiplier) (total : Nat)
    (nodes : List Node) : Keeping nodes (unrollTo limit height inherited total nodes) := by
  induction height generalizing inherited total nodes with
  | zero =>
    intro s out s' hready hf
    cases hf
    exact keeps_nil hready
  | succ height ih =>
    rw [funext (unrollTo_succ limit height inherited total nodes)]
    exact gather_nodes_keeping (unrollNode_keeping ih inherited total) nodes

end Copies

end Shorthand.Markup
