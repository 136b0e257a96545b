import Shorthand.Proofs.Unrolled
import Shorthand.Proofs.Demands

/-!
# The rules of carrying out multipliers

A node becomes its copies, one after the other, and each copy is dissolved: an element or a text
takes the multiplier around it, and a group is replaced by what the nodes in it become.  The rules
say so without the supply of fresh numbers: of a copy they only say that it is one.

* `Node.CopyOf` : copies; they differ in scopes and links at most.
* `Copies.UnrollsTo` : what nodes become.
* `Copies.unrollsTo_of_unroll` : unrolling goes by the rules.
-/

set_option autoImplicit false

namespace Shorthand.Markup

/-! ## Copies -/

/-- Puts all snippet fields of a value in one scope. -/
def Value.pooled (v : Value) : Value := v.mapScope fun s ↦ if s = 0 then 0 else 1

/-- The map that forgets in which scopes snippet fields are, and which attributes are one. -/
def pooler : Mapper where
  value := Value.pooled
  attr a := { a with value := Value.pooled a.value, link := none }

/-- What a tree differs in from one with other scopes: equal scopes stay equal, and different ones
different. -/
def Likeness.renamed (f : Nat → Nat) : Likeness where
  value v w := w = v.mapScope f
  attr a b := a.name = b.name
  times t u := t = u

/-- A copy of a node differs in the scopes of its snippet fields and in its links at most. -/
structure Node.CopyOf (m n : Node) : Prop where
  pooled : m.rewrite (fun _ ↦ pooler) = n.rewrite fun _ ↦ pooler
  renamed : ∃ f : Nat → Nat, f.Injective ∧ n.Like (.renamed f) m

theorem mapScope_id (v : Value) : v.mapScope id = v := by
  refine List.map_id'' (fun p ↦ ?_) v
  cases p <;> rfl

theorem Value.pooled_mapScope {f : Nat → Nat} (hf : ∀ s, f s = 0 ↔ s = 0) (v : Value) :
    Value.pooled (v.mapScope f) = Value.pooled v := by
  rw [pooled, pooled, Shorthand.Value.mapScope, Shorthand.Value.mapScope,
    Shorthand.Value.mapScope, List.map_map]
  refine List.map_congr_left fun p _ ↦ ?_
  cases p with
  | text => rfl
  | field => simp [hf]

theorem Node.CopyOf.refl (n : Node) : n.CopyOf n := by
  refine ⟨rfl, id, Function.injective_id, ?_⟩
  have h : Node.AllLike (.renamed id) [n] (Node.rewriteAll (fun _ ↦ settler []) [n]) := by
    refine Node.allLike_rewriteAll (fun _ ↦ rfl) (fun v ↦ (mapScope_id v).symm) (fun a ↦ ?_)
      (fun _ ↦ rfl) [n]
    exact congrArg Attribute.name a.current_nil.symm
  rw [Node.rewriteAll_settler_nil] at h
  cases h with
  | cons hn _ => exact hn

section Visit

variable {σ : Type} {v : Visitor σ} {m : Mapper}

theorem Element.rewrite_visit (hname : ∀ s, m.name (v.name s) = m.name s)
    (hvalue : ∀ x s, m.value (v.value x s).1 = m.value x)
    (hattr : ∀ a s, m.attr (v.attr a s).1 = m.attr a) (e : Element) (s : σ) :
    (e.visit v s).1.rewrite m = e.rewrite m := by
  have hwalk : ∀ {α β : Type} {f : α → σ → α × σ} {g : α → β},
      (∀ a s, g (f a s).1 = g a) → ∀ as s, (walk f as s).1.map g = as.map g := by
    intro α β f g h as
    induction as with
    | nil => exact fun _ ↦ rfl
    | cons a as ih => exact fun s ↦ congrArg₂ List.cons (h a s) (ih _)
  have hoption : ∀ (o : Option Value) (s : σ),
      (walkOption v.value o s).1.map m.value = o.map m.value := by
    intro o s
    cases o with
    | none => rfl
    | some x => exact congrArg some (hvalue x s)
  rw [Element.rewrite, Element.rewrite]
  simp only [Element.visit, hoption, hwalk hvalue, hwalk hattr, Option.map_map]
  congr 2
  exact funext hname

mutual

theorem Node.rewrite_visit (hname : ∀ s, m.name (v.name s) = m.name s)
    (hvalue : ∀ x s, m.value (v.value x s).1 = m.value x)
    (hattr : ∀ a s, m.attr (v.attr a s).1 = m.attr a) : ∀ (n : Node) (s : σ),
    (n.visit (fun _ ↦ v) s).1.rewrite (fun _ ↦ m) = n.rewrite fun _ ↦ m
  | .element e times children, s => by
    simp only [Node.visit, Node.rewrite, Element.rewrite_visit hname hvalue hattr,
      Node.rewriteAll_visitAll hname hvalue hattr children]
  | .text x times offset, s => by simp only [Node.visit, Node.rewrite, hvalue]
  | .group children times offset, s => by
    simp only [Node.visit, Node.rewrite, Node.rewriteAll_visitAll hname hvalue hattr children]

/-- A map that does not tell what a visit does. -/
theorem Node.rewriteAll_visitAll (hname : ∀ s, m.name (v.name s) = m.name s)
    (hvalue : ∀ x s, m.value (v.value x s).1 = m.value x)
    (hattr : ∀ a s, m.attr (v.attr a s).1 = m.attr a) : ∀ (ns : List Node) (s : σ),
    Node.rewriteAll (fun _ ↦ m) (Node.visitAll (fun _ ↦ v) ns s).1 = Node.rewriteAll (fun _ ↦ m) ns
  | [], _ => rfl
  | n :: ns, s => by
    simp only [Node.visitAll, Node.rewriteAll, Node.rewrite_visit hname hvalue hattr n,
      Node.rewriteAll_visitAll hname hvalue hattr ns]

end

end Visit

/-- One map after another that it does not tell. -/
theorem Node.rewriteAll_rewriteAll {m m' : Mapper} (hname : ∀ s, m.name (m'.name s) = m.name s)
    (hvalue : ∀ x, m.value (m'.value x) = m.value x) (hattr : ∀ a, m.attr (m'.attr a) = m.attr a)
    (ns : List Node) :
    Node.rewriteAll (fun _ ↦ m) (Node.rewriteAll (fun _ ↦ m') ns)
      = Node.rewriteAll (fun _ ↦ m) ns := by
  have h := Node.rewriteAll_visitAll (v := m'.visitor) (m := m) hname (fun x _ ↦ hvalue x)
    (fun a _ ↦ hattr a) ns ()
  rwa [Node.visitAll_visitor] at h

theorem pooled_moved {f : Nat → Nat} (hf : ∀ s, f s ≠ 0) (v : Value) :
    Value.pooled (Value.moved f v) = Value.pooled v := by
  refine Value.pooled_mapScope (fun s ↦ ?_) v
  by_cases hs : s = 0 <;> simp [hs, hf]

theorem pooled_moved_iterate {f : Nat → Nat} (hf : ∀ s, f s ≠ 0) (k : Nat) (v : Value) :
    Value.pooled ((Value.moved f)^[k] v) = Value.pooled v := by
  induction k generalizing v with
  | zero => rfl
  | succ k ih => rw [Function.iterate_succ_apply, ih, pooled_moved hf]

/-- A renaming that keeps 0 is injective if it was, and gives out no 0. -/
theorem injective_moved {f : Nat → Nat} (hf : f.Injective) (hpos : ∀ s, f s ≠ 0) :
    Function.Injective fun s ↦ if s = 0 then 0 else f s := by
  intro s t h
  dsimp only at h
  split at h <;> split at h
  next hs ht => rw [hs, ht]
  next => exact absurd h.symm (hpos t)
  next => exact absurd h (hpos s)
  next => exact hf h

/-- Copies are copies. -/
theorem Node.copyOf_copy {n m : Node} {s : Supply} (h : Copies.Ready [n] s) {index : Nat}
    (hm : (n.copy index s).1 = [m]) : m.CopyOf n := by
  obtain ⟨r, hr, -, hlike⟩ := Node.relink_spec [n] s.link
  have hlinked : Node.rewriteAll (fun _ ↦ pooler) (Node.relink [n] s.link).1
      = Node.rewriteAll (fun _ ↦ pooler) [n] := by
    rw [Node.relink_eq]
    refine Node.rewriteAll_visitAll (fun _ ↦ rfl) (fun _ _ ↦ rfl) (fun a r ↦ ?_) [n] _
    dsimp only [relinker]
    cases hl : a.link <;> simp [pooler]
  have hsingle : ∀ f : Nat → Nat, f.Injective →
      Node.rewriteAll (fun _ ↦ pooler) (n.copy index s).1 = Node.rewriteAll (fun _ ↦ pooler) [n] →
      Node.AllLike (.renamed f) [n] (n.copy index s).1 → m.CopyOf n := by
    intro f hf hpooled hrenamed
    rw [hm] at hpooled hrenamed
    cases hrenamed with
    | cons hn _ => exact ⟨(List.cons.inj hpooled).1, f, hf, hn⟩
  have hcopy : (n.copy index s).1 = if index = 1 then (Node.relink [n] s.link).1
      else (Node.rescope (Node.relink [n] s.link).1 s.scope).1 := by
    rw [Node.copy]
    dsimp only
    split <;> rfl
  rw [hcopy] at hsingle
  -- The first copy keeps its scopes, and the fields of the others move to fresh ones.
  by_cases hi : index = 1
  · rw [if_pos hi] at hsingle
    have hle : (Likeness.relinked r).Le (.renamed id) :=
      ⟨fun v _ h ↦ h ▸ (mapScope_id v).symm, fun _ _ h ↦ h.1, fun _ _ h ↦ h⟩
    exact hsingle id Function.injective_id hlinked (hlike.mono hle)
  · rw [if_neg hi] at hsingle
    obtain ⟨q, hq, -, hmap, -⟩ := Node.exists_moverIn h.pos (h.consistent.relinked hr hlike)
    have hpos : ∀ old, q.toFun old ≠ 0 := fun old ↦
      Nat.ne_of_gt (Nat.lt_of_lt_of_le h.pos (hq.le_toFun old))
    refine hsingle _ (injective_moved hq.toFun_injective hpos) ?_ ?_
    · rw [← hlinked, hmap]
      refine Node.rewriteAll_rewriteAll (fun _ ↦ rfl) (pooled_moved hpos) (fun a ↦ ?_) _
      simp only [pooler, moverIn, pooled_moved_iterate hpos]
    · rw [hmap]
      have hmoved : Node.AllLike (.renamed fun s ↦ if s = 0 then 0 else q.toFun s)
          (Node.relink [n] s.link).1
          (Node.rewriteAll (fun _ ↦ moverIn (Node.relink [n] s.link).1 q.toFun)
            (Node.relink [n] s.link).1) :=
        Node.allLike_rewriteAll (fun _ ↦ rfl) (fun _ ↦ rfl) (fun _ ↦ rfl) (fun _ ↦ rfl) _
      refine (hlike.comp hmoved).mono ⟨?_, ?_, ?_⟩
      · rintro _ _ ⟨v, rfl, rfl⟩
        rfl
      · rintro _ _ ⟨a, ha, ha'⟩
        exact ha.1.trans ha'
      · rintro _ _ ⟨t, rfl, rfl⟩
        rfl

namespace Copies

/-! ## Rules -/

mutual

/-- What nodes become; `inherited` is the multiplier around them. -/
inductive UnrollsTo : Option Multiplier → List Node → List Node → Prop where
  | nil (inherited : Option Multiplier) : UnrollsTo inherited [] []
  | cons {inherited : Option Multiplier} {n : Node} {ns first rest : List Node}
      (hn : CopiesTo inherited n (List.range' 1 (countOf n.times)) first)
      (hns : UnrollsTo inherited ns rest) : UnrollsTo inherited (n :: ns) (first ++ rest)

/-- What the copies of a node become, those with the given numbers. -/
inductive CopiesTo : Option Multiplier → Node → List Nat → List Node → Prop where
  | nil (inherited : Option Multiplier) (n : Node) : CopiesTo inherited n [] []
  | cons {inherited : Option Multiplier} {n m : Node} {index : Nat} {indices : List Nat}
      {first rest : List Node} (hm : m.CopyOf n)
      (hfirst : DissolvesTo (multiplierOf n.times inherited index) m first)
      (hrest : CopiesTo inherited n indices rest) :
      CopiesTo inherited n (index :: indices) (first ++ rest)

/-- What one node becomes that has no multiplier any more; `times` is the one around it. -/
inductive DissolvesTo : Option Multiplier → Node → List Node → Prop where
  | element {times : Option Multiplier} {e : Element} {t : Option Multiplier}
      {children below : List Node} (h : UnrollsTo times children below) :
      DissolvesTo times (.element e t children) [.element e times below]
  | text (times : Option Multiplier) (v : Value) (t : Option Multiplier) (offset : Nat) :
      DissolvesTo times (.text v t offset) [.text v times offset]
  | group {times : Option Multiplier} {children : List Node} {t : Option Multiplier} {offset : Nat}
      {below : List Node} (h : UnrollsTo times children below) :
      DissolvesTo times (.group children t offset) below

end

theorem Keeping.ready {nodes : List Node} {f : Supply → Except Fault (List Node × Supply)}
    (h : Keeping nodes f) {s s' : Supply} {out : List Node} (hready : Ready nodes s)
    (hf : f s = .ok (out, s')) : Ready nodes s' :=
  have hkeeps := h s out s' hready hf
  hready.mono hkeeps.ready.pos hkeeps.le

theorem dissolvesTo_of_dissolve
    {inside : List Node → Supply → Except Fault (List Node × Supply)} {times : Option Multiplier}
    {n : Node} {s s' : Supply} {out : List Node} (hready : Ready [n] s)
    (h : ∀ s out s', Ready n.children s → inside n.children s = .ok (out, s') →
      UnrollsTo times n.children out)
    (hf : dissolve inside times n s = .ok (out, s')) : DissolvesTo times n out := by
  cases n with
  | text v t offset =>
    cases hf
    exact .text times v t offset
  | group children t offset =>
    exact .group (h s out s' (hready.of_subset fun p hp ↦ List.mem_append_left _ hp) hf)
  | element e t children =>
    obtain ⟨⟨below, s₁⟩, hbelow, hf⟩ := bind_eq_ok_iff.1 hf
    cases hf
    refine .element (h s below _ (hready.of_subset fun p hp ↦ ?_) hbelow)
    exact List.mem_append_left _ (List.mem_append_right _ hp)

/-- A node goes by the rules if the nodes below it do. -/
theorem dissolvesTo_of_unrollCopy
    {below : Option Multiplier → List Node → Supply → Except Fault (List Node × Supply)} {n : Node}
    (h : ∀ times m s out s', n.SameBelow m → Ready m.children s →
      below times m.children s = .ok (out, s') → UnrollsTo times m.children out)
    {inherited : Option Multiplier} {index : Nat} {s s' : Supply} {out : List Node}
    (hready : Ready [n] s) (hf : unrollCopy below inherited n index s = .ok (out, s')) :
    ∃ m, m.CopyOf n ∧ DissolvesTo (multiplierOf n.times inherited index) m out := by
  have hgather : ∀ m s, n.SameBelow m → Ready [m] s →
      gather (dissolve (below (multiplierOf n.times inherited index))
        (multiplierOf n.times inherited index)) [m] s = .ok (out, s') →
      DissolvesTo (multiplierOf n.times inherited index) m out := by
    intro m s hsame hready hf
    obtain ⟨first, s₁, rest, hfirst, hrest, rfl⟩ := gather_cons_eq_ok_iff.1 hf
    cases hrest
    rw [List.append_nil]
    exact dissolvesTo_of_dissolve hready (fun s out s' ↦ h _ m s out s' hsame) hfirst
  rw [unrollCopy] at hf
  by_cases hcount : 1 < countOf n.times
  · rw [if_pos hcount] at hf
    obtain ⟨m, hm, hsame⟩ := Node.exists_copy n index s
    have hcopy := (copy_ready hready index).1
    rw [hm] at hcopy
    dsimp only at hf
    rw [hm] at hf
    exact ⟨m, Node.copyOf_copy hready hm, hgather m _ hsame hcopy hf⟩
  · rw [if_neg hcount] at hf
    exact ⟨n, .refl n, hgather n s (.refl n) hready hf⟩

/-- Unrolling goes by the rules. -/
theorem unrollsTo_of_unrollTo {limit height : Nat} {inherited : Option Multiplier} {total : Nat}
    {nodes out : List Node} {s s' : Supply} (hheight : Node.heights nodes ≤ height)
    (hready : Ready nodes s)
    (h : unrollTo limit height inherited total nodes s = .ok (out, s')) :
    UnrollsTo inherited nodes out := by
  -- Inside the induction on the height there are two more: over the nodes, and over the copies of
  -- each.  The supply goes from one to the next and stays fresh for those to come.
  induction height generalizing inherited total nodes out s s' with
  | zero =>
    cases h
    cases nodes with
    | nil => exact .nil inherited
    | cons n ns => cases n <;> simp [Node.heights, Node.height] at hheight
  | succ height ih =>
    have hcopies : ∀ n, n.height ≤ height + 1 → ∀ indices s out s', Ready [n] s →
        gather (unrollCopy (fun times ↦ unrollTo limit height times (total * countOf n.times))
          inherited n) indices s = .ok (out, s') → CopiesTo inherited n indices out := by
      intro n hn indices
      have hcopy : ∀ m, n.SameBelow m → Node.heights m.children ≤ height := fun m hsame ↦ by
        rw [hsame.heights]
        exact Nat.le_of_lt_succ (Nat.lt_of_lt_of_le (Node.heights_children_lt n) hn)
      induction indices with
      | nil =>
        intro s out s' _ hf
        cases hf
        exact .nil inherited n
      | cons index indices ihindices =>
        intro s out s' hready hf
        obtain ⟨first, s₁, rest, hfirst, hrest, rfl⟩ := gather_cons_eq_ok_iff.1 hf
        obtain ⟨m, hm, hdissolves⟩ := dissolvesTo_of_unrollCopy
          (fun times m s out s' hsame ↦ ih (hcopy m hsame)) hready hfirst
        have hkeeping := unrollCopy_keeping (fun times nodes ↦
          unrollTo_keeping limit height times (total * countOf n.times) nodes) inherited n index
        exact .cons hm hdissolves (ihindices s₁ rest s' (hkeeping.ready hready hfirst) hrest)
    rw [unrollTo_succ] at h
    induction nodes generalizing out s with
    | nil =>
      cases h
      exact .nil inherited
    | cons n ns ihns =>
      obtain ⟨first, s₁, rest, hfirst, hrest, rfl⟩ := gather_cons_eq_ok_iff.1 h
      have hn : Ready [n] s := hready.of_subset (places_subset List.mem_cons_self)
      have hns : Ready ns s := hready.of_subset fun p hp ↦ List.mem_append_right _ hp
      rw [Node.heights, Nat.max_le] at hheight
      have hs := (unrollNode_keeping (unrollTo_keeping limit height) inherited total n s first s₁ hn
        hfirst)
      have hrest := ihns hheight.2 (hns.mono hs.ready.pos hs.le) hrest
      rw [unrollNode] at hfirst
      split at hfirst
      · cases hfirst
      · exact .cons (hcopies n hheight.1 _ s first s₁ hn hfirst) hrest

/-- **Unrolling goes by the rules.** -/
theorem unrollsTo_of_unroll {limit : Nat} {abbreviation : String} {nodes out : List Node}
    (hc : Node.Consistent nodes) (h : unroll limit abbreviation nodes = .ok out) :
    UnrollsTo none nodes out := by
  obtain ⟨⟨_, s'⟩, hr, rfl⟩ := map_eq_ok_iff.1 (located_eq_ok_iff.1 h)
  exact unrollsTo_of_unrollTo (Nat.le_succ _) (ready_supplyFor hc) hr

end Copies

end Shorthand.Markup
