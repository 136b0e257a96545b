import Shorthand.Proofs.Reflecting
import Shorthand.Proofs.Unrolled

/-!
# Copies of a tree, next to trees expanded one after the other

A multiplier copies one tree and moves the fields of the copies to fresh scopes.  Copies that were
written out are expanded each on its own, so that their scopes differ by a constant.  Field by field
the two pair up.

The pairing of a later copy is exact if the moves keep fields together that are one stop.  They do
if the values that show them are shown equally often, since an attribute is moved as many times as
it is shown; and if they do not, one stop of the tree becomes two in the copy.

* `Node.EquallyShown` : fields that are one stop are shown equally often.
* `Stage.extend` : the pairs of a copy and a tree expanded on its own.
-/

set_option autoImplicit false

namespace Shorthand.Markup

/-! ## How often values are shown -/

mutual

/-- The values of a node and of the nodes below it that are not those of attributes. -/
def Node.plainValues : Node → List Value
  | .element e _ children => e.ownValues ++ Node.allPlainValues children
  | .text value _ _ => [value]
  | .group children _ _ => Node.allPlainValues children

/-- The values of a list of nodes that are not those of attributes. -/
def Node.allPlainValues : List Node → List Value
  | [] => []
  | n :: ns => n.plainValues ++ Node.allPlainValues ns

end

/-- The values of a tree, each with the number of places that show it. -/
def Node.shown (nodes : List Node) : List (Value × Nat) :=
  (Node.allPlainValues nodes).map (·, 1) ++
    (Node.allPlaces nodes).map fun p ↦ (p.2.value, Node.shownIn nodes p.2)

/-- Snippet fields that are one stop stand in values that are shown equally often. -/
def Node.EquallyShown (nodes : List Node) : Prop :=
  ∀ p ∈ Node.shown nodes, ∀ q ∈ Node.shown nodes, ∀ f ∈ p.1.fields, ∀ g ∈ q.1.fields,
    f.index ≠ 0 → f.scope ≠ 0 → f.index = g.index → f.scope = g.scope → p.2 = q.2

/-- Everything is shown somewhere. -/
theorem Node.one_le_of_mem_shown {nodes : List Node} {p : Value × Nat} (hp : p ∈ Node.shown nodes) :
    1 ≤ p.2 := by
  rcases List.mem_append.1 hp with hp | hp
  · obtain ⟨v, -, rfl⟩ := List.mem_map.1 hp
    exact Nat.le_refl _
  · obtain ⟨q, hq, rfl⟩ := List.mem_map.1 hp
    rw [Node.shownIn]
    split
    · exact Nat.le_refl _
    · next link hlink => exact List.countP_pos_iff.2 ⟨q, hq, by simpa using hlink⟩

section Shown

variable {P P' : Value → Prop} {Q Q' : Attribute → Prop}

mutual

theorem Node.Regular.of_values : ∀ {n : Node}, n.Regular P Q → (∀ v ∈ n.plainValues, P' v) →
    (∀ p ∈ n.places, Q' p.2) → n.Regular P' Q'
  | _, .element he ht hc, hv, hp => by
    obtain ⟨hown, hv⟩ := List.forall_mem_append.1 hv
    obtain ⟨hattr, hp⟩ := List.forall_mem_append.1 hp
    exact .element ⟨hown, fun a ha ↦ hattr _ (List.mem_map_of_mem ha), he.names⟩ ht
      (Node.AllRegular.of_values hc hv hp)
  | _, .text i _ ht, hv, _ => .text i (hv _ List.mem_cons_self) ht
  | _, .group i ht hc, hv, hp => .group i ht (Node.AllRegular.of_values hc hv hp)

/-- A regular tree is regular with whatever holds of its values. -/
theorem Node.AllRegular.of_values : ∀ {ns : List Node}, Node.AllRegular P Q ns →
    (∀ v ∈ Node.allPlainValues ns, P' v) → (∀ p ∈ Node.allPlaces ns, Q' p.2) →
    Node.AllRegular P' Q' ns
  | _, .nil, _, _ => .nil
  | _, .cons hn hns, hv, hp => by
    obtain ⟨hv, hvs⟩ := List.forall_mem_append.1 hv
    obtain ⟨hp, hps⟩ := List.forall_mem_append.1 hp
    exact .cons (Node.Regular.of_values hn hv hp) (Node.AllRegular.of_values hns hvs hps)

end

mutual

theorem Node.Regular.plainValues : ∀ {n : Node}, n.Regular P Q → ∀ v ∈ n.plainValues, P v
  | _, .element he _ hc => List.forall_mem_append.2 ⟨he.values, Node.AllRegular.plainValues hc⟩
  | _, .text _ hv _ => by simpa [Node.plainValues] using hv
  | _, .group _ _ hc => Node.AllRegular.plainValues hc

theorem Node.AllRegular.plainValues : ∀ {ns : List Node}, Node.AllRegular P Q ns →
    ∀ v ∈ Node.allPlainValues ns, P v
  | _, .nil => by simp [Node.allPlainValues]
  | _, .cons hn hns =>
    List.forall_mem_append.2 ⟨Node.Regular.plainValues hn, Node.AllRegular.plainValues hns⟩

end

/-- A regular tree is regular with what is shown of it. -/
theorem Node.AllRegular.shown {ns : List Node} (h : Node.AllRegular P Q ns) :
    Node.AllRegular (fun v ↦ P v ∧ (v, 1) ∈ Node.shown ns)
      (fun a ↦ Q a ∧ (a.value, Node.shownIn ns a) ∈ Node.shown ns) ns :=
  h.of_values
    (fun v hv ↦ ⟨h.plainValues v hv, List.mem_append_left _ (List.mem_map_of_mem hv)⟩)
    fun p hp ↦ ⟨h.places p hp, List.mem_append_right _
      (List.mem_map_of_mem (f := fun p ↦ (p.2.value, Node.shownIn ns p.2)) hp)⟩

end Shown

/-! ## The pairs of a copy -/

namespace Stage

variable {S T : Stage}

/-- Two moves of one value pair it, if they pair its fields. -/
theorem value_mapScope_iff {f g : Nat → Nat} {v : Value} :
    S.value (v.mapScope f) (v.mapScope g) ↔
      ∀ x ∈ v.fields, x.index = 0 ∨ S.pairs x.index (f x.scope) (g x.scope) := by
  induction v with
  | nil => exact iff_of_true .nil (by simp [Value.fields])
  | cons p v ih =>
    refine List.forall₂_cons.trans ((and_congr_right fun _ ↦ ih).trans ?_)
    cases p with
    | text s => exact and_iff_right (.text s)
    | field y =>
      change _ ↔ ∀ x ∈ y :: Value.fields v, _
      rw [List.forall_mem_cons]
      refine and_congr_left fun _ ↦ ⟨?_, fun h ↦ .field ⟨rfl, rfl, h⟩⟩
      rintro (_ | ⟨-, -, h⟩)
      exact h

theorem moved_iterate_eq {f : Nat → Nat} (hf : ∀ s, f s ≠ 0) (m : Nat) (v : Value) :
    (Value.moved f)^[m] v = Value.moved f^[m] v := by
  rw [moved_iterate, Value.moved]
  exact congrArg v.mapScope (funext fun s ↦ scope_move_iterate hf m s)

/-- Two moves of one value pair it, if they pair its snippet fields, and the user's fields are those
of the user. -/
theorem value_moved_iff (huser : ∀ i, S.pairs i 0 0) {f g : Nat → Nat} {v : Value} :
    S.value (Value.moved f v) (Value.moved g v) ↔ ∀ x ∈ v.fields, x.index ≠ 0 → x.scope ≠ 0 →
      S.pairs x.index (f x.scope) (g x.scope) := by
  rw [Value.moved, Value.moved, value_mapScope_iff]
  refine forall₂_congr fun x _ ↦ ?_
  by_cases h0 : x.scope = 0
  · simp [h0, huser]
  · simp [h0, or_iff_not_imp_left]

/-- What is known of the pairs while copies are made next to groups: those so far are of scopes of
earlier groups, or of fresh ones. -/
structure Before (S : Stage) (next bound : Nat) : Prop where
  user : ∀ i, S.pairs i 0 0
  right : ∀ i s t, S.pairs i s t → t < next ∨ bound ≤ t
  bound_le : bound ≤ S.right

theorem Grows.before (h : S.Grows T) {next bound : Nat} (hS : S.Before next bound) :
    T.Before next bound where
  user i := h.pairs (hS.user i)
  right i s t hp := (h.fresh hp).elim (hS.right i s t) fun hfresh ↦
    .inr (Nat.le_trans hS.bound_le hfresh.2)
  bound_le := Nat.le_trans hS.bound_le h.right_le

/-- The pairs when the fields of a tree have moved by `f`, each as many times as it is shown, and
those of a group are greater by `d`. -/
def extend (S : Stage) (tree : List Node) (f : Nat → Nat) (d bound left : Nat)
    (hf : ∀ s, S.left ≤ f s) (hl : S.left ≤ left) : Stage where
  pairs i s t := S.pairs i s t ∨ ∃ p ∈ Node.shown tree, ∃ x ∈ p.1.fields, x.index = i ∧ i ≠ 0 ∧
    x.scope ≠ 0 ∧ s = f^[p.2] x.scope ∧ t = x.scope + d ∧ s < left ∧ t < bound
  left := left
  right := S.right
  left_pos := S.left_pos_of_le hl
  right_pos := S.right_pos
  zero i s t h := by
    rcases h with h | ⟨p, hp, x, -, -, -, h0, rfl, rfl, -⟩
    · exact S.zero i s t h
    · obtain ⟨m, hm⟩ := Nat.exists_eq_add_of_le' (Node.one_le_of_mem_shown hp)
      have := iterate_ge hf m x.scope
      have := S.left_pos
      rw [hm]
      omega

section Extend

variable {tree : List Node} {f : Nat → Nat} {d bound left : Nat} {hf : ∀ s, S.left ≤ f s}
  {hl : S.left ≤ left}

theorem extend_before {x : Nat} (hS : S.Before (1 + d) bound)
    (htree : ∀ p ∈ Node.shown tree, Value.Below (1 + x) p.1) :
    (S.extend tree f d bound left hf hl).Before (1 + (d + x)) bound where
  user i := .inl (hS.user i)
  right := by
    rintro i s t (hp | ⟨p, hp, y, hy, -, -, -, -, rfl, -⟩)
    · exact (hS.right i s t hp).imp_left fun h ↦ by omega
    · have := htree p hp y hy
      exact .inl (by omega)
  bound_le := hS.bound_le

/-- **The pairing with a copy is exact** if fields that are one stop are shown equally often. -/
theorem extend_exact (hexact : S.Exact) (hS : S.Before (1 + d) bound)
    (hshown : Node.EquallyShown tree) (hinj : Function.Injective f)
    (htree : ∀ p ∈ Node.shown tree, Value.Below S.left p.1) :
    (S.extend tree f d bound left hf hl).Exact := by
  have hold : ∀ {i s s' t : Nat}, S.pairs i s t → ∀ p ∈ Node.shown tree, ∀ x ∈ p.1.fields,
      x.scope ≠ 0 → t = x.scope + d → t < bound → s = s' := by
    intro i s s' t hp p _ x _ h0 ht hlt
    have := hS.right i s t hp
    omega
  have hnew : ∀ {i s t t' : Nat}, S.pairs i s t → ∀ p ∈ Node.shown tree, ∀ x : Field,
      s = f^[p.2] x.scope → t = t' := by
    intro i s t t' hst p hp x hs
    obtain ⟨m, hm⟩ := Nat.exists_eq_add_of_le' (Node.one_le_of_mem_shown hp)
    have := iterate_ge hf m x.scope
    have := (hexact.bound i s t hst).1
    rw [hm] at hs
    omega
  refine ⟨⟨?_, ?_⟩, ?_⟩
  · rintro i s s' t (hst | ⟨p, hp, x, hx, rfl, hi, h0, rfl, rfl, -, hlt⟩)
      (hst' | ⟨q, hq, y, hy, hyi, -, h0', rfl, ht, -, hlt'⟩)
    · exact hexact.left_unique i s s' t hst hst'
    · exact hold hst q hq y hy h0' ht hlt'
    · exact (hold hst' p hp x hx h0 rfl hlt).symm
    · have hscope : x.scope = y.scope := by omega
      rw [hshown p hp q hq x hx y hy hi h0 hyi.symm hscope, hscope]
  · rintro i s t t' (hst | ⟨p, hp, x, hx, rfl, hi, h0, rfl, rfl, -, hlt⟩)
      (hst' | ⟨q, hq, y, hy, hyi, -, h0', hs, rfl, -, hlt'⟩)
    · exact hexact.right_unique i s t t' hst hst'
    · exact hnew hst q hq y hs
    · exact (hnew hst' p hp x rfl).symm
    · rw [(iterate_inj hinj hf (htree p hp x hx) (htree q hq y hy) hs).2]
  · rintro i s t (hst | ⟨p, hp, x, hx, rfl, hi, h0, rfl, rfl, hs, ht⟩)
    · have := hexact.bound i s t hst
      exact ⟨Nat.lt_of_lt_of_le this.1 hl, this.2⟩
    · exact ⟨hs, Nat.lt_of_lt_of_le ht hS.bound_le⟩

end Extend

end Stage

/-! ## Copies of a group -/

theorem Node.Consistent.same {ns ms : List Node} (hc : Node.Consistent ns)
    (h : Node.AllLike .same ns ms) : Node.Consistent ms := by
  refine hc.of_allLike h ?_ ?_
  · rintro a b _ _ k rfl rfl ha hb
    exact ⟨k, ha, hb⟩
  · rintro a _ _ rfl rfl -
    rfl

/-- What a later copy differs in: it has links of its own, and its fields have moved. -/
def Likeness.copied (nodes : List Node) (r q : Renaming) : Likeness where
  value v w := w = Value.moved q.toFun v ∧ Value.Below q.next w
  attr a b := a.name = b.name ∧
    b.value = (Value.moved q.toFun)^[Node.shownIn nodes a] a.value ∧ Value.Below q.next b.value ∧
    Option.Rel (fun old new ↦ r.known.lookup old = some new) a.link b.link
  times t u := t = u

section Group

variable {tree ms : List Node}

theorem Node.relink_group (h : Node.AllLike .same tree ms) (hc : Node.Consistent tree)
    (next : Nat) (times : Option Multiplier) (offset : Nat) :
    ∃ (r : Renaming) (ms' : List Node) (offset' : Nat),
      Node.relink [.group ms times offset] next = ([.group ms' times offset'], r.next) ∧
      r.Fresh next ∧ Node.AllLike (.relinked r) tree ms' ∧ Node.Consistent ms' := by
  obtain ⟨r, hr, hnext, hlike⟩ := Node.relink_spec [.group ms times offset] next
  have hgroup : Node.Consistent [.group ms times offset] := (hc.same h).of_subset fun p hp ↦ by
    simpa [Node.allPlaces, Node.places] using hp
  have hc' := hgroup.relinked hr hlike
  generalize hrun : Node.relink [.group ms times offset] next = run at hnext hlike hc'
  obtain ⟨nodes, next'⟩ := run
  obtain rfl : next' = r.next := hnext
  rcases hlike with - | ⟨hn, hnil⟩
  cases hnil
  cases hn with
  | @group _ ms' _ times' _ offset' ht hms =>
    obtain rfl : times = times' := ht
    refine ⟨r, ms', offset', rfl, hr, (h.comp hms).mono ⟨?_, ?_, ?_⟩, hc'.of_subset fun p hp ↦ by
      simpa [Node.allPlaces, Node.places] using hp⟩
    · rintro v w ⟨_, rfl, hw⟩
      exact hw
    · rintro a b ⟨_, rfl, hb⟩
      exact hb
    · rintro t u ⟨_, rfl, hu⟩
      exact hu

theorem Renaming.Fresh.biUnique {first : Nat} {r : Renaming} (hr : r.Fresh first) :
    Relator.BiUnique fun old new ↦ r.known.lookup old = some new :=
  ⟨fun _ _ new h h' ↦ hr.inj _ _ new h h', fun _ _ _ h h' ↦ Option.some.inj (h.symm.trans h')⟩

/-- A later copy of a group. -/
theorem Node.copy_group (h : Node.AllLike .same tree ms) (hc : Node.Consistent tree) {s : Supply}
    (hs : 0 < s.scope) {index : Nat} (hi : index ≠ 1) (times : Option Multiplier) (offset : Nat) :
    ∃ (r q : Renaming) (ms' : List Node) (offset' : Nat),
      (Node.group ms times offset).copy index s
        = ([.group ms' times offset'], { scope := q.next, link := r.next }) ∧
      r.Fresh s.link ∧ q.Fresh s.scope ∧ Node.AllLike (.copied tree r q) tree ms' ∧
      Node.Consistent ms' := by
  obtain ⟨r, ms₁, offset₁, hrelink, hr, hlike₁, hc₁⟩ :=
    Node.relink_group h hc s.link times offset
  have hgroup : Node.Consistent [.group ms₁ times offset₁] := hc₁.of_subset fun p hp ↦ by
    simpa [Node.allPlaces, Node.places] using hp
  obtain ⟨q, hq, hnext, hlike₂⟩ := Node.rescope_spec hs hgroup
  have hc₂ := hgroup.rescoped hlike₂
  have hcopy : (Node.group ms times offset).copy index s
      = ((Node.rescope [.group ms₁ times offset₁] s.scope).1,
          { scope := (Node.rescope [.group ms₁ times offset₁] s.scope).2, link := r.next }) := by
    rw [Node.copy, hrelink]
    simp only [if_neg hi]
  rw [hcopy, hnext]
  generalize (Node.rescope [.group ms₁ times offset₁] s.scope).1 = nodes at hlike₂ hc₂
  have hshown : ∀ a b, (Likeness.relinked r).attr a b →
      Node.shownIn tree a = Node.shownIn [.group ms₁ times offset₁] b := by
    intro a b hab
    refine (Node.shownIn_eq hlike₁ hr.biUnique (fun _ _ h ↦ h.2.2) hab).trans ?_
    simp [Node.shownIn, Node.uses, Node.allPlaces, Node.places]
  rcases hlike₂ with - | ⟨hn, hnil⟩
  cases hnil
  cases hn with
  | @group _ ms' _ times' _ offset' ht hms =>
    obtain rfl : times = times' := ht
    refine ⟨r, q, ms', offset', rfl, hr, hq, (hlike₁.comp hms).mono ⟨?_, ?_, ?_⟩,
      hc₂.of_subset fun p hp ↦ by simpa [Node.allPlaces, Node.places] using hp⟩
    · rintro v w ⟨_, rfl, hw⟩
      exact hw
    · rintro a b ⟨a', ha, rfl, hb⟩
      refine ⟨ha.1, ?_, hb, ha.2.2⟩
      rw [hshown a a' ha, ha.2.1]
      rfl
    · rintro t u ⟨_, rfl, hu⟩
      exact hu

end Group

/-! ## Copies and groups -/

/-- What a likeness allows, of values and attributes of which something is known. -/
def Likeness.given (R : Likeness) (P : Value → Prop) (Q : Attribute → Prop) : Likeness where
  value v w := P v ∧ R.value v w
  attr a b := Q a ∧ R.attr a b
  times := R.times

section Beside

variable {R : Likeness} {P : Value → Prop} {Q : Attribute → Prop} {tree ms ns : List Node}

theorem Node.AllLike.given (h : Node.AllLike R ns ms) (hns : Node.AllRegular P Q ns) :
    Node.AllLike (R.given P Q) ns ms :=
  Node.AllLike.mono_of_regular (R := R) (S := R.given P Q) (fun _ _ ↦ And.intro)
    (fun _ _ ↦ And.intro) (fun _ _ ht ↦ ht) hns h

/-- The fields of a tree are in scopes below a number. -/
abbrev Node.AllBelow (bound : Nat) : List Node → Prop :=
  Node.AllRegular (Value.Below bound) fun a ↦ Value.Below bound a.value

mutual

theorem Node.plainValues_subset : ∀ n : Node, n.plainValues ⊆ n.values
  | .element e _ children => by
    intro v hv
    rw [Node.plainValues, Element.ownValues] at hv
    rw [Node.values, Element.values]
    have hsub := Node.allPlainValues_subset children (a := v)
    simp only [List.mem_append] at hv ⊢
    tauto
  | .text _ _ _ => List.Subset.refl _
  | .group children _ _ => Node.allPlainValues_subset children

theorem Node.allPlainValues_subset : ∀ ns : List Node, Node.allPlainValues ns ⊆ Node.allValues ns
  | [] => List.nil_subset _
  | n :: ns => List.append_subset.2
    ⟨List.Subset.trans (Node.plainValues_subset n) (List.subset_append_left _ _),
      List.Subset.trans (Node.allPlainValues_subset ns) (List.subset_append_right _ _)⟩

end

mutual

theorem Node.value_mem_of_place : ∀ (n : Node) (p : Option Multiplier × Attribute), p ∈ n.places →
    p.2.value ∈ n.values
  | .element e _ children, p, hp => by
    rw [Node.values, Element.values]
    rcases List.mem_append.1 hp with hp | hp
    · obtain ⟨a, ha, rfl⟩ := List.mem_map.1 hp
      have : a.value ∈ e.attributes.map (·.value) := List.mem_map_of_mem ha
      simp only [List.mem_append]
      tauto
    · exact List.mem_append_right _ (Node.value_mem_of_allPlaces children p hp)
  | .text _ _ _, p, hp => by simp [Node.places] at hp
  | .group children _ _, p, hp => Node.value_mem_of_allPlaces children p hp

theorem Node.value_mem_of_allPlaces : ∀ (ns : List Node) (p : Option Multiplier × Attribute),
    p ∈ Node.allPlaces ns → p.2.value ∈ Node.allValues ns
  | [], p, hp => by simp [Node.allPlaces] at hp
  | n :: ns, p, hp => (List.mem_append.1 hp).elim
    (fun hp ↦ List.mem_append_left _ (Node.value_mem_of_place n p hp))
    fun hp ↦ List.mem_append_right _ (Node.value_mem_of_allPlaces ns p hp)

end

/-- The supply for a tree has not given out the scopes of the tree. -/
theorem Node.AllRegular.below_supplyFor (h : Node.AllRegular P Q ns) :
    Node.AllBelow (Copies.supplyFor ns).scope ns := by
  have hvalue : ∀ v ∈ Node.allValues ns, Value.Below (Copies.supplyFor ns).scope v := by
    intro v hv f hf
    have hmem : f.scope ∈ Copies.scopes ns :=
      List.mem_flatMap.2 ⟨v, hv, List.mem_map_of_mem (f := (·.scope)) hf⟩
    exact Nat.lt_succ_of_le ((Copies.le_foldl_max id _ 0).2 _ hmem)
  exact h.of_values (fun v hv ↦ hvalue v (Node.allPlainValues_subset ns hv))
    fun p hp ↦ hvalue _ (Node.value_mem_of_allPlaces ns p hp)

theorem Node.AllRegular.of_mem_shown (h : Node.AllRegular P (fun a ↦ P a.value) tree) :
    ∀ p ∈ Node.shown tree, P p.1 := by
  intro p hp
  rcases List.mem_append.1 hp with hp | hp
  · obtain ⟨v, hv, rfl⟩ := List.mem_map.1 hp
    exact h.plainValues v hv
  · obtain ⟨q, hq, rfl⟩ := List.mem_map.1 hp
    exact h.places q hq

variable {r q : Renaming} {d k bound first : Nat} {S : Stage}

/-- Two moves of one value are paired in a copy and a group. -/
theorem Stage.extend_value (hS : ∀ i, S.pairs i 0 0) (hq : q.Fresh S.left) {v : Value} {m : Nat}
    (hv : (v, m) ∈ Node.shown tree)
    (hleft : Value.Below q.next ((Value.moved q.toFun)^[m] v))
    (hright : Value.Below bound (Value.moved (· + d) v)) :
    (S.extend tree q.toFun d bound q.next hq.le_toFun hq.first_le).value
      ((Value.moved q.toFun)^[m] v) (Value.moved (· + d) v) := by
  have hne : ∀ s, q.toFun s ≠ 0 := fun s ↦ by
    have := hq.le_toFun s
    have := S.left_pos
    omega
  have hfield : ∀ (f : Nat → Nat) (next : Nat), Value.Below next (Value.moved f v) →
      ∀ x ∈ v.fields, x.scope ≠ 0 → f x.scope < next := by
    intro f next hbelow x hx h0
    have hmem : Shorthand.Part.field { x with scope := f x.scope } ∈ Value.moved f v := by
      refine List.mem_map.2 ⟨.field x, Value.mem_fields.1 hx, ?_⟩
      simp only [if_neg h0]
    exact hbelow _ (Value.mem_fields.2 hmem)
  rw [Stage.moved_iterate_eq hne] at hleft ⊢
  have huser : ∀ i, (S.extend tree q.toFun d bound q.next hq.le_toFun hq.first_le).pairs i 0 0 :=
    fun i ↦ .inl (hS i)
  refine (Stage.value_moved_iff huser).2 fun x hx hi h0 ↦ ?_
  exact .inr ⟨(v, m), hv, x, hx, rfl, hi, h0, rfl, rfl, hfield _ _ hleft x hx h0,
    hfield _ _ hright x hx h0⟩

/-- A later copy of a tree and a group that holds the tree are twins. -/
theorem Stage.extend_twins (htree : Node.AllRegular P Q tree) (hS : ∀ i, S.pairs i 0 0)
    (hr : r.Fresh first) (hq : q.Fresh S.left) (hms : Node.AllLike (.copied tree r q) tree ms)
    (hmsc : Node.Consistent ms) (hns : Node.AllLike (.shifted d k) tree ns)
    (hnsb : Node.AllBelow bound ns) (hnsc : Node.Consistent ns) :
    (S.extend tree q.toFun d bound q.next hq.le_toFun hq.first_le).Twins ms ns := by
  refine ⟨fun l' k' ↦ ∃ l, r.known.lookup l = some l' ∧ k' = l + k, ⟨?_, ?_⟩, ?_, hmsc, hnsc⟩
  · rintro l l' _ ⟨m, hl, rfl⟩ ⟨m', hl', hk⟩
    obtain rfl : m = m' := by omega
    exact Option.some.inj (hl.symm.trans hl')
  · rintro l _ _ ⟨m, hl, rfl⟩ ⟨m', hl', rfl⟩
    rw [hr.inj m m' l hl hl']
  have hboth := (hms.given htree.shown).flip.comp (hns.flip.given hnsb).flip
  refine hboth.mono ⟨?_, ?_, ?_⟩
  · rintro v' w ⟨v, ⟨⟨-, hv⟩, rfl, hleft⟩, hright, rfl⟩
    exact Stage.extend_value hS hq hv hleft hright
  · rintro a' b ⟨a, ⟨⟨-, ha⟩, hname, hvalue, hleft, hlink⟩, hright, rfl⟩
    refine ⟨hname.symm, ?_, ?_⟩
    · rw [hvalue] at hleft ⊢
      exact Stage.extend_value hS hq ha hleft hright
    · rw [Attribute.shifted]
      cases hl : a.link with
      | none =>
        rw [hl] at hlink
        revert hlink
        cases a'.link <;> intro hlink <;> cases hlink
        exact .none
      | some l =>
        rw [hl] at hlink
        revert hlink
        cases a'.link <;> intro hlink <;> cases hlink
        exact .some ⟨l, ‹_›, rfl⟩
  · rintro t u ⟨_, rfl, rfl⟩
    rfl

/-- What is paired with a group in one way only was shown equally often. -/
theorem Node.equallyShown_of_mirrors {T : Stage} (hT : T.Mirrors)
    (htree : Node.AllRegular P Q tree) (hbelow : ∀ p ∈ Node.shown tree, Value.Below first p.1)
    (hfirst : 0 < first) (hq : q.Fresh first) (hms : Node.AllLike (.copied tree r q) tree ms)
    (hns : Node.AllLike (.shifted d k) tree ns) (h : Node.AllLike (.outcome T) ms ns) :
    Node.EquallyShown tree := by
  have hne : ∀ s, q.toFun s ≠ 0 := fun s ↦ by
    have := hq.le_toFun s
    omega
  have hall := (hms.comp h).and hns
  have hregular : Node.AllRegular
      (fun v ↦ T.value ((Value.moved q.toFun)^[1] v) (Value.moved (· + d) v))
      (fun a ↦ T.value ((Value.moved q.toFun)^[Node.shownIn tree a] a.value)
        (Value.moved (· + d) a.value)) tree := by
    refine Node.AllRegular.of_like ?_ ?_ ?_ htree (hall.comp hall.flip)
    · rintro _ v - ⟨w, -, ⟨_, ⟨rfl, -⟩, hvw⟩, rfl⟩
      exact hvw
    · rintro a a' - ⟨b, ⟨⟨c, hac, hcb, -⟩, -⟩, ⟨c', hac', hcb', hvalue, -⟩, rfl⟩
      rw [hac'.2.1] at hvalue
      exact ⟨hvalue, hac.1.trans (hcb.trans (hcb'.symm.trans hac'.1.symm))⟩
    · rintro t t' ⟨u, ⟨-, rfl⟩, -, rfl⟩
      rfl
  have hpairs : ∀ p ∈ Node.shown tree, ∀ x ∈ p.1.fields, x.index ≠ 0 → x.scope ≠ 0 →
      T.pairs x.index (q.toFun^[p.2] x.scope) (x.scope + d) := by
    intro p hp x hx hi h0
    have hvalue : T.value ((Value.moved q.toFun)^[p.2] p.1) (Value.moved (· + d) p.1) := by
      rcases List.mem_append.1 hp with hp | hp
      · obtain ⟨v, hv, rfl⟩ := List.mem_map.1 hp
        exact hregular.plainValues v hv
      · obtain ⟨a, ha, rfl⟩ := List.mem_map.1 hp
        exact hregular.places a ha
    rw [Stage.moved_iterate_eq hne, Value.moved, Value.moved, Stage.value_mapScope_iff] at hvalue
    simpa [hi, h0] using hvalue x hx
  intro p hp p' hp' x hx x' hx' hi h0 hindex hscope
  have hleft := hpairs p hp x hx hi h0
  have hright := hpairs p' hp' x' hx' (hindex ▸ hi) (hscope ▸ h0)
  rw [← hindex, ← hscope] at hright
  exact (Stage.iterate_inj hq.toFun_injective hq.le_toFun (hbelow p hp x hx) (hbelow p hp x hx)
    (hT.left_unique _ _ _ _ hleft hright)).1

end Beside

end Shorthand.Markup
