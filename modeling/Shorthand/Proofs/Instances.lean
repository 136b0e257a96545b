import Shorthand.Proofs.Regular
import Shorthand.Proofs.Renaming

/-!
# What expanding snippets gives out

Every instance of a snippet has a scope of its own, and what was typed on a snippet that stands for
several elements is linked with new links.  So the scopes and links of an expanded tree are those
that were given out on the way.

A typed attribute that is put on several elements may replace attributes that are linked from an
inner snippet.  They stay one attribute because the places of a link are either all at the top of a
tree, where they are all replaced, or none is.  For the same reason no merge ever has to rewrite an
attribute elsewhere.

* `Instances` : trees with scopes and links from a range of supplies.
* `Snippet.expandTo_gives` : what expansion gives out.
-/

set_option autoImplicit false

namespace Shorthand.Markup

/-! ## Ranges of scopes and links -/

/-- The fields of a value are the user's, or in scopes of a range. -/
def Value.Within (first next : Nat) (v : Value) : Prop :=
  ∀ f ∈ v.fields, f.scope = 0 ∨ (first ≤ f.scope ∧ f.scope < next)

/-- The scopes and the link of an attribute are in the range between two supplies. -/
def Attribute.Within (first next : Supply) (a : Attribute) : Prop :=
  Value.Within first.scope next.scope a.value ∧
    ∀ k, a.link = some k → first.link ≤ k ∧ k < next.link

/-- An attribute that is not linked, with scopes in a range. -/
def Attribute.Unlinked (first next : Nat) (a : Attribute) : Prop :=
  a.link = none ∧ Value.Within first next a.value

/-- A supply from which more was taken. -/
structure Supply.Le (s t : Supply) : Prop where
  scope : s.scope ≤ t.scope
  link : s.link ≤ t.link

theorem Supply.Le.refl (s : Supply) : s.Le s := ⟨Nat.le_refl _, Nat.le_refl _⟩

theorem Supply.Le.trans {s t u : Supply} (h : s.Le t) (h' : t.Le u) : s.Le u :=
  ⟨Nat.le_trans h.scope h'.scope, Nat.le_trans h.link h'.link⟩

theorem Value.Within.mono {first first' next next' : Nat} (hf : first' ≤ first) (hn : next ≤ next')
    {v : Value} (h : Value.Within first next v) : Value.Within first' next' v :=
  fun f hf' ↦ (h f hf').imp_right fun ⟨h₁, h₂⟩ ↦ ⟨Nat.le_trans hf h₁, Nat.lt_of_lt_of_le h₂ hn⟩

theorem Attribute.Within.mono {first first' next next' : Supply} (hf : first'.Le first)
    (hn : next.Le next') {a : Attribute} (h : a.Within first next) : a.Within first' next' :=
  ⟨h.1.mono hf.scope hn.scope,
    fun k hk ↦ ⟨Nat.le_trans hf.link (h.2 k hk).1, Nat.lt_of_lt_of_le (h.2 k hk).2 hn.link⟩⟩

theorem Attribute.Unlinked.within (first next : Supply) (a : Attribute)
    (h : a.Unlinked first.scope next.scope) : a.Within first next :=
  ⟨h.2, fun k hk ↦ by rw [h.1] at hk; cases hk⟩

/-! ## The top of a tree -/

/-- The attributes of the top nodes of a tree. -/
abbrev Node.topAttributes (ns : List Node) : List Attribute := ns.flatMap Node.attributes

/-- The nodes below the top nodes of a tree. -/
abbrev Node.allChildren (ns : List Node) : List Node := ns.flatMap Node.children

theorem Node.allPlaces_append (ns ms : List Node) :
    Node.allPlaces (ns ++ ms) = Node.allPlaces ns ++ Node.allPlaces ms := by
  induction ns with
  | nil => rfl
  | cons n ns ih => rw [List.cons_append, Node.allPlaces, ih, Node.allPlaces, List.append_assoc]

/-- Attributes are shown at the top or below. -/
theorem Node.mem_allPlaces_iff {ns : List Node} {p : Option Multiplier × Attribute} :
    p ∈ Node.allPlaces ns ↔
      (∃ n ∈ ns, p.1 = n.times ∧ p.2 ∈ n.attributes) ∨
        p ∈ Node.allPlaces (Node.allChildren ns) := by
  have hnode : ∀ n : Node, p ∈ n.places ↔
      (p.1 = n.times ∧ p.2 ∈ n.attributes) ∨ p ∈ Node.allPlaces n.children := by
    intro n
    cases n with
    | element e times children =>
      rw [Node.places, List.mem_append, List.mem_map]
      refine or_congr_left ⟨?_, ?_⟩
      · rintro ⟨a, ha, rfl⟩
        exact ⟨rfl, ha⟩
      · rintro ⟨ht, ha⟩
        exact ⟨p.2, ha, Prod.ext ht.symm rfl⟩
    | text v times offset => simp [Node.places, Node.attributes, Node.children, Node.allPlaces]
    | group children times offset => simp [Node.places, Node.attributes, Node.children]
  induction ns with
  | nil => simp [Node.allPlaces]
  | cons n ns ih =>
    rw [Node.allPlaces, List.mem_append, Node.allChildren, List.flatMap_cons,
      Node.allPlaces_append, List.mem_append]
    refine (or_congr (hnode n) ih).trans ?_
    simp only [List.exists_mem_cons_iff]
    exact or_or_or_comm

theorem Node.exists_place_of_top {ns : List Node} {a : Attribute} (h : a ∈ Node.topAttributes ns) :
    ∃ p ∈ Node.allPlaces ns, p.2 = a := by
  obtain ⟨n, hn, ha⟩ := List.mem_flatMap.1 h
  exact ⟨(n.times, a), Node.mem_allPlaces_iff.2 (.inl ⟨n, hn, rfl, ha⟩), rfl⟩

theorem Node.top_or_below {ns : List Node} {p : Option Multiplier × Attribute}
    (h : p ∈ Node.allPlaces ns) :
    p.2 ∈ Node.topAttributes ns ∨ p ∈ Node.allPlaces (Node.allChildren ns) := by
  rcases Node.mem_allPlaces_iff.1 h with ⟨n, hn, -, ha⟩ | h
  · exact .inl (List.mem_flatMap.2 ⟨n, hn, ha⟩)
  · exact .inr h

/-- The places of a link are all at the top of a tree, or none is. -/
def Node.TopsApart (ns : List Node) : Prop :=
  ∀ a ∈ Node.topAttributes ns, ∀ p ∈ Node.allPlaces (Node.allChildren ns), ∀ k,
    a.link = some k → p.2.link ≠ some k

/-- Trees with scopes and links from the range between two supplies. -/
structure Instances (first next : Supply) (ns : List Node) : Prop where
  regular : Node.AllRegular (Value.Within first.scope next.scope) (Attribute.Within first next) ns
  consistent : Node.Consistent ns
  tops : Node.TopsApart ns

namespace Instances

variable {first mid next : Supply} {ns ms : List Node}

theorem place (h : Instances first next ns) {p : Option Multiplier × Attribute}
    (hp : p ∈ Node.allPlaces ns) {k : Nat} (hk : p.2.link = some k) :
    first.link ≤ k ∧ k < next.link :=
  (h.regular.places p hp).2 k hk

theorem below (h : Instances first next ns) {p : Option Multiplier × Attribute}
    (hp : p ∈ Node.allPlaces (Node.allChildren ns)) {k : Nat} (hk : p.2.link = some k) :
    first.link ≤ k ∧ k < next.link :=
  h.place (Node.mem_allPlaces_iff.2 (.inr hp)) hk

theorem top (h : Instances first next ns) {a : Attribute} (ha : a ∈ Node.topAttributes ns)
    {k : Nat} (hk : a.link = some k) : first.link ≤ k ∧ k < next.link := by
  obtain ⟨p, hp, rfl⟩ := Node.exists_place_of_top ha
  exact h.place hp hk

/-- A tree without links. -/
theorem of_unlinked (h : Node.AllRegular (Value.Within first.scope next.scope)
    (Attribute.Unlinked first.scope next.scope) ns) : Instances first next ns where
  regular := h.mono (fun _ hv ↦ hv) (Attribute.Unlinked.within first next)
  consistent p hp _ _ k hk := by
    rw [(h.places p hp).1] at hk
    cases hk
  tops a ha _ _ k hk := by
    obtain ⟨p, hp, rfl⟩ := Node.exists_place_of_top ha
    rw [(h.places p hp).1] at hk
    cases hk

/-- Trees of consecutive ranges, next to each other or one below the other. -/
theorem combine {ks : List Node} (hns : Instances first mid ns)
    (hms : Instances ⟨first.scope, mid.link⟩ next ms)
    (hks : Node.AllRegular (Value.Within first.scope next.scope) (Attribute.Within first next) ks)
    (hplaces : ∀ p ∈ Node.allPlaces ks, p ∈ Node.allPlaces ns ∨ p ∈ Node.allPlaces ms)
    (htops : ∀ a ∈ Node.topAttributes ks, ∀ p ∈ Node.allPlaces (Node.allChildren ks),
      (a ∈ Node.topAttributes ns ∧
        (p ∈ Node.allPlaces (Node.allChildren ns) ∨ p ∈ Node.allPlaces ms)) ∨
      (a ∈ Node.topAttributes ms ∧ (p ∈ Node.allPlaces (Node.allChildren ns) ∨
        p ∈ Node.allPlaces (Node.allChildren ms)))) :
    Instances first next ks where
  regular := hks
  consistent p hp q hq k hpk hqk := by
    rcases hplaces p hp with hp | hp <;> rcases hplaces q hq with hq | hq
    · exact hns.consistent p hp q hq k hpk hqk
    · exact absurd (hns.place hp hpk).2 (Nat.not_lt.2 (hms.place hq hqk).1)
    · exact absurd (hns.place hq hqk).2 (Nat.not_lt.2 (hms.place hp hpk).1)
    · exact hms.consistent p hp q hq k hpk hqk
  tops a ha p hp k hak hpk := by
    rcases htops a ha p hp with ⟨ha, hp | hp⟩ | ⟨ha, hp | hp⟩
    · exact hns.tops a ha p hp k hak hpk
    · exact absurd (hns.top ha hak).2 (Nat.not_lt.2 (hms.place hp hpk).1)
    · exact absurd (hns.below hp hpk).2 (Nat.not_lt.2 (hms.top ha hak).1)
    · exact hms.tops a ha p hp k hak hpk

theorem append (hns : Instances first mid ns) (hms : Instances ⟨first.scope, mid.link⟩ next ms)
    (hle : mid.Le next) (hfirst : first.link ≤ mid.link) : Instances first next (ns ++ ms) := by
  have hfirst' : first.Le ⟨first.scope, mid.link⟩ := ⟨Nat.le_refl _, hfirst⟩
  refine combine hns hms ?_ ?_ ?_
  · exact Node.AllRegular.append
      (hns.regular.mono (fun _ hv ↦ hv.mono (Nat.le_refl _) hle.scope) fun _ ha ↦
        ha.mono (.refl _) hle)
      (hms.regular.mono (fun _ hv ↦ hv) fun _ ha ↦ ha.mono hfirst' (.refl _))
  · intro p hp
    rwa [Node.allPlaces_append, List.mem_append] at hp
  · intro a ha p hp
    rw [Node.topAttributes, List.flatMap_append, List.mem_append] at ha
    rw [Node.allChildren, List.flatMap_append, Node.allPlaces_append, List.mem_append] at hp
    refine ha.imp (fun ha ↦ ⟨ha, hp.imp_right fun hp ↦ ?_⟩) fun ha ↦ ⟨ha, hp⟩
    exact Node.mem_allPlaces_iff.2 (.inr hp)

/-- Nodes that show the same attributes themselves. -/
def SameTops : List Node → List Node → Prop :=
  List.Forall₂ fun n m ↦ n.times = m.times ∧ n.attributes = m.attributes

theorem SameTops.topAttributes_eq (h : SameTops ns ms) :
    Node.topAttributes ns = Node.topAttributes ms := by
  induction h with
  | nil => rfl
  | cons hnm _ ih =>
    simp only [Node.topAttributes, List.flatMap_cons, hnm.2] at ih ⊢
    rw [ih]

/-- Attributes at the top and below are all there are. -/
theorem SameTops.mem_places {extra : List Node} (htop : SameTops ms ns)
    (hbelow : ∀ p ∈ Node.allPlaces (Node.allChildren ms),
      p ∈ Node.allPlaces (Node.allChildren ns) ∨ p ∈ Node.allPlaces extra) :
    ∀ p ∈ Node.allPlaces ms, p ∈ Node.allPlaces ns ∨ p ∈ Node.allPlaces extra := by
  intro p hp
  rcases Node.mem_allPlaces_iff.1 hp with ⟨n, hn, ht, ha⟩ | hp
  · obtain ⟨m, hm, hnt, hna⟩ := forall₂_mem_right htop.flip hn
    exact .inl (Node.mem_allPlaces_iff.2 (.inl ⟨m, hm, ht.trans hnt, hna ▸ ha⟩))
  · exact (hbelow p hp).imp_left fun hp ↦ Node.mem_allPlaces_iff.2 (.inr hp)

mutual

theorem adopt_places {extra : List Node} : ∀ {n m : Node}, n.adopt extra = some m →
    (m.times = n.times ∧ m.attributes = n.attributes) ∧ ∀ p ∈ Node.allPlaces m.children,
      p ∈ Node.allPlaces n.children ∨ p ∈ Node.allPlaces extra
  | .element e t ns, _, h => by
    obtain rfl := Option.some.inj h
    refine ⟨⟨rfl, rfl⟩, fun p hp ↦ ?_⟩
    cases hl : Node.adoptLast extra ns with
    | none =>
      rwa [Node.children, hl, Option.getD_none, Node.allPlaces_append, List.mem_append] at hp
    | some ms =>
      rw [Node.children, hl, Option.getD_some] at hp
      obtain ⟨htop, hbelow⟩ := adoptLast_places hl
      exact htop.mem_places hbelow p hp
  | .text _ _ _, _, h => by cases h
  | .group ns t i, _, h => by
    obtain rfl := Option.some.inj h
    refine ⟨⟨rfl, rfl⟩, fun p hp ↦ ?_⟩
    cases hl : Node.adoptLast extra ns with
    | none =>
      rwa [Node.children, hl, Option.getD_none, Node.allPlaces_append, List.mem_append] at hp
    | some ms =>
      rw [Node.children, hl, Option.getD_some] at hp
      obtain ⟨htop, hbelow⟩ := adoptLast_places hl
      exact htop.mem_places hbelow p hp

/-- Hanging nodes into a tree adds their attributes below its top. -/
theorem adoptLast_places {extra : List Node} : ∀ {ns ms : List Node},
    Node.adoptLast extra ns = some ms →
    SameTops ms ns ∧ ∀ p ∈ Node.allPlaces (Node.allChildren ms),
      p ∈ Node.allPlaces (Node.allChildren ns) ∨ p ∈ Node.allPlaces extra
  | [], _, h => by cases h
  | [n], _, h => by
    obtain ⟨m, hm, rfl⟩ := Option.map_eq_some_iff.1 h
    obtain ⟨htop, hbelow⟩ := adopt_places hm
    exact ⟨.cons htop .nil, by simpa using hbelow⟩
  | n :: m :: ns, _, h => by
    obtain ⟨ks, hks, rfl⟩ := Option.map_eq_some_iff.1 h
    obtain ⟨htop, hbelow⟩ := adoptLast_places hks
    refine ⟨.cons ⟨rfl, rfl⟩ htop, fun p hp ↦ ?_⟩
    rw [Node.allChildren, List.flatMap_cons, Node.allPlaces_append, List.mem_append] at hp ⊢
    rcases hp with hp | hp
    · exact .inl (.inl hp)
    · exact (hbelow p hp).imp_left .inr

end

theorem adoptLast (hns : Instances first mid ns) (hms : Instances ⟨first.scope, mid.link⟩ next ms)
    (hle : mid.Le next) (hfirst : first.link ≤ mid.link) {ks : List Node}
    (hks : Node.adoptLast ms ns = some ks) : Instances first next ks := by
  have hfirst' : first.Le ⟨first.scope, mid.link⟩ := ⟨Nat.le_refl _, hfirst⟩
  obtain ⟨htop, hbelow⟩ := adoptLast_places hks
  refine combine hns hms ?_ (htop.mem_places hbelow) ?_
  · exact Node.AllRegular.adoptLast
      (hms.regular.mono (fun _ hv ↦ hv) fun _ ha ↦ ha.mono hfirst' (.refl _))
      (hns.regular.mono (fun _ hv ↦ hv.mono (Nat.le_refl _) hle.scope) fun _ ha ↦
        ha.mono (.refl _) hle) hks
  · intro a ha p hp
    rw [htop.topAttributes_eq] at ha
    exact .inl ⟨ha, hbelow p hp⟩

end Instances

/-! ## Merging -/

/-- Attributes with different links, all from the range between two supplies, or without links. -/
structure Linked (first next : Supply) (as : List Attribute) : Prop where
  range : ∀ a ∈ as, ∀ k, a.link = some k → first.link ≤ k ∧ k < next.link
  unique : ∀ a ∈ as, ∀ b ∈ as, ∀ k, a.link = some k → b.link = some k → a = b

theorem linkAttributes_spec {as : List Attribute} (h : ∀ a ∈ as, a.link = none) (s : Supply) :
    (linkAttributes as s).2.scope = s.scope ∧ s.link ≤ (linkAttributes as s).2.link ∧
      (linkAttributes as s).1.map (fun a ↦ (a.name, a.value)) = as.map (fun a ↦ (a.name, a.value)) ∧
      Linked s (linkAttributes as s).2 (linkAttributes as s).1 := by
  induction as generalizing s with
  | nil => exact ⟨rfl, Nat.le_refl _, rfl, by simp [linkAttributes], by simp [linkAttributes]⟩
  | cons a as ih =>
    obtain ⟨ha, has⟩ := List.forall_mem_cons.1 h
    have hcons : linkAttributes (a :: as) s
        = ({ a with link := some s.link } :: (linkAttributes as { s with link := s.link + 1 }).1,
            (linkAttributes as { s with link := s.link + 1 }).2) := by
      rw [linkAttributes, walk_cons]
      simp only [ha, Option.isSome_none, Bool.false_eq_true, if_false]
    obtain ⟨hscope, hlink, hmap, hlinked⟩ := ih has { s with link := s.link + 1 }
    dsimp only at hscope hlink
    rw [hcons]
    have hle : s.link ≤ (linkAttributes as { s with link := s.link + 1 }).2.link := by omega
    refine ⟨hscope, hle, congrArg ((a.name, a.value) :: ·) hmap, ?_, ?_⟩
    · rw [List.forall_mem_cons]
      refine ⟨fun k hk ↦ ?_, fun b hb k hk ↦ ?_⟩
      · obtain rfl := Option.some.inj hk
        exact ⟨Nat.le_refl _, hlink⟩
      · obtain ⟨h₁, h₂⟩ := hlinked.range b hb k hk
        exact ⟨Nat.le_of_succ_le h₁, h₂⟩
    · have hapart : ∀ b ∈ (linkAttributes as { s with link := s.link + 1 }).1,
          b.link ≠ some s.link := fun b hb hk ↦
        absurd (hlinked.range b hb _ hk).1 (Nat.not_succ_le_self _)
      intro b hb c hc k hbk hck
      rcases List.mem_cons.1 hb with rfl | hb <;> rcases List.mem_cons.1 hc with rfl | hc
      · rfl
      · obtain rfl := Option.some.inj hbk
        exact absurd hck (hapart c hc)
      · obtain rfl := Option.some.inj hck
        exact absurd hbk (hapart b hb)
      · exact hlinked.unique b hb c hc k hbk hck

section Relinked

variable {as bs : List Attribute}

/-- Attributes that differ in their links have the same names. -/
theorem Attribute.names_relinked
    (h : as.map (fun a ↦ (a.name, a.value)) = bs.map fun a ↦ (a.name, a.value)) :
    as.map (·.name) = bs.map (·.name) := by
  have hfirst := congrArg (List.map Prod.fst) h
  simpa only [List.map_map, Function.comp_def] using hfirst

/-- Attributes that differ in their links have the same values under their names. -/
theorem Attribute.exists_relinked
    (h : as.map (fun a ↦ (a.name, a.value)) = bs.map fun a ↦ (a.name, a.value)) {a : Attribute}
    (ha : a ∈ as) : ∃ b ∈ bs, b.name = a.name ∧ b.value = a.value := by
  have hpair : (a.name, a.value) ∈ bs.map fun a ↦ (a.name, a.value) :=
    h ▸ List.mem_map_of_mem ha
  obtain ⟨b, hb, hba⟩ := List.mem_map.1 hpair
  exact ⟨b, hb, Prod.mk.inj hba⟩

end Relinked

/-- What was typed, when it is put on the top nodes of a tree. -/
theorem Element.shared_spec {typed : Element} (h : ∀ a ∈ typed.attributes, a.link = none)
    (tops : List Node) (s : Supply) :
    ∃ as, (typed.shared tops s).1 = { typed with attributes := as } ∧
      as.map (fun a ↦ (a.name, a.value)) = typed.attributes.map (fun a ↦ (a.name, a.value)) ∧
      s.Le (typed.shared tops s).2 ∧ (typed.shared tops s).2.scope = s.scope ∧
      Linked s (typed.shared tops s).2 as := by
  rw [shared]
  split
  · refine ⟨typed.attributes, rfl, rfl, .refl s, rfl, fun a ha k hk ↦ ?_,
      fun a ha _ _ k hk ↦ ?_⟩ <;>
    · rw [h a ha] at hk
      cases hk
  · obtain ⟨hscope, hlink, hmap, hlinked⟩ := linkAttributes_spec h s
    exact ⟨_, rfl, hmap, ⟨Nat.le_of_eq hscope.symm, hlink⟩, hscope, hlinked⟩

theorem Element.classes_foldl_addClass {P : Value → Prop} {vs : List Value} {e : Element}
    (he : ∀ v ∈ e.classes, P v) (hvs : ∀ v ∈ vs, P v) :
    (∀ v ∈ (vs.foldl addClass e).classes, P v) ∧
      vs.foldl addClass e = { e with classes := (vs.foldl addClass e).classes } := by
  induction vs generalizing e with
  | nil => exact ⟨he, rfl⟩
  | cons v vs ih =>
    obtain ⟨hv, hvs⟩ := List.forall_mem_cons.1 hvs
    have hadd : (∀ w ∈ (e.addClass v).classes, P w) ∧
        e.addClass v = { e with classes := (e.addClass v).classes } := by
      rw [addClass]
      split
      · exact ⟨he, rfl⟩
      · refine ⟨fun w hw ↦ ?_, rfl⟩
        rcases List.mem_append.1 hw with hw | hw
        · exact he w hw
        · rw [List.mem_singleton.1 hw]
          exact hv
    obtain ⟨h₁, h₂⟩ := ih hadd.1 hvs
    refine ⟨h₁, ?_⟩
    rw [List.foldl_cons, h₂]
    rw [hadd.2]

theorem Element.foldl_putAttribute (as : List Attribute) (e : Element) :
    as.foldl putAttribute e = { e with attributes := (as.foldl putAttribute e).attributes } := by
  induction as generalizing e with
  | nil => rfl
  | cons a as ih => rw [List.foldl_cons, ih]; rfl

/-- The attributes of a merged element are its own, overridden, or typed ones. -/
theorem Element.mergeTyped_spec {P : Value → Prop} {Q : Attribute → Prop} {e typed : Element}
    (he : e.Regular P Q) (hvalues : ∀ v ∈ typed.ownValues, P v)
    (hnames : (typed.attributes.map (·.name)).Nodup)
    (hover : ∀ b, Q b → Q (b.overridden typed.attributes)) (htyped : ∀ a ∈ typed.attributes, Q a) :
    (e.mergeTyped typed).Regular P Q ∧ ∀ c ∈ (e.mergeTyped typed).attributes,
      (∃ b ∈ e.attributes, c = b.overridden typed.attributes) ∨ c ∈ typed.attributes := by
  have hown := he.values
  simp only [ownValues, List.forall_mem_append] at hown hvalues
  obtain ⟨hclasses, heq⟩ := classes_foldl_addClass hown.1.2 hvalues.1.2
  have hattributes : (typed.classes.foldl addClass e).attributes = e.attributes := by rw [heq]
  obtain ⟨hdistinct, hmem⟩ := mem_putAttributes hnames (e := typed.classes.foldl addClass e)
    (by rw [hattributes]; exact he.names)
  rw [hattributes] at hmem
  have hput := foldl_putAttribute typed.attributes (typed.classes.foldl addClass e)
  have hid : (typed.attributes.foldl putAttribute (typed.classes.foldl addClass e)).id = e.id := by
    rw [hput, heq]
  have htext : (typed.attributes.foldl putAttribute (typed.classes.foldl addClass e)).text
      = e.text := by
    rw [hput, heq]
  have hor : ∀ o o' : Option Value, (∀ v ∈ o.toList, P v) → (∀ v ∈ o'.toList, P v) →
      ∀ v ∈ (o.or o').toList, P v := by
    intro o o' ho ho'
    cases o with
    | none => exact ho'
    | some v => exact ho
  refine ⟨⟨?_, fun c hc ↦ ?_, hdistinct⟩, hmem⟩
  · simp only [ownValues, mergeTyped, List.forall_mem_append, hid, htext]
    refine ⟨⟨hor _ _ hvalues.1.1 hown.1.1, ?_⟩, hor _ _ hvalues.2 hown.2⟩
    rw [hput]
    exact hclasses
  · rcases hmem c hc with ⟨b, hb, rfl⟩ | hc
    · exact hover b (he.attributes b hb)
    · exact htyped c hc

theorem Node.children_mergeTyped (typed : Element) (times : Option Multiplier) (n : Node) :
    (n.mergeTyped typed times).children = n.children := by
  cases n <;> rfl

theorem Counted.or {t u : Option Multiplier} (ht : Counted t) (hu : Counted u) :
    Counted (t.or u) := by
  cases t with
  | none => exact hu
  | some m => exact ht

/-- The attributes of a merged node are its own, overridden, or typed ones. -/
theorem Node.mergeTyped_spec {P : Value → Prop} {Q : Attribute → Prop} {typed : Element}
    {times : Option Multiplier} (hvalues : ∀ v ∈ typed.ownValues, P v)
    (hnames : (typed.attributes.map (·.name)).Nodup)
    (hover : ∀ b, Q b → Q (b.overridden typed.attributes)) (htyped : ∀ a ∈ typed.attributes, Q a)
    (htimes : Counted times) {n : Node} (h : n.Regular P Q) :
    (n.mergeTyped typed times).Regular P Q ∧ ∀ c ∈ (n.mergeTyped typed times).attributes,
      (∃ b ∈ n.attributes, c = b.overridden typed.attributes) ∨ c ∈ typed.attributes := by
  cases h with
  | element he ht hc =>
    obtain ⟨hregular, hmem⟩ := Element.mergeTyped_spec he hvalues hnames hover htyped
    exact ⟨.element hregular (htimes.or ht) hc, hmem⟩
  | text i hv ht => exact ⟨.text i hv (htimes.or ht), fun c hc ↦ by cases hc⟩
  | group i ht hc => exact ⟨.group i (htimes.or ht) hc, fun c hc ↦ by cases hc⟩

section Merged

variable {first mid next : Supply} {tops ms : List Node} {as : List Attribute}

/-- Top nodes with typed attributes put on them have scopes and links that were given out, if the
typed attributes have new links. -/
theorem Instances.merged (htops : Instances first mid tops) (hlinked : Linked mid next as)
    (hregular : Node.AllRegular (Value.Within first.scope next.scope) (Attribute.Within first next)
      ms)
    (hchildren : Node.allChildren ms = Node.allChildren tops)
    (hmem : ∀ c ∈ Node.topAttributes ms,
      (∃ b ∈ Node.topAttributes tops, c = b.overridden as) ∨ c ∈ as) :
    Instances first next ms := by
  have hold : ∀ b ∈ Node.topAttributes tops, ∀ a ∈ as, ∀ k, b.link = some k → a.link ≠ some k :=
    fun b hb a ha k hbk hak ↦
      absurd (htops.top hb hbk).2 (Nat.not_lt.2 (hlinked.range a ha k hak).1)
  have hbelow : ∀ p ∈ Node.allPlaces (Node.allChildren tops), ∀ a ∈ as, ∀ k,
      p.2.link = some k → a.link ≠ some k :=
    fun p hp a ha k hpk hak ↦
      absurd (htops.below hp hpk).2 (Nat.not_lt.2 (hlinked.range a ha k hak).1)
  have hapart : ∀ c ∈ Node.topAttributes ms, ∀ p ∈ Node.allPlaces (Node.allChildren tops),
      ∀ k, c.link = some k → p.2.link ≠ some k := by
    intro c hc p hp k hck hpk
    rcases hmem c hc with ⟨b, hb, rfl⟩ | hc
    · rw [Attribute.link_overridden] at hck
      exact htops.tops b hb p hp k hck hpk
    · exact hbelow p hp c hc k hpk hck
  refine ⟨hregular, fun p hp q hq k hpk hqk ↦ ?_, ?_⟩
  · rcases Node.top_or_below hp with hp | hp <;> rcases Node.top_or_below hq with hq | hq
    · rcases hmem _ hp with ⟨b, hb, hpb⟩ | hp <;> rcases hmem _ hq with ⟨c, hc, hqc⟩ | hq
      · rw [hpb, Attribute.link_overridden] at hpk
        rw [hqc, Attribute.link_overridden] at hqk
        obtain ⟨p', hp', rfl⟩ := Node.exists_place_of_top hb
        obtain ⟨q', hq', rfl⟩ := Node.exists_place_of_top hc
        rw [hpb, hqc, htops.consistent p' hp' q' hq' k hpk hqk]
      · rw [hpb, Attribute.link_overridden] at hpk
        exact absurd hqk (hold b hb _ hq k hpk)
      · rw [hqc, Attribute.link_overridden] at hqk
        exact absurd hpk (hold c hc _ hp k hqk)
      · exact hlinked.unique _ hp _ hq k hpk hqk
    · rw [hchildren] at hq
      exact absurd hqk (hapart _ hp q hq k hpk)
    · rw [hchildren] at hp
      exact absurd hpk (hapart _ hq p hp k hqk)
    · rw [hchildren] at hp hq
      exact htops.consistent p (Node.mem_allPlaces_iff.2 (.inr hp)) q
        (Node.mem_allPlaces_iff.2 (.inr hq)) k hpk hqk
  · intro c hc p hp k hck
    rw [hchildren] at hp
    exact hapart c hc p hp k hck

/-- Attributes that were put on nodes are on them as they were typed. -/
theorem Element.rewritten_eq_nil {typed : Element} (htops : Instances first mid tops)
    (hlinked : Linked mid next typed.attributes)
    (hmem : ∀ c ∈ Node.topAttributes ms,
      (∃ b ∈ Node.topAttributes tops, c = b.overridden typed.attributes) ∨ c ∈ typed.attributes) :
    typed.rewritten ms = [] := by
  rw [rewritten, List.filter_eq_nil_iff]
  intro c hc hrewritten
  simp only [Bool.and_eq_true, List.any_eq_true, beq_iff_eq, bne_iff_ne] at hrewritten
  obtain ⟨hsome, a, ha, hlink, hvalue⟩ := hrewritten
  obtain ⟨k, hk⟩ := Option.isSome_iff_exists.1 hsome
  rw [hk] at hlink
  rcases hmem c hc with ⟨b, hb, rfl⟩ | hc
  · rw [Attribute.link_overridden] at hk
    exact absurd (htops.top hb hk).2 (Nat.not_lt.2 (hlinked.range a ha k hlink).1)
  · exact hvalue (congrArg _ (hlinked.unique a ha c hc k hlink hk))

end Merged

section MergedAll

variable {first mid s t : Supply} {typed : Element} {times : Option Multiplier}
  {as : List Attribute} {tops : List Node}

/-- A node with typed attributes put on it, that were linked when the supply was `s`. -/
theorem Node.mergeTyped_relinked (hmid : mid.Le s) (hs : s.Le t)
    (htyped : typed.Regular (Value.Within first.scope mid.scope)
      (Attribute.Unlinked first.scope mid.scope))
    (hsame : as.map (fun a ↦ (a.name, a.value)) = typed.attributes.map fun a ↦ (a.name, a.value))
    (hlinked : Linked s t as) (htimes : Counted times) {n : Node}
    (hn : n.Regular (Value.Within first.scope s.scope)
      (Attribute.Within ⟨first.scope, mid.link⟩ s)) :
    (n.mergeTyped { typed with attributes := as } times).Regular
        (Value.Within first.scope t.scope) (Attribute.Within ⟨first.scope, mid.link⟩ t) ∧
      ∀ c ∈ (n.mergeTyped { typed with attributes := as } times).attributes,
        (∃ b ∈ n.attributes, c = b.overridden as) ∨ c ∈ as := by
  have hscopes : mid.scope ≤ t.scope := Nat.le_trans hmid.scope hs.scope
  have hvalue : ∀ a ∈ as, Value.Within first.scope t.scope a.value := by
    intro a ha
    obtain ⟨b, hb, -, hba⟩ := Attribute.exists_relinked hsame ha
    exact hba ▸ (htyped.attributes b hb).2.mono (Nat.le_refl _) hscopes
  have hnames : (as.map (·.name)).Nodup := Attribute.names_relinked hsame ▸ htyped.names
  refine Node.mergeTyped_spec (fun v hv ↦ ?_) hnames (fun b hb ↦ ⟨?_, fun k hk ↦ ?_⟩)
    (fun a ha ↦ ⟨hvalue a ha, fun k hk ↦ ?_⟩) htimes
    (hn.mono (fun _ hv ↦ hv.mono (Nat.le_refl _) hs.scope) fun _ ha ↦ ha.mono (.refl _) hs)
  · exact (htyped.values v hv).mono (Nat.le_refl _) hscopes
  · rcases Attribute.value_overridden as b with h | ⟨a, ha, h⟩
    · exact h ▸ hb.1
    · exact h ▸ hvalue a ha
  · exact hb.2 k (by rwa [Attribute.link_overridden] at hk)
  · obtain ⟨hle, hlt⟩ := hlinked.range a ha k hk
    exact ⟨Nat.le_trans hmid.link hle, hlt⟩

/-- What is at the top after every top node was changed. -/
theorem Node.mem_topAttributes_map {f : Node → Node}
    (h : ∀ n ∈ tops, ∀ c ∈ (f n).attributes, (∃ b ∈ n.attributes, c = b.overridden as) ∨ c ∈ as)
    {c : Attribute} (hc : c ∈ topAttributes (tops.map f)) :
    (∃ b ∈ topAttributes tops, c = b.overridden as) ∨ c ∈ as := by
  obtain ⟨m, hm, hc⟩ := List.mem_flatMap.1 hc
  obtain ⟨n, hn, rfl⟩ := List.mem_map.1 hm
  refine (h n hn c hc).imp_left ?_
  rintro ⟨b, hb, rfl⟩
  exact ⟨b, List.mem_flatMap.2 ⟨n, hn, hb⟩, rfl⟩

/-- The range of scopes may begin with an earlier supply. -/
theorem Instances.lower (htops : Instances mid s tops) (hle : first.Le mid) :
    Instances ⟨first.scope, mid.link⟩ s tops := by
  have hfirst : Supply.Le ⟨first.scope, mid.link⟩ mid := ⟨hle.scope, Nat.le_refl _⟩
  exact ⟨htops.regular.mono (fun _ hv ↦ hv.mono hle.scope (Nat.le_refl _)) fun _ ha ↦
    ha.mono hfirst (.refl _), htops.consistent, htops.tops⟩

end MergedAll

/-- **No merge has to rewrite elsewhere**, and what it makes of the tree of a snippet has scopes and
links that were given out. -/
theorem Node.mergeAll_instances {first mid : Supply} {typed : Element}
    {times : Option Multiplier} {tops : List Node} {p : Progress} (hle : first.Le mid)
    (hmid : mid.Le p.toSupply)
    (htyped : typed.Regular (Value.Within first.scope mid.scope)
      (Attribute.Unlinked first.scope mid.scope))
    (htimes : Counted times) (htops : Instances mid p.toSupply tops) (hshown : p.shown = []) :
    Instances ⟨first.scope, mid.link⟩ (Node.mergeAll typed times tops p).2.toSupply
        (Node.mergeAll typed times tops p).1 ∧
      p.toSupply.Le (Node.mergeAll typed times tops p).2.toSupply ∧
      (Node.mergeAll typed times tops p).2.shown = [] := by
  obtain ⟨as, hshared, hsame, hs, -, hlinked⟩ :=
    Element.shared_spec (fun a ha ↦ (htyped.attributes a ha).1) tops p.toSupply
  rw [Node.mergeAll, hshown, Element.current_nil]
  generalize typed.shared tops p.toSupply = shared at *
  obtain ⟨typed', s⟩ := shared
  dsimp only at hshared hs hlinked ⊢
  subst hshared
  have htops' : Instances ⟨first.scope, mid.link⟩ p.toSupply tops := htops.lower hle
  have hnode := fun n hn ↦
    Node.mergeTyped_relinked hmid hs htyped hsame hlinked htimes (htops'.regular.of_mem n hn)
  generalize hmerged : tops.map (Node.mergeTyped { typed with attributes := as } times) = merged
  have hmem : ∀ c ∈ Node.topAttributes merged,
      (∃ b ∈ Node.topAttributes tops, c = b.overridden as) ∨ c ∈ as :=
    hmerged ▸ fun c hc ↦ Node.mem_topAttributes_map (fun n hn ↦ (hnode n hn).2) hc
  have hnil : Element.rewritten { typed with attributes := as } merged = [] :=
    Element.rewritten_eq_nil htops' hlinked hmem
  rw [hnil]
  refine ⟨htops'.merged hlinked ?_ ?_ hmem, hs, rfl⟩
  · refine Node.AllRegular.of_forall fun m hm ↦ ?_
    rw [← hmerged] at hm
    obtain ⟨n, hn, rfl⟩ := List.mem_map.1 hm
    exact (hnode n hn).1
  · rw [← hmerged, Node.allChildren, List.flatMap_map]
    exact List.flatMap_congr fun n _ ↦ Node.children_mergeTyped _ _ n

/-! ## Expanding -/

/-- What a pass gives out from a progress on: nothing was rewritten elsewhere, and the tree has
scopes from `first` on and links of its own. -/
structure Gives (first : Nat) (p : Progress) (r : List Node × Progress) : Prop where
  shown : r.2.shown = []
  le : p.toSupply.Le r.2.toSupply
  instances : Instances ⟨first, p.link⟩ r.2.toSupply r.1

theorem Gives.append {first : Nat} {p : Progress} {r r' : List Node × Progress}
    (h : Gives first p r) (h' : Gives first r.2 r') : Gives first p (r.1 ++ r'.1, r'.2) :=
  ⟨h'.shown, h.le.trans h'.le, h.instances.append h'.instances h'.le h.le.link⟩

theorem Gives.adopt {first : Nat} {p : Progress} {r r' : List Node × Progress}
    (h : Gives first p r) (h' : Gives first r.2 r') :
    Gives first p ((Node.adoptLast r'.1 r.1).getD (r.1 ++ r'.1), r'.2) := by
  cases hl : Node.adoptLast r'.1 r.1 with
  | none => exact h.append h'
  | some ns =>
    exact ⟨h'.shown, h.le.trans h'.le, h.instances.adoptLast h'.instances h'.le h.le.link hl⟩

theorem Gives.element {first : Nat} {p : Progress} {r : List Node × Progress}
    (h : Gives first p r) {e : Element} {times : Option Multiplier}
    (he : e.Regular (Value.Within first r.2.scope) (Attribute.Unlinked first r.2.scope))
    (ht : Counted times) : Gives first p ([.element e times r.1], r.2) := by
  refine ⟨h.shown, h.le, ⟨?_, ?_, ?_⟩⟩
  · exact .cons (.element (he.mono (fun _ hv ↦ hv)
      (Attribute.Unlinked.within ⟨first, p.link⟩ r.2.toSupply)) ht h.instances.regular) .nil
  · refine fun q hq q' hq' k hk hk' ↦ ?_
    have hnone : ∀ q : Option Multiplier × Attribute,
        q ∈ e.attributes.map (times, ·) → q.2.link = none := by
      intro q hq
      obtain ⟨a, ha, rfl⟩ := List.mem_map.1 hq
      exact (he.attributes a ha).1
    simp only [Node.allPlaces, Node.places, List.append_nil, List.mem_append] at hq hq'
    have hq := hq.resolve_left fun hq ↦ by rw [hnone q hq] at hk; cases hk
    have hq' := hq'.resolve_left fun hq' ↦ by rw [hnone q' hq'] at hk'; cases hk'
    exact h.instances.consistent q hq q' hq' k hk hk'
  · intro a ha q _ k hk
    have ha : a ∈ e.attributes := by simpa [Node.topAttributes, Node.attributes] using ha
    rw [(he.attributes a ha).1] at hk
    cases hk

theorem Gives.group {first : Nat} {p : Progress} {r : List Node × Progress}
    (h : Gives first p r) {times : Option Multiplier} (ht : Counted times) (offset : Nat) :
    Gives first p ([.group r.1 times offset], r.2) := by
  refine ⟨h.shown, h.le, ⟨.cons (.group offset ht h.instances.regular) .nil, ?_, ?_⟩⟩
  · intro q hq q' hq'
    simp only [Node.allPlaces, Node.places, List.append_nil] at hq hq'
    exact h.instances.consistent q hq q' hq'
  · intro a ha
    simp [Node.topAttributes, Node.attributes] at ha

namespace Snippet

/-- Regular nodes without links, with fields in scopes from `first` on. -/
abbrev Plain (first next : Nat) : Node → Prop :=
  Node.Regular (Value.Within first next) (Attribute.Unlinked first next)

/-- Nodes, all of them plain. -/
abbrev AllPlain (first next : Nat) : List Node → Prop :=
  Node.AllRegular (Value.Within first next) (Attribute.Unlinked first next)

theorem unlinked_mono {first next next' : Nat} (h : next ≤ next') (a : Attribute)
    (ha : a.Unlinked first next) : a.Unlinked first next' :=
  ⟨ha.1, ha.2.mono (Nat.le_refl _) h⟩

theorem AllPlain.mono {first next next' : Nat} (h : next ≤ next') {ns : List Node}
    (hns : AllPlain first next ns) : AllPlain first next' ns :=
  Node.AllRegular.mono (fun _ hv ↦ hv.mono (Nat.le_refl _) h) (unlinked_mono h) hns

section Expanding

variable {snippet : Expander} {table : Table String} {first : Nat}

mutual

theorem expandNode_gives
    (hsnippet : ∀ key text p r, p.shown = [] → snippet key text p = .ok r → Gives p.scope p r) :
    ∀ (n : Node) {p : Progress} {r : List Node × Progress}, first ≤ p.scope → p.shown = [] →
      Plain first p.scope n → expandNode snippet table n p = .ok r → Gives first p r
  | .text v times offset, p, r, _, hp, hn, h => by
    cases h
    refine ⟨hp, .refl _, .of_unlinked (.cons hn .nil)⟩
  | .group children times offset, p, r, hle, hp, hn, h => by
    obtain ⟨r', hr, h⟩ := bind_eq_ok_iff.1 h
    cases h
    cases hn with
    | group _ ht hc => exact (expandNodes_gives hsnippet children hle hp hc hr).group ht offset
  | .element e times children, p, r, hle, hp, hn, h => by
    rw [expandNode] at h
    cases hn with
    | element he ht hc =>
    split at h
    · obtain ⟨r', hr, h⟩ := bind_eq_ok_iff.1 h
      cases h
      have hgives := expandNodes_gives hsnippet children hle hp hc hr
      exact hgives.element (he.mono (fun _ hv ↦ hv.mono (Nat.le_refl _) hgives.le.scope)
        (unlinked_mono hgives.le.scope)) ht
    · next key text _ =>
      obtain ⟨⟨tops, p₁⟩, h₁, h⟩ := bind_eq_ok_iff.1 h
      obtain ⟨⟨below, p₃⟩, h₃, h⟩ := bind_eq_ok_iff.1 h
      cases h
      have htops := hsnippet key text p _ hp h₁
      have hfirst : Supply.Le ⟨first, p.link⟩ p.toSupply := ⟨hle, Nat.le_refl _⟩
      obtain ⟨hmerged, hle₂, hshown⟩ :=
        Node.mergeAll_instances hfirst htops.le he ht htops.instances htops.shown
      have hgives : Gives first p (Node.mergeAll e times tops p₁) :=
        ⟨hshown, htops.le.trans hle₂, hmerged⟩
      have hscope := hgives.le.scope
      exact hgives.adopt (expandNodes_gives hsnippet children (Nat.le_trans hle hscope) hshown
        (AllPlain.mono hscope hc) h₃)

theorem expandNodes_gives
    (hsnippet : ∀ key text p r, p.shown = [] → snippet key text p = .ok r → Gives p.scope p r) :
    ∀ (ns : List Node) {p : Progress} {r : List Node × Progress}, first ≤ p.scope → p.shown = [] →
      AllPlain first p.scope ns → expandNodes snippet table ns p = .ok r → Gives first p r
  | [], p, r, _, hp, _, h => by
    cases h
    exact ⟨hp, .refl _, .of_unlinked .nil⟩
  | n :: ns, p, r, hle, hp, hns, h => by
    obtain ⟨r₁, h₁, h⟩ := bind_eq_ok_iff.1 h
    obtain ⟨r₂, h₂, h⟩ := bind_eq_ok_iff.1 h
    cases h
    cases hns with
    | cons hn hns =>
    have hgives := expandNode_gives hsnippet n hle hp hn h₁
    have hscope := hgives.le.scope
    exact hgives.append (expandNodes_gives hsnippet ns (Nat.le_trans hle hscope) hgives.shown
      (AllPlain.mono hscope hns) h₂)

end

end Expanding

/-- The map that marks the fields of an instance. -/
def scoper (scope : Nat) : Mapper where
  value v := v.mapScope fun _ ↦ scope
  attr a := { a with value := a.value.mapScope fun _ ↦ scope }

theorem inScope_eq (scope : Nat) (nodes : List Node) :
    inScope scope nodes = Node.rewriteAll (fun _ ↦ scoper scope) nodes :=
  congrArg Prod.fst (Node.visitAll_visitor (fun _ ↦ scoper scope) nodes ())

theorem within_mapScope (scope : Nat) (v : Value) :
    Value.Within scope (scope + 1) (v.mapScope fun _ ↦ scope) := by
  intro f hf
  have hmem := Value.mem_fields.1 hf
  obtain ⟨p, -, hp⟩ := List.mem_map.1 hmem
  cases p with
  | text s => cases hp
  | field g =>
    obtain rfl := Part.field.inj hp
    exact .inr ⟨Nat.le_refl _, Nat.lt_succ_self _⟩

/-- The tree of a snippet's text has its fields in the scope of the instance. -/
theorem plain_inScope (scope : Nat) {nodes : List Node} (h : Node.AllTyped nodes) :
    AllPlain scope (scope + 1) (inScope scope nodes) := by
  rw [inScope_eq]
  exact h.rewriteAll (fun v _ ↦ within_mapScope scope v)
    (fun a ha ↦ ⟨ha.1, within_mapScope scope a.value⟩) fun _ ↦ rfl

theorem plain_of_typed (first next : Nat) {nodes : List Node} (h : Node.AllTyped nodes) :
    AllPlain first next nodes :=
  h.mono (fun _ hv f hf ↦ .inl (hv f hf)) fun _ ha ↦ ⟨ha.1, fun f hf ↦ .inl (ha.2 f hf)⟩

/-- The expansion of one instance of a snippet, to a depth. -/
def expander (depth : Nat) (table : Table String) : Expander := fun key text p ↦ do
  let parsed ← Tree.parse text
  expandTo depth (table.remove key) (inScope p.scope parsed) { p with scope := p.scope + 1 }

theorem expandTo_succ (depth : Nat) (table : Table String) (nodes : List Node) (p : Progress) :
    expandTo (depth + 1) table nodes p = expandNodes (expander depth table) table nodes p := rfl

/-- What an instance of a snippet gives out, if it is known what expansion to its depth does. -/
theorem expander_gives_of {depth : Nat}
    (h : ∀ (first : Nat) (table : Table String) (nodes : List Node) (p : Progress)
      (r : List Node × Progress), first ≤ p.scope → p.shown = [] → AllPlain first p.scope nodes →
      expandTo depth table nodes p = .ok r → Gives first p r)
    (table : Table String) (key text : String) (p : Progress) (r : List Node × Progress)
    (hp : p.shown = []) (hr : expander depth table key text p = .ok r) : Gives p.scope p r := by
  obtain ⟨parsed, hparsed, hr⟩ := bind_eq_ok_iff.1 hr
  have hplain := plain_inScope p.scope (Tree.typed_of_parse hparsed)
  have hgives := h p.scope _ _ { p with scope := p.scope + 1 } r (Nat.le_succ p.scope) hp hplain hr
  exact ⟨hgives.shown, ⟨Nat.le_of_succ_le hgives.le.scope, hgives.le.link⟩, hgives.instances⟩

/-- **What expansion gives out.**  Nothing is rewritten elsewhere, and all scopes and links of the
tree were given out on the way. -/
theorem expandTo_gives (depth first : Nat) (table : Table String) (nodes : List Node) (p : Progress)
    (r : List Node × Progress) (hle : first ≤ p.scope) (hp : p.shown = [])
    (hnodes : AllPlain first p.scope nodes) (h : expandTo depth table nodes p = .ok r) :
    Gives first p r := by
  induction depth generalizing first table nodes p r with
  | zero =>
    cases h
    exact ⟨hp, .refl _, .of_unlinked hnodes⟩
  | succ depth ih => exact expandNodes_gives (expander_gives_of ih table) nodes hle hp hnodes h

theorem expander_gives (depth : Nat) (table : Table String) (key text : String) (p : Progress)
    (r : List Node × Progress) (hp : p.shown = [])
    (h : expander depth table key text p = .ok r) : Gives p.scope p r :=
  expander_gives_of (expandTo_gives depth) table key text p r hp h

end Snippet

end Shorthand.Markup
