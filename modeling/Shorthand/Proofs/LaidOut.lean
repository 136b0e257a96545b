import Shorthand.Proofs.Trails
import Shorthand.Proofs.UnrollRules

/-!
# What is laid out

Carrying out multipliers lays out the copies of a tree, one for every trail.  The nodes of the
outcome in reading order are the copies along the trails in their order; a copy hangs from the copy
of the nearest element around its node, and remembers the last multiplier on its trail.

* `Node.layAll` : a tree laid out, where copies are not told apart.
* `Copies.LaidOut` : what is claimed of the outcome.
* `Copies.laidOut_of_unroll` : carrying out multipliers lays out a tree.
-/

set_option autoImplicit false

namespace Shorthand.Markup

open Copies (countOf multiplierOf)

/-! ## Laying out -/

namespace Node

mutual

/-- What a node becomes where all copies are the same; `inherited` is the multiplier around it. -/
def lay (inherited : Option Multiplier) : Node → List Node
  | .element e times children =>
    (List.range' 1 (countOf times)).flatMap fun copy ↦
      [.element e (multiplierOf times inherited copy)
        (layAll (multiplierOf times inherited copy) children)]
  | .text value times offset =>
    (List.range' 1 (countOf times)).flatMap fun copy ↦
      [.text value (multiplierOf times inherited copy) offset]
  | .group children times _ =>
    (List.range' 1 (countOf times)).flatMap fun copy ↦
      layAll (multiplierOf times inherited copy) children

/-- What nodes become where all copies are the same. -/
def layAll (inherited : Option Multiplier) : List Node → List Node
  | [] => []
  | n :: ns => n.lay inherited ++ layAll inherited ns

end

/-- What one copy of a node becomes; `times` is the multiplier around it. -/
def layCopy (times : Option Multiplier) : Node → List Node
  | .element e _ children => [.element e times (layAll times children)]
  | .text value _ offset => [.text value times offset]
  | .group children _ _ => layAll times children

theorem lay_eq (inherited : Option Multiplier) (n : Node) :
    n.lay inherited = (List.range' 1 (countOf n.times)).flatMap fun copy ↦
      n.layCopy (multiplierOf n.times inherited copy) := by
  cases n <;> rfl

/-- Laying out goes along with a map. -/
theorem layAll_rewriteAll (m : Mapper) (ns : List Node) (inherited : Option Multiplier) :
    layAll inherited (rewriteAll (fun _ ↦ m) ns)
      = rewriteAll (fun _ ↦ m) (layAll inherited ns) := by
  induction ns using forest_induction generalizing inherited with
  | nil => rfl
  | cons n ns below rest =>
    have hcopy : ∀ times, (n.rewrite fun _ ↦ m).layCopy times
        = rewriteAll (fun _ ↦ m) (n.layCopy times) := by
      intro times
      cases n with
      | element e _ children => exact congrArg (fun ms ↦ [Node.element _ times ms]) (below times)
      | text => rfl
      | group => exact below times
    rw [rewriteAll, layAll, layAll, rewriteAll_append, rest, lay_eq, lay_eq, rewriteAll_flatMap,
      times_rewrite]
    simp only [hcopy]

/-! ## What a node says itself -/

/-- What a node says itself: its multiplier, the nodes below it and the scopes of its snippet fields
do not count. -/
def essence : Node → Node
  | .element e _ _ => .element (e.rewrite pooler) none []
  | .text value _ offset => .text (Value.pooled value) none offset
  | .group _ _ offset => .group [] none offset

theorem pooled_pooled (v : Value) : Value.pooled (Value.pooled v) = Value.pooled v :=
  Value.pooled_mapScope (fun s ↦ by by_cases hs : s = 0 <;> simp [hs]) v

theorem essence_rewrite_pooler (n : Node) : (n.rewrite fun _ ↦ pooler).essence = n.essence := by
  cases n with
  | element e times children =>
    have h := Element.rewrite_visit (v := pooler.visitor) (m := pooler) (fun _ ↦ rfl)
      (fun x _ ↦ pooled_pooled x)
      (fun a _ ↦ congrArg (fun value ↦ Attribute.mk a.name value none) (pooled_pooled a.value)) e ()
    rw [Element.visit_visitor] at h
    exact congrArg (Node.element · none []) h
  | text value times offset => exact congrArg (Node.text · none offset) (pooled_pooled value)
  | group => rfl

end Node

/-- A step to what a map makes of a node. -/
def Step.rewrite (m : Option Multiplier → Mapper) (s : Step) : Step := ⟨s.index, s.node.rewrite m⟩

namespace Node

theorem allRoutesFrom_rewriteAll (m : Option Multiplier → Mapper) (ns : List Node) (index : Nat) :
    allRoutesFrom index (rewriteAll m ns)
      = (allRoutesFrom index ns).map (List.map (Step.rewrite m)) := by
  induction ns using forest_induction generalizing index with
  | nil => rfl
  | cons n ns below rest =>
    rw [rewriteAll, allRoutesFrom, allRoutesFrom, routesFrom_eq, routesFrom_eq, children_rewrite,
      below, rest, List.map_append, List.map_cons, List.map_map, List.map_map]
    rfl

theorem allRoutesFrom_append (ns ms : List Node) (index : Nat) :
    allRoutesFrom index (ns ++ ms)
      = allRoutesFrom index ns ++ allRoutesFrom (index + ns.length) ms := by
  induction ns generalizing index with
  | nil => rfl
  | cons n ns ih =>
    rw [List.cons_append, allRoutesFrom, allRoutesFrom, ih, List.append_assoc, List.length_cons,
      Nat.add_right_comm, Nat.add_assoc]

end Node

/-! ## Copies along trails -/

namespace Copies

/-- A route leads to a copy of the node to which a trail leads, with the last multiplier on the
trail, or with the inherited one. -/
def IsCopy (inherited : Option Multiplier) (r : Route) (t : Trail) : Prop :=
  ∃ n m, Route.target (Trail.route t) = some n ∧ Route.target r = some m ∧
    m.times = (Trail.multiplier t).or inherited ∧ m.essence = n.essence

/-- The nodes at the ends of routes are copies along trails, and hang from one another as the trails
say. -/
structure Arranged (inherited : Option Multiplier) (rs : List Route) (ts : List Trail) : Prop where
  copies : List.Forall₂ (IsCopy inherited) rs ts
  /-- The node around a copy is the copy, with the same choices, of the nearest element around its
  node; there is none if there is no such element. -/
  parents : ∀ p ∈ (rs.map Route.indices).zip ts, (p.1.dropLast, Trail.enclosing p.2)
    ∈ ([], []) :: (rs.map Route.indices).zip ts

section Arranged

variable {inherited : Option Multiplier} {rs rs' : List Route} {ts ts' : List Trail}

theorem IsCopy.route_ne_nil {r : Route} {t : Trail} (h : IsCopy inherited r t) : r ≠ [] := by
  rintro rfl
  obtain ⟨_, _, -, h, -⟩ := h
  cases h

theorem IsCopy.trail_ne_nil {r : Route} {t : Trail} (h : IsCopy inherited r t) : t ≠ [] := by
  rintro rfl
  obtain ⟨_, _, h, -⟩ := h
  cases h

theorem Arranged.nil (inherited : Option Multiplier) : Arranged inherited [] [] :=
  ⟨.nil, by simp⟩

theorem Arranged.append (h : Arranged inherited rs ts) (h' : Arranged inherited rs' ts') :
    Arranged inherited (rs ++ rs') (ts ++ ts') := by
  refine ⟨forall₂_append h.copies h'.copies, ?_⟩
  have hlength : (rs.map Route.indices).length = ts.length := by
    rw [List.length_map, h.copies.length_eq]
  rw [List.map_append, List.zip_append hlength, List.forall_mem_append]
  constructor
  · intro p hp
    rcases List.mem_cons.1 (h.parents p hp) with hnil | hmem
    · exact hnil ▸ List.mem_cons_self
    · exact List.mem_cons_of_mem _ (List.mem_append_left _ hmem)
  · intro p hp
    rcases List.mem_cons.1 (h'.parents p hp) with hnil | hmem
    · exact hnil ▸ List.mem_cons_self
    · exact List.mem_cons_of_mem _ (List.mem_append_right _ hmem)

/-- A trail goes on below a copy of a node. -/
theorem IsCopy.cons {s : Step × Nat} {r : Route} {t : Trail}
    (h : IsCopy (multiplierOf s.1.node.times inherited s.2) r t) : IsCopy inherited r (s :: t) := by
  have ht : Trail.route t ≠ [] := fun h' ↦ h.trail_ne_nil (List.map_eq_nil_iff.1 h')
  obtain ⟨n, m, hn, hm, htimes, hessence⟩ := h
  refine ⟨n, m, ?_, hm, ?_, hessence⟩
  · rw [Trail.route_cons, Route.target_cons ht, hn]
  · rw [htimes, Trail.multiplier_cons]

theorem Arranged.ne_nil (h : Arranged inherited rs ts) {p : List Nat × Trail}
    (hp : p ∈ (rs.map Route.indices).zip ts) : p.1 ≠ [] ∧ p.2 ≠ [] := by
  obtain ⟨hr, ht⟩ := List.of_mem_zip hp
  constructor
  · obtain ⟨r, hr, hrp⟩ := List.mem_map.1 hr
    obtain ⟨t, -, hcopy⟩ := forall₂_mem_right h.copies.flip hr
    exact fun hnil ↦ IsCopy.route_ne_nil hcopy (List.map_eq_nil_iff.1 (hrp.trans hnil))
  · obtain ⟨r, -, hcopy⟩ := forall₂_mem_right h.copies ht
    exact hcopy.trail_ne_nil

/-- A copy of a group adds no node to what is below it. -/
theorem Arranged.group {s : Step × Nat} (hs : s.1.node.isGroup = true)
    (h : Arranged (multiplierOf s.1.node.times inherited s.2) rs ts) :
    Arranged inherited rs (ts.map (s :: ·)) := by
  refine ⟨List.forall₂_map_right_iff.2 (h.copies.imp fun _ _ ↦ .cons), ?_⟩
  rw [List.zip_map_right, List.forall_mem_map]
  intro p hp
  rw [Prod.map_fst, Prod.map_snd, id_eq, Trail.enclosing_cons (h.ne_nil hp).2]
  rcases List.mem_cons.1 (h.parents p hp) with hnil | hmem
  · obtain ⟨hroute, htrail⟩ := Prod.mk.inj hnil
    rw [if_pos ⟨hs, htrail⟩, hroute]
    exact List.mem_cons_self
  · rw [if_neg fun hg ↦ (h.ne_nil hmem).2 hg.2]
    exact List.mem_cons_of_mem _ (List.mem_map_of_mem hmem)

/-- A copy of an element stands above what is below it. -/
theorem Arranged.element {s : Step × Nat} {u : Step} (hs : s.1.node.isGroup = false)
    (hu : IsCopy inherited [u] [s])
    (h : Arranged (multiplierOf s.1.node.times inherited s.2) rs ts) :
    Arranged inherited ([u] :: rs.map (u :: ·)) ([s] :: ts.map (s :: ·)) := by
  have hcopies : List.Forall₂ (IsCopy inherited) (rs.map (u :: ·)) (ts.map (s :: ·)) := by
    rw [List.forall₂_map_left_iff, List.forall₂_map_right_iff]
    refine h.copies.imp fun r t hcopy ↦ ?_
    obtain ⟨n, m, hn, hm, hrest⟩ := hcopy.cons
    exact ⟨n, m, hn, (Route.target_cons hcopy.route_ne_nil u).trans hm, hrest⟩
  refine ⟨.cons hu hcopies, ?_⟩
  have hzip : (([u] :: rs.map (u :: ·)).map Route.indices).zip ([s] :: ts.map (s :: ·))
      = ([u.index], [s]) ::
        ((rs.map Route.indices).zip ts).map (Prod.map (u.index :: ·) (s :: ·)) := by
    rw [List.map_cons, List.map_map, List.zip_cons_cons, ← List.zip_map, List.map_map]
    rfl
  rw [hzip, List.forall_mem_cons, List.forall_mem_map]
  refine ⟨List.mem_cons_self, fun p hp ↦ List.mem_cons_of_mem _ ?_⟩
  have hgroup : ¬ (s.1.node.isGroup = true ∧ Trail.enclosing p.2 = []) := fun h ↦ by
    rw [hs] at h
    exact Bool.false_ne_true h.1
  rw [Prod.map_fst, Prod.map_snd, List.dropLast_cons_of_ne_nil (h.ne_nil hp).1,
    Trail.enclosing_cons (h.ne_nil hp).2, if_neg hgroup]
  rcases List.mem_cons.1 (h.parents p hp) with hnil | hmem
  · obtain ⟨hroute, htrail⟩ := Prod.mk.inj hnil
    rw [hroute, htrail]
    exact List.mem_cons_self
  · exact List.mem_cons_of_mem _ (List.mem_map_of_mem hmem)

end Arranged

/-! ## A tree laid out -/

/-- One copy of a node is arranged if what is below it is. -/
theorem arranged_layCopy {inherited : Option Multiplier} (n : Node) (index place copy : Nat)
    (h : ∀ times place, Arranged times (Node.allRoutesFrom place (Node.layAll times n.children))
      (Node.allTrailsFrom 0 n.children)) :
    Arranged inherited
      (Node.allRoutesFrom place (n.layCopy (multiplierOf n.times inherited copy)))
      (Node.trailsVia (⟨index, n⟩, copy)) := by
  have hcopy : ∀ m : Node, m.times = multiplierOf n.times inherited copy → m.essence = n.essence →
      IsCopy inherited [⟨place, m⟩] [(⟨index, n⟩, copy)] := fun m htimes hessence ↦
    ⟨n, m, rfl, rfl, htimes.trans (Trail.multiplier_cons (⟨index, n⟩, copy) [] inherited).symm,
      hessence⟩
  cases n with
  | element e times children =>
    have hbelow := h (multiplierOf times inherited copy) 0
    rw [Node.layCopy, Node.allRoutesFrom, Node.routesFrom_eq, Node.allRoutesFrom, List.append_nil]
    exact hbelow.element rfl (hcopy _ rfl rfl)
  | text value times offset =>
    exact (Arranged.nil (multiplierOf times inherited copy)).element rfl
      (hcopy (.text value (multiplierOf times inherited copy) offset) rfl rfl)
  | group children times offset => exact (h (multiplierOf times inherited copy) place).group rfl

/-- **A tree that is laid out** is arranged along the trails. -/
theorem arranged_layAll (ns : List Node) (index place : Nat) (inherited : Option Multiplier) :
    Arranged inherited (Node.allRoutesFrom place (Node.layAll inherited ns))
      (Node.allTrailsFrom index ns) := by
  induction ns using Node.forest_induction generalizing index place inherited with
  | nil => exact .nil inherited
  | cons n ns below rest =>
    have hcopies : ∀ (copies : List Nat) place, Arranged inherited
        (Node.allRoutesFrom place (copies.flatMap fun copy ↦
          n.layCopy (multiplierOf n.times inherited copy)))
        (copies.flatMap fun copy ↦ Node.trailsVia (⟨index, n⟩, copy)) := by
      intro copies
      induction copies with
      | nil => exact fun _ ↦ .nil inherited
      | cons copy copies ih =>
        intro place
        rw [List.flatMap_cons, List.flatMap_cons, Node.allRoutesFrom_append]
        exact (arranged_layCopy n index place copy fun times place ↦ below 0 place times).append
          (ih _)
    rw [Node.layAll, Node.allTrailsFrom, Node.allRoutesFrom_append, Node.lay_eq, Node.trailsFrom_eq]
    exact (hcopies _ place).append (rest _ _ _)

/-! ## What unrolling lays out -/

mutual

theorem UnrollsTo.pooled : ∀ {inherited : Option Multiplier} {ns out : List Node},
    UnrollsTo inherited ns out → Node.rewriteAll (fun _ ↦ pooler) out
      = Node.layAll inherited (Node.rewriteAll (fun _ ↦ pooler) ns)
  | _, _, _, .nil _ => rfl
  | _, _, _, .cons hn hns => by
    rw [Node.rewriteAll_append, hn.pooled, hns.pooled, Node.rewriteAll, Node.layAll, Node.lay_eq,
      Node.times_rewrite]

theorem CopiesTo.pooled : ∀ {inherited : Option Multiplier} {n : Node} {copies : List Nat}
    {out : List Node}, CopiesTo inherited n copies out → Node.rewriteAll (fun _ ↦ pooler) out
      = copies.flatMap fun copy ↦
          (n.rewrite fun _ ↦ pooler).layCopy (multiplierOf n.times inherited copy)
  | _, _, _, _, .nil _ _ => rfl
  | _, _, _, _, .cons hm hfirst hrest => by
    rw [Node.rewriteAll_append, hfirst.pooled, hm.pooled, hrest.pooled, List.flatMap_cons]

/-- If all copies are made the same, unrolling is laying out. -/
theorem DissolvesTo.pooled : ∀ {times : Option Multiplier} {m : Node} {out : List Node},
    DissolvesTo times m out → Node.rewriteAll (fun _ ↦ pooler) out
      = (m.rewrite fun _ ↦ pooler).layCopy times
  | times, _, _, .element (e := e) h =>
    congrArg (fun ms ↦ [Node.element (e.rewrite pooler) times ms]) h.pooled
  | _, _, _, .text _ _ _ _ => rfl
  | _, _, _, .group h => h.pooled

end

/-- What carrying out the multipliers of a tree lays out: one copy for every trail. -/
structure LaidOut (nodes out : List Node) (trails : List Trail) : Prop
    extends Arranged none (Node.routes out) trails where
  /-- There is a trail for every choice of copies on the route to an element or a text. -/
  mem_iff : ∀ t, t ∈ trails ↔ Trail.route t ∈ Node.routes nodes ∧ Trail.Chosen t ∧
    ∃ n, Route.target (Trail.route t) = some n ∧ n.isGroup = false
  /-- Nodes are in the order of the tree, and all of one copy are before those of the next. -/
  ordered : trails.Pairwise Trail.Before

theorem isCopy_rewrite_iff {inherited : Option Multiplier} {r : Route} {t : Trail} :
    IsCopy inherited (r.map (Step.rewrite fun _ ↦ pooler)) t ↔ IsCopy inherited r t := by
  have htarget : Route.target (r.map (Step.rewrite fun _ ↦ pooler))
      = (Route.target r).map (Node.rewrite fun _ ↦ pooler) := by
    rw [Route.target, List.getLast?_map, Option.map_map, Route.target, Option.map_map]
    rfl
  simp only [IsCopy, htarget, Option.map_eq_some_iff]
  constructor
  · rintro ⟨n, _, hn, ⟨m, hm, rfl⟩, htimes, hessence⟩
    rw [Node.times_rewrite] at htimes
    rw [Node.essence_rewrite_pooler] at hessence
    exact ⟨n, m, hn, hm, htimes, hessence⟩
  · rintro ⟨n, m, hn, hm, htimes, hessence⟩
    refine ⟨n, _, hn, ⟨m, hm, rfl⟩, ?_, ?_⟩
    · rwa [Node.times_rewrite]
    · rwa [Node.essence_rewrite_pooler]

/-- A map that does not tell scopes apart does not tell arrangements apart. -/
theorem arranged_rewrite_iff {inherited : Option Multiplier} {rs : List Route} {ts : List Trail} :
    Arranged inherited (rs.map (List.map (Step.rewrite fun _ ↦ pooler))) ts
      ↔ Arranged inherited rs ts := by
  have hindices : (rs.map (List.map (Step.rewrite fun _ ↦ pooler))).map Route.indices
      = rs.map Route.indices := by
    rw [List.map_map]
    refine List.map_congr_left fun r _ ↦ ?_
    rw [Function.comp_apply, Route.indices, List.map_map]
    rfl
  constructor
  · rintro ⟨hcopies, hparents⟩
    rw [hindices] at hparents
    exact ⟨(List.forall₂_map_left_iff.1 hcopies).imp fun _ _ ↦ isCopy_rewrite_iff.1, hparents⟩
  · rintro ⟨hcopies, hparents⟩
    rw [← hindices] at hparents
    exact ⟨List.forall₂_map_left_iff.2 (hcopies.imp fun _ _ ↦ isCopy_rewrite_iff.2), hparents⟩

/-- Carrying out the multipliers of a tree lays it out. -/
theorem laidOut_of_unroll {limit : Nat} {abbreviation : String} {nodes out : List Node}
    (hc : Node.Consistent nodes) (h : unroll limit abbreviation nodes = .ok out) :
    LaidOut nodes out (Node.trails nodes) := by
  -- Up to scopes and links the outcome is the tree laid out, and copies are compared up to these.
  have hroutes : (Node.routes out).map (List.map (Step.rewrite fun _ ↦ pooler))
      = (Node.routes (Node.layAll none nodes)).map (List.map (Step.rewrite fun _ ↦ pooler)) := by
    rw [Node.routes, Node.routes, ← Node.allRoutesFrom_rewriteAll, ← Node.allRoutesFrom_rewriteAll,
      (unrollsTo_of_unroll hc h).pooled, Node.layAll_rewriteAll]
  refine ⟨?_, Node.mem_allTrailsFrom_iff nodes 0, Node.pairwise_trails nodes 0⟩
  rw [← arranged_rewrite_iff, hroutes, arranged_rewrite_iff]
  exact arranged_layAll nodes 0 0 none

/-- **Every copy is numbered by its nearest multiplier.**  Where carrying out multipliers does not
fail, no group is left, and the nodes of the outcome are the copies of elements and texts, one for
every choice of copies on the way to them.  Attributes with one link are taken to be one attribute,
as they are in every tree that is read. -/
theorem exists_laidOut {limit : Nat} {abbreviation : String} {nodes out : List Node}
    (hc : Node.Consistent nodes) (h : unroll limit abbreviation nodes = .ok out) :
    Node.anyGroup out = false ∧ ∃ trails, LaidOut nodes out trails :=
  ⟨anyGroup_of_unroll h, Node.trails nodes, laidOut_of_unroll hc h⟩

/-- A list with an attribute, and a field in it. -/
def fieldList (times : Option Multiplier) (scope link : Nat) (below : List Node) : Node :=
  .element
    { name := some "ul"
      attributes := [⟨"a", [.field { index := 1, scope }], some link⟩]
      offset := 1 }
    times below

/-- A field as a text. -/
def fieldText (times : Option Multiplier) (scope : Nat) : Node :=
  .text [.field { index := 1, scope }] times 4

/-- A group that is repeated, and a text in it that is repeated again. -/
theorem exists_laidOut_nested :
    ∃ nodes out, nodes = [.group [fieldList none 1 0 [fieldText (some { count := 2 }) 1]]
          (some { count := 2 }) 0] ∧
      out = [fieldList (some ⟨2, 1⟩) 1 1 [fieldText (some ⟨2, 1⟩) 1, fieldText (some ⟨2, 2⟩) 2],
          fieldList (some ⟨2, 2⟩) 3 2 [fieldText (some ⟨2, 1⟩) 3, fieldText (some ⟨2, 2⟩) 4]] ∧
      Node.Consistent nodes ∧ unroll 4 "" nodes = .ok out ∧
        Node.anyGroup out = false ∧ ∃ trails, LaidOut nodes out trails := by
  have hconsistent : Node.Consistent [.group [fieldList none 1 0
      [fieldText (some { count := 2 }) 1]] (some { count := 2 }) 0] := by
    simp [Node.Consistent, Node.allPlaces, Node.places, fieldList, fieldText]
  have hunroll : unroll 4 "" [.group [fieldList none 1 0 [fieldText (some { count := 2 }) 1]]
        (some { count := 2 }) 0]
      = .ok [fieldList (some ⟨2, 1⟩) 1 1 [fieldText (some ⟨2, 1⟩) 1, fieldText (some ⟨2, 2⟩) 2],
          fieldList (some ⟨2, 2⟩) 3 2 [fieldText (some ⟨2, 1⟩) 3, fieldText (some ⟨2, 2⟩) 4]] := by
    decide +kernel
  exact ⟨_, _, rfl, rfl, hconsistent, hunroll, exists_laidOut hconsistent hunroll⟩

end Copies

end Shorthand.Markup
