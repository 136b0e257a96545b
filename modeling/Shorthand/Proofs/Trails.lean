import Shorthand.Proofs.Demands
import Shorthand.Proofs.Forest
import Mathlib.Algebra.Order.BigOperators.Group.List
import Mathlib.Data.List.DropRight
import Mathlib.Tactic.Ring

/-!
# Trails to the copies of a tree

A route leads from the root of a tree to one of its nodes.  Where nodes have multipliers it leads to
several copies of its node, and a trail says to which: it chooses a copy of every node on the route.
As many trails follow a route as the multipliers on it say together.

* `Node.routes` : the routes to the nodes of a tree, in reading order.
* `Node.trails` : the trails to the copies of its elements and texts, in the order of their copies.
* `Node.mem_allTrailsFrom_iff`, `Node.pairwise_trails` : these are all trails there are, each once.
* `Node.following_trails` : how many trails follow a route.
-/

set_option autoImplicit false

namespace Shorthand.Markup

open Copies (countOf multiplierOf)

/-! ## Routes -/

/-- A step from a list of nodes to one of them. -/
structure Step where
  /-- The place of the node in the list, counted from 0. -/
  index : Nat
  node : Node

/-- The steps from the root of a tree to one of its nodes, the outermost first. -/
abbrev Route := List Step

/-- A route with a choice: every step leads to one of the copies of its node. -/
abbrev Trail := List (Step × Nat)

namespace Route

/-- The node that a route leads to. -/
def target (r : Route) : Option Node := r.getLast?.map (·.node)

/-- The number of copies that the multipliers on a route ask for together. -/
def product (r : Route) : Nat := (r.map fun s ↦ countOf s.node.times).prod

/-- The places of the nodes on a route. -/
def indices (r : Route) : List Nat := r.map (·.index)

@[simp] theorem product_nil : product [] = 1 := rfl

@[simp] theorem product_cons (s : Step) (r : Route) :
    product (s :: r) = countOf s.node.times * product r := List.prod_cons

@[simp] theorem indices_cons (s : Step) (r : Route) : indices (s :: r) = s.index :: indices r := rfl

@[simp] theorem target_singleton (s : Step) : target [s] = some s.node := rfl

theorem target_cons {r : Route} (hr : r ≠ []) (s : Step) : target (s :: r) = target r := by
  rw [target, List.getLast?_cons, target, List.getLast?_eq_some_getLast hr]
  rfl

theorem exists_target {r : Route} (hr : r ≠ []) : ∃ n, target r = some n := by
  rw [target, List.getLast?_eq_some_getLast hr]
  exact ⟨_, rfl⟩

end Route

namespace Node

/-- Is the node a group? -/
def isGroup : Node → Bool
  | .group _ _ _ => true
  | .element _ _ _ | .text _ _ _ => false

mutual

/-- The routes to a node and to the nodes below it, if the node stands at a place in a list. -/
def routesFrom (index : Nat) : Node → List Route
  | .element e times children =>
    [⟨index, .element e times children⟩]
      :: (allRoutesFrom 0 children).map (⟨index, .element e times children⟩ :: ·)
  | .text value times offset => [[⟨index, .text value times offset⟩]]
  | .group children times offset =>
    [⟨index, .group children times offset⟩]
      :: (allRoutesFrom 0 children).map (⟨index, .group children times offset⟩ :: ·)

/-- The routes to the nodes of a list whose first node stands at a place. -/
def allRoutesFrom (index : Nat) : List Node → List Route
  | [] => []
  | n :: ns => n.routesFrom index ++ allRoutesFrom (index + 1) ns

end

/-- The routes to the nodes of a tree, in reading order. -/
def routes (nodes : List Node) : List Route := allRoutesFrom 0 nodes

theorem routesFrom_eq (index : Nat) (n : Node) :
    n.routesFrom index = [⟨index, n⟩] :: (allRoutesFrom 0 n.children).map (⟨index, n⟩ :: ·) := by
  cases n <;> rfl

/-- A node of a list that begins at a place is the first one, or one of the others. -/
theorem step_cons_iff {s : Step} {index : Nat} {n : Node} {ns : List Node} :
    (s = ⟨index, n⟩ ∨ index + 1 ≤ s.index ∧ ns[s.index - (index + 1)]? = some s.node) ↔
      index ≤ s.index ∧ (n :: ns)[s.index - index]? = some s.node := by
  obtain ⟨place, m⟩ := s
  rcases Nat.lt_trichotomy place index with hlt | rfl | hlt
  · refine iff_of_false ?_ fun h ↦ Nat.not_lt.2 h.1 hlt
    rintro (h | h)
    · exact Nat.ne_of_lt hlt (Step.mk.inj h).1
    · exact Nat.not_lt.2 (Nat.le_of_succ_le h.1) hlt
  · simp [eq_comm (a := m)]
  · obtain ⟨j, rfl⟩ := Nat.exists_eq_add_of_lt hlt
    have hj : index + j + 1 - index = j + 1 := by omega
    have hj' : index + j + 1 - (index + 1) = j := by omega
    have hne : (⟨index + j + 1, m⟩ : Step) ≠ ⟨index, n⟩ := fun h ↦ by
      have := (Step.mk.inj h).1
      omega
    simp only [hne, hj, hj', List.getElem?_cons_succ, false_or]
    exact and_congr_left fun _ ↦ iff_of_true (by omega) (by omega)

theorem ne_nil_of_mem_routes {ns : List Node} {index : Nat} {r : Route}
    (h : r ∈ allRoutesFrom index ns) : r ≠ [] := by
  induction ns generalizing index with
  | nil => cases h
  | cons n ns ih =>
    rw [allRoutesFrom, routesFrom_eq, List.cons_append, List.mem_cons, List.mem_append,
      List.mem_map] at h
    rcases h with rfl | ⟨r, -, rfl⟩ | h
    · exact List.cons_ne_nil _ _
    · exact List.cons_ne_nil _ _
    · exact ih h

/-- A route is a step to a node of the list, and a route among the nodes below it. -/
theorem cons_mem_routes_iff {ns : List Node} {index : Nat} {s : Step} {r : Route} :
    s :: r ∈ allRoutesFrom index ns ↔ (index ≤ s.index ∧ ns[s.index - index]? = some s.node) ∧
      (r = [] ∨ r ∈ allRoutesFrom 0 s.node.children) := by
  induction ns generalizing index with
  | nil => simp [allRoutesFrom]
  | cons n ns ih =>
    have hhere : s :: r ∈ n.routesFrom index ↔
        s = ⟨index, n⟩ ∧ (r = [] ∨ r ∈ allRoutesFrom 0 s.node.children) := by
      rw [routesFrom_eq, List.mem_cons, List.cons.injEq, List.mem_map]
      constructor
      · rintro (⟨rfl, rfl⟩ | ⟨r', hr', h⟩)
        · exact ⟨rfl, .inl rfl⟩
        · obtain ⟨rfl, rfl⟩ := List.cons.inj h
          exact ⟨rfl, .inr hr'⟩
      · rintro ⟨rfl, rfl | hr⟩
        · exact .inl ⟨rfl, rfl⟩
        · exact .inr ⟨r, hr, rfl⟩
    rw [allRoutesFrom, List.mem_append, hhere, ih, ← or_and_right, step_cons_iff]

/-- The number of copies that a node is asked for is the product along the route to it. -/
theorem demands_eq_routes (ns : List Node) (index total : Nat) :
    (allDemands total ns).map (fun d ↦ (some d.1, d.2))
      = (allRoutesFrom index ns).map fun r ↦
          ((Route.target r).map offset, total * Route.product r) := by
  induction ns using forest_induction generalizing index total with
  | nil => rfl
  | cons n ns below rest =>
    rw [allDemands, demands_eq, allRoutesFrom, routesFrom_eq, List.map_append, List.map_append,
      rest (index + 1), List.map_cons, List.map_cons, below 0, List.map_map]
    congr 2
    · simp
    · refine List.map_congr_left fun r hr ↦ ?_
      rw [Function.comp_apply, Route.target_cons (ne_nil_of_mem_routes hr), Route.product_cons,
        Nat.mul_assoc]

/-- There are as many routes as nodes. -/
theorem length_routes (ns : List Node) (index : Nat) :
    (allRoutesFrom index ns).length = (allPreorder ns).length := by
  induction ns using forest_induction generalizing index with
  | nil => rfl
  | cons n ns below rest =>
    rw [allRoutesFrom, routesFrom_eq, allPreorder, preorder_eq, List.length_append,
      List.length_append, rest (index + 1), List.length_cons, List.length_cons, List.length_map,
      below 0]

end Node

/-! ## Trails -/

namespace Trail

/-- The route that a trail follows. -/
def route (t : Trail) : Route := t.map (·.1)

/-- Every step of a trail leads to a copy that there is. -/
def Chosen (t : Trail) : Prop := ∀ s ∈ t, 1 ≤ s.2 ∧ s.2 ≤ countOf s.1.node.times

/-- What the last multiplier on a trail says: the number of its copies, and which of them was
chosen. -/
def multiplier (t : Trail) : Option Multiplier :=
  t.reverse.findSome? fun s ↦ s.1.node.times.map fun m ↦ ⟨m.count, s.2⟩

/-- The trail to the nearest element around the node that a trail leads to, with the same choices;
empty if there is none. -/
def enclosing (t : Trail) : Trail := t.dropLast.rdropWhile fun s ↦ s.1.node.isGroup

/-- The order of steps: nodes in the order of the list, then copies as they are counted. -/
def StepBefore (s u : Step × Nat) : Prop :=
  s.1.index < u.1.index ∨ s.1.index = u.1.index ∧ s.2 < u.2

/-- The order of trails: the first step that differs decides, and a trail goes before those that go
on from it. -/
abbrev Before : Trail → Trail → Prop := List.Lex StepBefore

@[simp] theorem route_nil : route [] = [] := rfl

@[simp] theorem route_cons (s : Step × Nat) (t : Trail) : route (s :: t) = s.1 :: route t := rfl

theorem chosen_cons {s : Step × Nat} {t : Trail} :
    Chosen (s :: t) ↔ (1 ≤ s.2 ∧ s.2 ≤ countOf s.1.node.times) ∧ Chosen t :=
  List.forall_mem_cons

/-- A copy of a node says which multiplier is around what is below it. -/
theorem multiplier_cons (s : Step × Nat) (t : Trail) (inherited : Option Multiplier) :
    (multiplier (s :: t)).or inherited
      = (multiplier t).or (multiplierOf s.1.node.times inherited s.2) := by
  have hone : ((s.1.node.times.map fun m ↦ (⟨m.count, s.2⟩ : Multiplier)).or inherited)
      = multiplierOf s.1.node.times inherited s.2 := by
    cases s.1.node.times <;> rfl
  rw [multiplier, List.reverse_cons, List.findSome?_append, List.findSome?_singleton,
    Option.or_assoc, hone]
  rfl

theorem enclosing_cons {t : Trail} (ht : t ≠ []) (s : Step × Nat) :
    enclosing (s :: t) = if s.1.node.isGroup ∧ enclosing t = [] then [] else s :: enclosing t := by
  have hlast : (s :: t).dropLast = s :: t.dropLast := List.dropLast_cons_of_ne_nil ht
  rw [enclosing, hlast, enclosing, List.rdropWhile, List.reverse_cons, List.dropWhile_append,
    List.rdropWhile]
  cases hrest : t.dropLast.reverse.dropWhile fun s ↦ s.1.node.isGroup with
  | nil => cases hs : s.1.node.isGroup <;> simp [hs]
  | cons u us => simp

end Trail

namespace Node

mutual

/-- The trails to the copies of a node and of the nodes below it, if the node stands at a place in a
list; a group has no copies itself. -/
def trailsFrom (index : Nat) : Node → List Trail
  | .element e times children =>
    (List.range' 1 (countOf times)).flatMap fun copy ↦
      [(⟨index, .element e times children⟩, copy)]
        :: (allTrailsFrom 0 children).map ((⟨index, .element e times children⟩, copy) :: ·)
  | .text value times offset =>
    (List.range' 1 (countOf times)).map fun copy ↦ [(⟨index, .text value times offset⟩, copy)]
  | .group children times offset =>
    (List.range' 1 (countOf times)).flatMap fun copy ↦
      (allTrailsFrom 0 children).map ((⟨index, .group children times offset⟩, copy) :: ·)

/-- The trails to the copies of the elements and texts of a list whose first node stands at a
place. -/
def allTrailsFrom (index : Nat) : List Node → List Trail
  | [] => []
  | n :: ns => n.trailsFrom index ++ allTrailsFrom (index + 1) ns

end

/-- The trails to the copies of the elements and texts of a tree. -/
def trails (nodes : List Node) : List Trail := allTrailsFrom 0 nodes

/-- The trails to one copy of a node and to those in it. -/
def trailsVia (s : Step × Nat) : List Trail :=
  (if s.1.node.isGroup then [] else [[s]]) ++ (allTrailsFrom 0 s.1.node.children).map (s :: ·)

theorem trailsFrom_eq (index : Nat) (n : Node) :
    n.trailsFrom index
      = (List.range' 1 (countOf n.times)).flatMap fun copy ↦ trailsVia (⟨index, n⟩, copy) := by
  cases n with
  | element | group => rfl
  | text => exact List.map_eq_flatMap

theorem mem_range'_one {copy count : Nat} :
    copy ∈ List.range' 1 count ↔ 1 ≤ copy ∧ copy ≤ count := by
  rw [List.mem_range'_1]
  omega

/-- A trail is a step to a copy of a node of the list, and a trail among the nodes in that copy. -/
theorem cons_mem_trails_iff {ns : List Node} {index : Nat} {s : Step × Nat} {t : Trail} :
    s :: t ∈ allTrailsFrom index ns ↔
      (index ≤ s.1.index ∧ ns[s.1.index - index]? = some s.1.node) ∧
        (1 ≤ s.2 ∧ s.2 ≤ countOf s.1.node.times) ∧
          ((t = [] ∧ s.1.node.isGroup = false) ∨ t ∈ allTrailsFrom 0 s.1.node.children) := by
  induction ns generalizing index with
  | nil => simp [allTrailsFrom]
  | cons n ns ih =>
    have hvia : ∀ u : Step × Nat, s :: t ∈ trailsVia u ↔
        s = u ∧ ((t = [] ∧ s.1.node.isGroup = false) ∨ t ∈ allTrailsFrom 0 s.1.node.children) := by
      intro u
      rw [trailsVia, List.mem_append, List.mem_map]
      constructor
      · rintro (h | ⟨t', ht', h⟩)
        · split at h
          · cases h
          · next hgroup =>
            obtain ⟨rfl, rfl⟩ := List.cons.inj (List.mem_singleton.1 h)
            exact ⟨rfl, .inl ⟨rfl, eq_false_of_ne_true hgroup⟩⟩
        · obtain ⟨rfl, rfl⟩ := List.cons.inj h
          exact ⟨rfl, .inr ht'⟩
      · rintro ⟨rfl, ⟨rfl, hgroup⟩ | ht⟩
        · refine .inl ?_
          rw [hgroup]
          exact List.mem_singleton_self _
        · exact .inr ⟨t, ht, rfl⟩
    have hhere : s :: t ∈ n.trailsFrom index ↔ s.1 = ⟨index, n⟩ ∧
        (1 ≤ s.2 ∧ s.2 ≤ countOf s.1.node.times) ∧
          ((t = [] ∧ s.1.node.isGroup = false) ∨ t ∈ allTrailsFrom 0 s.1.node.children) := by
      rw [trailsFrom_eq, List.mem_flatMap]
      constructor
      · rintro ⟨copy, hcopy, h⟩
        obtain ⟨rfl, h⟩ := (hvia _).1 h
        exact ⟨rfl, mem_range'_one.1 hcopy, h⟩
      · rintro ⟨hs, hcopy, h⟩
        refine ⟨s.2, mem_range'_one.2 ?_, (hvia _).2 ⟨Prod.ext hs rfl, h⟩⟩
        rwa [hs] at hcopy
    rw [allTrailsFrom, List.mem_append, hhere, ih, ← or_and_right, step_cons_iff]

theorem ne_nil_of_mem_trails {ns : List Node} {index : Nat} {t : Trail}
    (h : t ∈ allTrailsFrom index ns) : t ≠ [] := by
  rintro rfl
  induction ns generalizing index with
  | nil => cases h
  | cons n ns ih =>
    rw [allTrailsFrom, trailsFrom_eq, List.mem_append, List.mem_flatMap] at h
    rcases h with ⟨copy, -, h⟩ | h
    · rcases List.mem_append.1 h with h | h
      · split at h <;> simp at h
      · simp at h
    · exact ih h

/-- **The trails of a tree** are the routes to its elements and texts with all choices of copies. -/
theorem mem_allTrailsFrom_iff (ns : List Node) (index : Nat) (t : Trail) :
    t ∈ allTrailsFrom index ns ↔ Trail.route t ∈ allRoutesFrom index ns ∧ Trail.Chosen t ∧
      ∃ n, Route.target (Trail.route t) = some n ∧ n.isGroup = false := by
  -- Induction on the trail, not on the tree: every step of it goes down into another list.
  induction t generalizing ns index with
  | nil =>
    refine iff_of_false (fun h ↦ ?_) fun h ↦ ne_nil_of_mem_routes h.1 rfl
    exact ne_nil_of_mem_trails h rfl
  | cons s t ih =>
    rw [cons_mem_trails_iff, Trail.route_cons, cons_mem_routes_iff, Trail.chosen_cons, ih]
    cases t with
    | nil =>
      have hnil : ([] : Route) ∉ allRoutesFrom 0 s.1.node.children := fun h ↦
        ne_nil_of_mem_routes h rfl
      simp [Trail.Chosen, hnil, and_assoc]
    | cons u t =>
      have htarget := Route.target_cons (List.cons_ne_nil u.1 (Trail.route t)) s.1
      simp only [Trail.route_cons, htarget, List.cons_ne_nil, false_and, false_or]
      tauto

theorem exists_of_mem_trailsVia {s : Step × Nat} {t : Trail} (h : t ∈ trailsVia s) :
    ∃ u, t = s :: u := by
  rcases List.mem_append.1 h with h | h
  · split at h
    · cases h
    · exact ⟨[], List.mem_singleton.1 h⟩
  · obtain ⟨u, -, rfl⟩ := List.mem_map.1 h
    exact ⟨u, rfl⟩

theorem exists_of_mem_trailsFrom {index : Nat} {n : Node} {t : Trail}
    (h : t ∈ n.trailsFrom index) : ∃ copy u, t = (⟨index, n⟩, copy) :: u := by
  rw [trailsFrom_eq, List.mem_flatMap] at h
  obtain ⟨copy, -, h⟩ := h
  exact ⟨copy, exists_of_mem_trailsVia h⟩

/-- A trail begins with a step into the list. -/
theorem exists_of_mem_trails {ns : List Node} {index : Nat} {t : Trail}
    (h : t ∈ allTrailsFrom index ns) : ∃ s u, t = s :: u ∧ index ≤ s.1.index := by
  cases t with
  | nil => exact absurd rfl (ne_nil_of_mem_trails h)
  | cons s u => exact ⟨s, u, rfl, (cons_mem_trails_iff.1 h).1.1⟩

/-- **The trails of a tree come in order,** nodes in reading order, copies as they are counted. -/
theorem pairwise_trails (ns : List Node) (index : Nat) :
    (allTrailsFrom index ns).Pairwise Trail.Before := by
  induction ns using forest_induction generalizing index with
  | nil => exact .nil
  | cons n ns below rest =>
    have hvia : ∀ copy, (trailsVia (⟨index, n⟩, copy)).Pairwise Trail.Before := by
      intro copy
      refine List.pairwise_append.2 ⟨?_, ?_, ?_⟩
      · split
        · exact .nil
        · exact List.pairwise_singleton _ _
      · exact List.pairwise_map.2 ((below 0).imp .cons)
      · intro t ht u hu
        obtain ⟨v, hv, rfl⟩ := List.mem_map.1 hu
        obtain ⟨w, ws, rfl, -⟩ := exists_of_mem_trails hv
        split at ht
        · cases ht
        · rw [List.mem_singleton.1 ht]
          exact .cons .nil
    rw [allTrailsFrom, List.pairwise_append, trailsFrom_eq, List.pairwise_flatMap]
    refine ⟨⟨fun copy _ ↦ hvia copy, ?_⟩, rest _, ?_⟩
    · refine (List.pairwise_lt_range' 1).imp fun {copy copy'} hlt t ht u hu ↦ ?_
      obtain ⟨t, rfl⟩ := exists_of_mem_trailsVia ht
      obtain ⟨u, rfl⟩ := exists_of_mem_trailsVia hu
      exact .rel (.inr ⟨rfl, hlt⟩)
    · intro t ht u hu
      rw [← trailsFrom_eq] at ht
      obtain ⟨copy, t, rfl⟩ := exists_of_mem_trailsFrom ht
      obtain ⟨s, u, rfl, hs⟩ := exists_of_mem_trails hu
      exact .rel (.inl hs)

/-- The number of trails that follow a route: those that step to the same places. -/
def following (r : Route) (ts : List Trail) : Nat :=
  ts.countP fun t ↦ Route.indices (Trail.route t) = Route.indices r

theorem following_append (r : Route) (ts us : List Trail) :
    following r (ts ++ us) = following r ts + following r us := List.countP_append

theorem following_eq_zero {r : Route} {ts : List Trail}
    (h : ∀ t ∈ ts, Route.indices (Trail.route t) ≠ Route.indices r) : following r ts = 0 :=
  List.countP_eq_zero.2 fun t ht ↦ by simpa using h t ht

/-- A route goes on among the nodes below a node, and so do the trails that follow it. -/
theorem following_map_cons (s : Step) (copy : Nat) (r : Route) (ts : List Trail) :
    following (s :: r) (ts.map ((s, copy) :: ·)) = following r ts := by
  rw [following, List.countP_map]
  refine List.countP_congr fun t _ ↦ ?_
  simp

/-- No trail among nodes follows the route that ends above them. -/
theorem following_nil_trails (ns : List Node) (index : Nat) :
    following [] (allTrailsFrom index ns) = 0 := by
  refine following_eq_zero fun t ht ↦ ?_
  obtain ⟨s, u, rfl, -⟩ := exists_of_mem_trails ht
  exact List.cons_ne_nil _ _

/-- The trails that follow a route into one copy of a node. -/
theorem following_trailsVia (s : Step) (copy : Nat) (r : Route) :
    following (s :: r) (trailsVia (s, copy))
      = (if r = [] ∧ s.node.isGroup = false then 1 else 0)
          + following r (allTrailsFrom 0 s.node.children) := by
  rw [trailsVia, following_append, following_map_cons]
  congr 1
  cases hgroup : s.node.isGroup <;> cases r <;> simp [following, Route.indices, Trail.route]

/-- **As many trails follow a route** to an element or a text as its multipliers say together. -/
theorem following_trails (ns : List Node) (index : Nat) {r : Route} {n : Node}
    (hr : r ∈ allRoutesFrom index ns) (hn : Route.target r = some n) (hgroup : n.isGroup = false) :
    following r (allTrailsFrom index ns) = Route.product r := by
  induction ns using forest_induction generalizing index r with
  | nil => cases hr
  | cons m ns below rest =>
    obtain ⟨s, r, rfl⟩ := List.exists_cons_of_ne_nil (ne_nil_of_mem_routes hr)
    rw [allTrailsFrom, following_append]
    rw [allRoutesFrom, List.mem_append] at hr
    -- The route steps to the first node or to a later one; trails to the others do not follow it.
    rcases hr with hr | hr
    · rw [routesFrom_eq, List.mem_cons, List.mem_map] at hr
      have hs : s = ⟨index, m⟩ ∧ (r = [] ∨ r ∈ allRoutesFrom 0 m.children) := by
        rcases hr with h | ⟨r', hr', h⟩
        · exact ⟨(List.cons.inj h).1, .inl (List.cons.inj h).2⟩
        · exact ⟨(List.cons.inj h).1.symm, .inr ((List.cons.inj h).2 ▸ hr')⟩
      obtain ⟨rfl, hbelow⟩ := hs
      have hothers : following (⟨index, m⟩ :: r) (allTrailsFrom (index + 1) ns) = 0 := by
        refine following_eq_zero fun t ht heq ↦ ?_
        obtain ⟨u, us, rfl, hu⟩ := exists_of_mem_trails ht
        have hindex : u.1.index = index := (List.cons.inj heq).1
        omega
      have hcopy : ∀ copy, following (⟨index, m⟩ :: r) (trailsVia (⟨index, m⟩, copy))
          = Route.product r := by
        intro copy
        rw [following_trailsVia]
        rcases hbelow with rfl | hr
        · obtain rfl : m = n := Option.some.inj hn
          rw [if_pos ⟨rfl, hgroup⟩, following_nil_trails]
          rfl
        · have hne := ne_nil_of_mem_routes hr
          rw [if_neg fun h ↦ hne h.1, Nat.zero_add]
          exact below 0 hr (Route.target_cons hne _ ▸ hn)
      rw [hothers, trailsFrom_eq, following, List.countP_flatMap, Nat.add_zero,
        Route.product_cons]
      calc ((List.range' 1 (countOf m.times)).map fun copy ↦
            following (⟨index, m⟩ :: r) (trailsVia (⟨index, m⟩, copy))).sum
          = ((List.range' 1 (countOf m.times)).map fun _ ↦ Route.product r).sum := by
            simp only [hcopy]
        _ = countOf m.times * Route.product r := by
            rw [List.map_const', List.sum_replicate_nat, List.length_range']
    · have hothers : following (s :: r) (m.trailsFrom index) = 0 := by
        refine following_eq_zero fun t ht heq ↦ ?_
        obtain ⟨copy, u, rfl⟩ := exists_of_mem_trailsFrom ht
        have hindex : index = s.index := (List.cons.inj heq).1
        have hle := (cons_mem_routes_iff.1 hr).1.1
        omega
      rw [hothers, rest (index + 1) hr hn, Nat.zero_add]

/-- There are at most as many trails as routes times the copies that a node is asked for. -/
theorem length_trails_le (ns : List Node) (index : Nat) {limit total : Nat}
    (h : ∀ r ∈ allRoutesFrom index ns, total * Route.product r ≤ limit) :
    total * (allTrailsFrom index ns).length ≤ limit * (allRoutesFrom index ns).length := by
  induction ns using forest_induction generalizing index total with
  | nil => exact Nat.le_refl _
  | cons n ns below rest =>
    rw [allRoutesFrom, List.forall_mem_append, routesFrom_eq, List.forall_mem_cons,
      List.forall_mem_map] at h
    obtain ⟨⟨hn, hbelow⟩, hrest⟩ := h
    rw [Route.product_cons, Route.product_nil, Nat.mul_one] at hn
    have hcap : ∀ r ∈ allRoutesFrom 0 n.children,
        total * countOf n.times * Route.product r ≤ limit := by
      intro r hr
      simpa [Nat.mul_assoc] using hbelow r hr
    have hbelow := below 0 hcap
    have hlength : (n.trailsFrom index).length
        ≤ countOf n.times * (1 + (allTrailsFrom 0 n.children).length) := by
      have hone : ∀ copy, (trailsVia (⟨index, n⟩, copy)).length
          ≤ 1 + (allTrailsFrom 0 n.children).length := by
        intro copy
        rw [trailsVia, List.length_append, List.length_map]
        split <;> simp
      rw [trailsFrom_eq, List.length_flatMap]
      calc ((List.range' 1 (countOf n.times)).map fun copy ↦
            (trailsVia (⟨index, n⟩, copy)).length).sum
          ≤ ((List.range' 1 (countOf n.times)).map fun _ ↦
              1 + (allTrailsFrom 0 n.children).length).sum :=
            List.sum_le_sum fun copy _ ↦ hone copy
        _ = countOf n.times * (1 + (allTrailsFrom 0 n.children).length) := by
            rw [List.map_const', List.sum_replicate_nat, List.length_range']
    rw [allTrailsFrom, allRoutesFrom, routesFrom_eq, List.length_append, List.length_append,
      List.length_cons, List.length_map]
    calc total * ((n.trailsFrom index).length + (allTrailsFrom (index + 1) ns).length)
        ≤ total * (countOf n.times * (1 + (allTrailsFrom 0 n.children).length)
            + (allTrailsFrom (index + 1) ns).length) :=
          Nat.mul_le_mul_left _ (Nat.add_le_add_right hlength _)
      _ = total * countOf n.times + total * countOf n.times * (allTrailsFrom 0 n.children).length
            + total * (allTrailsFrom (index + 1) ns).length := by ring
      _ ≤ limit + limit * (allRoutesFrom 0 n.children).length
            + limit * (allRoutesFrom (index + 1) ns).length :=
          Nat.add_le_add (Nat.add_le_add hn hbelow) (rest (index + 1) hrest)
      _ = limit * ((allRoutesFrom 0 n.children).length + 1
            + (allRoutesFrom (index + 1) ns).length) := by ring

end Node

end Shorthand.Markup
