import Shorthand.Proofs.Unrolling
import Mathlib.Data.List.Basic

/-!
# How many copies are asked for

A multiplier asks for copies of its node and of all nodes below it, so a node is asked for as many
times as its own multiplier and those around it say together.  Multipliers cannot be carried out
exactly if a node is asked for more often than the limit allows, and the first such node in reading
order is the one that is blamed.

* `Node.allDemands` : the nodes of a tree, with their places and the numbers of their copies.
* `Copies.failure_unroll` : carrying out multipliers fails at the first node with too many copies.
* `Copies.anyGroup_of_unroll` : where it does not fail no group is left.
-/

set_option autoImplicit false

namespace Shorthand.Markup

open Copies (countOf multiplierOf)

namespace Node

mutual

/-- A node and the nodes below it in reading order, each with its place and the number of copies
that are asked for; around the node `total` copies are asked for. -/
def demands (total : Nat) : Node → List (Nat × Nat)
  | .element e times children =>
    (e.offset, total * countOf times) :: allDemands (total * countOf times) children
  | .text _ times offset => [(offset, total * countOf times)]
  | .group children times offset =>
    (offset, total * countOf times) :: allDemands (total * countOf times) children

/-- The nodes of a tree in reading order, each with its place and the number of copies that are
asked for. -/
def allDemands (total : Nat) : List Node → List (Nat × Nat)
  | [] => []
  | n :: ns => n.demands total ++ allDemands total ns

end

theorem demands_eq (total : Nat) (n : Node) :
    n.demands total
      = (n.offset, total * countOf n.times) :: allDemands (total * countOf n.times) n.children := by
  cases n <;> rfl

mutual

theorem demands_zero (n : Node) : ∀ d ∈ n.demands 0, d.2 = 0 := by
  rw [demands_eq, Nat.zero_mul]
  refine List.forall_mem_cons.2 ⟨rfl, ?_⟩
  cases n with
  | text => simp [children, allDemands]
  | element _ _ children => exact allDemands_zero children
  | group children => exact allDemands_zero children

/-- Where no copy is asked for, none of anything is. -/
theorem allDemands_zero : ∀ ns : List Node, ∀ d ∈ allDemands 0 ns, d.2 = 0
  | [] => by simp [allDemands]
  | n :: ns => List.forall_mem_append.2 ⟨demands_zero n, allDemands_zero ns⟩

end

theorem heights_children_lt (n : Node) : heights n.children < n.height := by
  cases n with
  | text => exact Nat.zero_lt_one
  | element | group => exact Nat.lt_succ_self _

theorem height_le_of_mem {n : Node} {ns : List Node} (h : n ∈ ns) : n.height ≤ heights ns := by
  induction ns with
  | nil => cases h
  | cons m ns ih =>
    rcases List.mem_cons.1 h with rfl | h
    · exact Nat.le_max_left _ _
    · exact Nat.le_trans (ih h) (Nat.le_max_right _ _)

/-! ## What a visit leaves alone -/

section Visit

variable {σ : Type} {v : Option Multiplier → Visitor σ}

mutual

theorem demands_visit : ∀ (n : Node) (total : Nat) (s : σ),
    (n.visit v s).1.demands total = n.demands total
  | .element e _ children, _, _ => congrArg ((e.offset, _) :: ·) (allDemands_visitAll children _ _)
  | .text _ _ _, _, _ => rfl
  | .group children _ offset, _, _ =>
    congrArg ((offset, _) :: ·) (allDemands_visitAll children _ _)

/-- A visit changes nothing about how many copies are asked for. -/
theorem allDemands_visitAll : ∀ (ns : List Node) (total : Nat) (s : σ),
    allDemands total (visitAll v ns s).1 = allDemands total ns
  | [], _, _ => rfl
  | n :: ns, total, s =>
    congrArg₂ (· ++ ·) (demands_visit n total s) (allDemands_visitAll ns total _)

end

mutual

theorem hasGroup_visit : ∀ (n : Node) (s : σ), (n.visit v s).1.hasGroup = n.hasGroup
  | .element _ _ children, _ => anyGroup_visitAll children _
  | .text _ _ _, _ => rfl
  | .group _ _ _, _ => rfl

/-- A visit makes no groups and dissolves none. -/
theorem anyGroup_visitAll : ∀ (ns : List Node) (s : σ), anyGroup (visitAll v ns s).1 = anyGroup ns
  | [], _ => rfl
  | n :: ns, s => congrArg₂ (· || ·) (hasGroup_visit n s) (anyGroup_visitAll ns _)

end

/-- Two nodes have trees of one shape below them, with the same multipliers. -/
structure SameBelow (n m : Node) : Prop where
  heights : heights m.children = heights n.children
  demands : ∀ total, allDemands total m.children = allDemands total n.children

theorem SameBelow.refl (n : Node) : n.SameBelow n := ⟨rfl, fun _ ↦ rfl⟩

theorem SameBelow.trans {n m k : Node} (h : n.SameBelow m) (h' : m.SameBelow k) : n.SameBelow k :=
  ⟨h'.heights.trans h.heights, fun total ↦ (h'.demands total).trans (h.demands total)⟩

theorem sameBelow_visit (n : Node) (s : σ) : n.SameBelow (n.visit v s).1 := by
  cases n with
  | text => exact ⟨rfl, fun _ ↦ rfl⟩
  | element e times children =>
    exact ⟨heights_visitAll v children _, fun total ↦ allDemands_visitAll children total _⟩
  | group children times offset =>
    exact ⟨heights_visitAll v children _, fun total ↦ allDemands_visitAll children total _⟩

end Visit

theorem anyGroup_settle (shown : Shown) (ns : List Node) :
    anyGroup (settle shown ns) = anyGroup ns := by
  unfold settle
  split
  · rfl
  · exact anyGroup_visitAll ns ()

theorem exists_settle (shown : Shown) (n : Node) :
    ∃ m, settle shown [n] = [m] ∧ n.SameBelow m := by
  unfold settle
  split
  · exact ⟨n, rfl, .refl n⟩
  · exact ⟨_, rfl, sameBelow_visit n ()⟩

/-- A copy is one node of the same shape. -/
theorem exists_copy (n : Node) (index : Nat) (supply : Supply) :
    ∃ m, (n.copy index supply).1 = [m] ∧ n.SameBelow m := by
  have hrelink : ∃ m, (relink [n] supply.link).1 = [m] ∧ n.SameBelow m :=
    ⟨_, rfl, sameBelow_visit n _⟩
  obtain ⟨m, hm, hsame⟩ := hrelink
  unfold copy
  dsimp only
  split
  · exact ⟨m, hm, hsame⟩
  · rw [hm]
    obtain ⟨k, hk, hsame'⟩ := exists_settle _ (m.visit _ _).1
    exact ⟨k, hk, hsame.trans ((sameBelow_visit m _).trans hsame')⟩

end Node

namespace Copies

/-! ## Too many copies -/

/-- The first node in reading order of which more copies are asked for than the limit allows: its
place, and the number of its copies. -/
def tooMany? (limit : Nat) (demands : List (Nat × Nat)) : Option (Nat × Nat) :=
  demands.find? fun d ↦ limit < d.2

/-- How carrying out multipliers fails. -/
def overrun? (limit : Nat) (demands : List (Nat × Nat)) : Option Fault :=
  (tooMany? limit demands).map fun d ↦ .malformed .tooManyCopies d.1

theorem overrun?_append (limit : Nat) (ds es : List (Nat × Nat)) :
    overrun? limit (ds ++ es) = (overrun? limit ds).or (overrun? limit es) := by
  rw [overrun?, tooMany?, List.find?_append, Option.map_or]
  rfl

theorem overrun?_cons_of_lt {limit place count : Nat} (h : limit < count)
    (ds : List (Nat × Nat)) :
    overrun? limit ((place, count) :: ds) = some (.malformed .tooManyCopies place) := by
  rw [overrun?, tooMany?, List.find?_cons_of_pos (by simpa using h)]
  rfl

theorem overrun?_cons_of_le {limit place count : Nat} (h : ¬ limit < count)
    (ds : List (Nat × Nat)) : overrun? limit ((place, count) :: ds) = overrun? limit ds := by
  rw [overrun?, tooMany?, List.find?_cons_of_neg (by simpa using h)]
  rfl

theorem overrun?_zero (limit : Nat) (ns : List Node) :
    overrun? limit (Node.allDemands 0 ns) = none := by
  rw [overrun?, Option.map_eq_none_iff, tooMany?, List.find?_eq_none]
  intro d hd
  rw [Node.allDemands_zero ns d hd]
  simp

variable {limit : Nat}

/-- Gathering fails as the first item that fails, if the state does not matter to that. -/
theorem failure_gather {α β σ ε : Type} {f : α → σ → Except ε (List β × σ)} {g : α → Option ε}
    {as : List α} (h : ∀ a ∈ as, ∀ s, failure? (f a s) = g a) (s : σ) :
    failure? (gather f as s) = as.findSome? g := by
  induction as generalizing s with
  | nil => rfl
  | cons a as ih =>
    obtain ⟨ha, has⟩ := List.forall_mem_cons.1 h
    rw [List.findSome?_cons, ← ha s]
    refine (failure?_bind fun r _ ↦ (failure?_bind_of_ok fun _ _ ↦ rfl).trans (ih has r.2)).trans ?_
    cases failure? (f a s) <;> rfl

theorem failure_dissolve {inside : List Node → Supply → Except Fault (List Node × Supply)}
    {n : Node} {fault? : Option Fault} (h : ∀ supply, failure? (inside n.children supply) = fault?)
    (hnone : n.children = [] → fault? = none) (times : Option Multiplier) (supply : Supply) :
    failure? (dissolve inside times n supply) = fault? := by
  cases n with
  | text => exact (hnone rfl).symm
  | group => exact h supply
  | element => exact (failure?_bind_of_ok fun _ _ ↦ rfl).trans (h supply)

/-- The copies of a node fail as the nodes below it. -/
theorem failure_unrollCopy
    {below : Option Multiplier → List Node → Supply → Except Fault (List Node × Supply)} {n : Node}
    {total : Nat} (h : ∀ times m supply, n.SameBelow m →
      failure? (below times m.children supply)
        = overrun? limit (Node.allDemands total m.children))
    (inherited : Option Multiplier) (index : Nat) (supply : Supply) :
    failure? (unrollCopy below inherited n index supply)
      = overrun? limit (Node.allDemands total n.children) := by
  have hgather : ∀ m supply, n.SameBelow m → ∀ times,
      failure? (gather (dissolve (below times) times) [m] supply)
        = overrun? limit (Node.allDemands total n.children) := by
    intro m supply hm times
    have hdissolve : ∀ supply, failure? (dissolve (below times) times m supply)
        = overrun? limit (Node.allDemands total n.children) :=
      failure_dissolve (fun supply ↦ (h times m supply hm).trans (by rw [hm.demands]))
        (fun hnil ↦ by rw [← hm.demands, hnil]; rfl) times
    rw [failure_gather (g := fun _ ↦ overrun? limit (Node.allDemands total n.children))
      (List.forall_mem_singleton.2 hdissolve)]
    cases overrun? limit (Node.allDemands total n.children) <;> rfl
  unfold unrollCopy
  by_cases hcount : 1 < countOf n.times
  · obtain ⟨m, hm, hsame⟩ := Node.exists_copy n index supply
    rw [if_pos hcount]
    simp only [hm]
    exact hgather m _ hsame _
  · rw [if_neg hcount]
    exact hgather n supply (.refl n) _

/-- A node fails at itself, or as the nodes below it. -/
theorem failure_unrollNode
    {below : Option Multiplier → Nat → List Node → Supply → Except Fault (List Node × Supply)}
    {n : Node} (h : ∀ times total m supply, n.SameBelow m →
      failure? (below times total m.children supply)
        = overrun? limit (Node.allDemands total m.children))
    (inherited : Option Multiplier) (total : Nat) (supply : Supply) :
    failure? (unrollNode limit below inherited total n supply)
      = overrun? limit (n.demands total) := by
  rw [Node.demands_eq, unrollNode]
  by_cases hlimit : limit < total * countOf n.times
  · rw [if_pos hlimit, overrun?_cons_of_lt hlimit]
    rfl
  · rw [if_neg hlimit, overrun?_cons_of_le hlimit,
      failure_gather fun index _ s ↦ failure_unrollCopy (fun times m s ↦ h times _ m s) inherited
        index s]
    -- The first copy fails if any does; without a copy nothing is asked for.
    cases hcount : countOf n.times with
    | zero =>
      rw [Nat.mul_zero, overrun?_zero]
      rfl
    | succ count =>
      rw [List.range'_succ, List.findSome?_cons]
      cases overrun? limit (Node.allDemands (total * (count + 1)) n.children) with
      | some fault => rfl
      | none => simp

theorem failure_unrollTo {height : Nat} {nodes : List Node} (h : Node.heights nodes ≤ height)
    (inherited : Option Multiplier) (total : Nat) (supply : Supply) :
    failure? (unrollTo limit height inherited total nodes supply)
      = overrun? limit (Node.allDemands total nodes) := by
  induction height generalizing inherited total nodes supply with
  | zero =>
    cases nodes with
    | nil => rfl
    | cons n ns => cases n <;> simp [Node.heights, Node.height] at h
  | succ height ih =>
    have hnode : ∀ n ∈ nodes, ∀ supply,
        failure? (unrollNode limit (unrollTo limit height) inherited total n supply)
          = overrun? limit (n.demands total) := by
      intro n hn supply
      refine failure_unrollNode (fun times total m supply hsame ↦ ih ?_ times total supply)
        inherited total supply
      rw [hsame.heights]
      have hlt := Nat.lt_of_lt_of_le (Node.heights_children_lt n) (Node.height_le_of_mem hn)
      exact Nat.le_of_lt_succ (Nat.lt_of_lt_of_le hlt h)
    rw [unrollTo_succ, failure_gather hnode]
    -- The first node that fails has the first place with too many copies.
    clear hnode h
    induction nodes with
    | nil => rfl
    | cons n ns ih =>
      rw [List.findSome?_cons, Node.allDemands, overrun?_append, ih]
      cases overrun? limit (n.demands total) <;> rfl

/-- **Carrying out multipliers fails at the first node with too many copies,** and nowhere else. -/
theorem failure_unroll (limit : Nat) (abbreviation : String) (nodes : List Node) :
    failure? (unroll limit abbreviation nodes)
      = (tooMany? limit (Node.allDemands 1 nodes)).map fun d ↦
          .malformed ⟨.tooManyCopies, d.1, abbreviation⟩ := by
  rw [unroll, failure?_located, failure?_map, failure_unrollTo (Nat.le_succ _), overrun?,
    Option.map_map]
  rfl

/-! ## No group is left -/

theorem anyGroup_append (ns ms : List Node) :
    Node.anyGroup (ns ++ ms) = (Node.anyGroup ns || Node.anyGroup ms) := by
  induction ns with
  | nil => rfl
  | cons n ns ih => rw [List.cons_append, Node.anyGroup, ih, Node.anyGroup, Bool.or_assoc]

/-- Gathering gives no group if no item does. -/
theorem anyGroup_of_gather {α σ ε : Type} {f : α → σ → Except ε (List Node × σ)} {as : List α}
    (h : ∀ a ∈ as, ∀ s r, f a s = .ok r → Node.anyGroup r.1 = false) {s : σ} {r : List Node × σ}
    (hr : gather f as s = .ok r) : Node.anyGroup r.1 = false := by
  induction as generalizing s r with
  | nil =>
    cases hr
    rfl
  | cons a as ih =>
    obtain ⟨ha, has⟩ := List.forall_mem_cons.1 h
    obtain ⟨out, s'⟩ := r
    obtain ⟨first, s₁, rest, hfirst, hrest, rfl⟩ := gather_cons_eq_ok_iff.1 hr
    have hfirst : Node.anyGroup first = false := ha s _ hfirst
    have hrest : Node.anyGroup rest = false := ih has hrest
    rw [anyGroup_append, hfirst, hrest, Bool.or_false]

theorem anyGroup_of_unrollTo {height : Nat} {inherited : Option Multiplier} {total : Nat}
    {nodes : List Node} {supply : Supply} {r : List Node × Supply}
    (h : unrollTo limit height inherited total nodes supply = .ok r) :
    Node.anyGroup r.1 = false := by
  induction height generalizing inherited total nodes supply r with
  | zero =>
    cases h
    rfl
  | succ height ih =>
    refine anyGroup_of_gather (fun n _ s r hr ↦ ?_) h
    change unrollNode limit (unrollTo limit height) inherited total n s = .ok r at hr
    rw [unrollNode] at hr
    split at hr
    · cases hr
    refine anyGroup_of_gather (fun index _ s r hr ↦ ?_) hr
    rw [unrollCopy] at hr
    refine anyGroup_of_gather (fun m _ s r hr ↦ ?_) hr
    cases m with
    | text v times offset =>
      cases hr
      rfl
    | group children times offset => exact ih hr
    | element e times children =>
      obtain ⟨⟨below, s'⟩, hbelow, hr⟩ := bind_eq_ok_iff.1 hr
      cases hr
      have hbelow : Node.anyGroup below = false := ih hbelow
      rw [Node.anyGroup, Node.hasGroup, hbelow]
      rfl

/-- Where multipliers are carried out no group is left. -/
theorem anyGroup_of_unroll {abbreviation : String} {nodes out : List Node}
    (h : unroll limit abbreviation nodes = .ok out) : Node.anyGroup out = false := by
  obtain ⟨r, hr, rfl⟩ := map_eq_ok_iff.1 (located_eq_ok_iff.1 h)
  exact anyGroup_of_unrollTo hr

end Copies

end Shorthand.Markup
