import Shorthand.Markup.Tree
import Mathlib.Data.List.Basic
import Mathlib.Data.List.Chain

/-!
# Where an item hangs

The items of a row come with levels, and the tree of a row says for each item which items hang under
it.  `hang` is that tree, said without any order of work: item `j` hangs under the latest item
before it that is one level above, and the items under one item stand in the order of the row.
Building the tree item after item (`Tree.nest`) only ever works on its right edge; both give the
same tree as long as a level is never more than one below the item before it, and never below a text
(`Steady`).

* `Tree.nest_eq_hang` : the tree that is built is the tree that the levels say.
* `Tree.allPreorder_nest` : in reading order the tree lists the items as the row does.
* `Tree.insertAt_edge` : a path of indices along the right edge leads to where an item is attached.
-/

set_option autoImplicit false

namespace Shorthand.Markup

/-! ## Nodes and what is below them -/

namespace Node

@[simp] theorem withChildren_children (n : Node) : n.withChildren n.children = n := by
  cases n <;> rfl

@[simp] theorem children_withChildren {n : Node} (h : n.isText = false) (ns : List Node) :
    (n.withChildren ns).children = ns := by
  cases n with
  | text => cases h
  | element => rfl
  | group => rfl

@[simp] theorem withChildren_withChildren (n : Node) (ns ms : List Node) :
    (n.withChildren ns).withChildren ms = n.withChildren ms := by
  cases n <;> rfl

@[simp] theorem isText_withChildren (n : Node) (ns : List Node) :
    (n.withChildren ns).isText = n.isText := by
  cases n <;> rfl

mutual

/-- A node and the nodes below it in reading order, each on its own. -/
def preorder : Node → List Node
  | .element e times children => .element e times [] :: allPreorder children
  | .text value times offset => [.text value times offset]
  | .group children times offset => .group [] times offset :: allPreorder children

/-- The nodes of a tree in reading order, each on its own. -/
def allPreorder : List Node → List Node
  | [] => []
  | n :: ns => n.preorder ++ allPreorder ns

end

theorem preorder_eq (n : Node) : n.preorder = n.withChildren [] :: allPreorder n.children := by
  cases n <;> simp [preorder, withChildren, children, allPreorder]

theorem allPreorder_append (ns ms : List Node) :
    allPreorder (ns ++ ms) = allPreorder ns ++ allPreorder ms := by
  induction ns with
  | nil => rfl
  | cons n ns ih => simp [allPreorder, ih]

theorem allPreorder_singleton (n : Node) : allPreorder [n] = n.preorder := by
  simp [allPreorder]

end Node

namespace Tree

/-! ## The right edge -/

theorem mapLast_append (f : Node → Node) (ns : List Node) (n : Node) :
    mapLast f (ns ++ [n]) = ns ++ [f n] := by
  fun_induction mapLast f ns with
  | case1 => rfl
  | case2 => rfl
  | case3 n m ns ih => simpa [mapLast] using ih

/-- The right edge of a tree goes down to a level: none of its nodes above that level is a text. -/
def Reaches : Nat → List Node → Prop
  | 0, _ => True
  | level + 1, nodes =>
    ∃ before last, nodes = before ++ [last] ∧ last.isText = false ∧ Reaches level last.children

theorem Reaches.of_le {level level' : Nat} (hle : level' ≤ level) {nodes : List Node}
    (h : Reaches level nodes) : Reaches level' nodes := by
  induction level generalizing level' nodes with
  | zero => obtain rfl := Nat.le_zero.1 hle; exact h
  | succ level ih =>
    cases level' with
    | zero => trivial
    | succ level' =>
      obtain ⟨before, last, rfl, hlast, h⟩ := h
      exact ⟨before, last, rfl, hlast, ih (Nat.le_of_succ_le_succ hle) h⟩

/-- Attaching at a level of the edge changes nothing above it. -/
theorem attach_succ (level : Nat) (n : Node) (before : List Node) (last : Node) :
    attach (level + 1) n (before ++ [last])
      = before ++ [last.withChildren (attach level n last.children)] := by
  rw [attach, mapLast_append]

/-- The edge of a tree ends in the node that was attached last. -/
theorem Reaches.attach {level : Nat} {n : Node} {nodes : List Node} (h : Reaches level nodes) :
    Reaches level (attach level n nodes) ∧
      (n.isText = false → Reaches (level + 1) (Tree.attach level n nodes)) := by
  induction level generalizing nodes with
  | zero => exact ⟨trivial, fun hn ↦ ⟨nodes, n, rfl, hn, trivial⟩⟩
  | succ level ih =>
    obtain ⟨before, last, rfl, hlast, h⟩ := h
    have hw : (last.withChildren (Tree.attach level n last.children)).isText = false := by
      rw [Node.isText_withChildren, hlast]
    rw [attach_succ]
    refine ⟨⟨before, _, rfl, hw, ?_⟩, fun hn ↦ ⟨before, _, rfl, hw, ?_⟩⟩
    · rw [Node.children_withChildren hlast]
      exact (ih h).1
    · rw [Node.children_withChildren hlast]
      exact (ih h).2 hn

/-- What is attached comes last in reading order. -/
theorem allPreorder_attach {level : Nat} (n : Node) {nodes : List Node} (h : Reaches level nodes) :
    Node.allPreorder (attach level n nodes) = Node.allPreorder nodes ++ n.preorder := by
  induction level generalizing nodes with
  | zero => rw [attach, Node.allPreorder_append, Node.allPreorder_singleton]
  | succ level ih =>
    obtain ⟨before, last, rfl, hlast, h⟩ := h
    rw [attach_succ, Node.allPreorder_append, Node.allPreorder_singleton, Node.preorder_eq,
      Node.withChildren_withChildren, Node.children_withChildren hlast, ih h,
      Node.allPreorder_append, Node.allPreorder_singleton, Node.preorder_eq last]
    simp only [List.append_assoc, List.cons_append]

/-! ## Paths of indices -/

/-- The nodes below the node that a path of indices leads to.  There are none if an index is missing
or the path leads into a text. -/
def childrenAt : List Nat → List Node → Option (List Node)
  | [], nodes => some nodes
  | i :: path, nodes => do
    let target ← nodes[i]?
    if target.isText then none else childrenAt path target.children

/-- Adds a node after those below the node that a path of indices leads to. -/
def insertAt (n : Node) : List Nat → List Node → Option (List Node)
  | [], nodes => some (nodes ++ [n])
  | i :: path, nodes => do
    let target ← nodes[i]?
    if target.isText then none
    else
      let children ← insertAt n path target.children
      return nodes.set i (target.withChildren children)

/-- The path of indices down the right edge of a tree to a level. -/
def edge : Nat → List Node → List Nat
  | 0, _ => []
  | level + 1, nodes =>
    (nodes.length - 1) :: edge level (nodes.getLast?.elim [] Node.children)

theorem edge_succ (level : Nat) (before : List Node) (last : Node) :
    edge (level + 1) (before ++ [last]) = before.length :: edge level last.children := by
  simp [edge]

theorem length_edge (level : Nat) (nodes : List Node) : (edge level nodes).length = level := by
  induction level generalizing nodes with
  | zero => rfl
  | succ level ih => simp [edge, ih]

/-- The path to a level is the beginning of the path to a deeper one. -/
theorem take_edge {level level' : Nat} (h : level ≤ level') (nodes : List Node) :
    (edge level' nodes).take level = edge level nodes := by
  induction level generalizing level' nodes with
  | zero => rfl
  | succ level ih =>
    obtain ⟨k, rfl⟩ : ∃ k, level' = k + 1 := ⟨level' - 1, by omega⟩
    rw [edge, edge, List.take_succ_cons, ih (Nat.le_of_succ_le_succ h)]

/-- The path down the right edge leads to an element or a group, and adding a node there attaches
it. -/
theorem insertAt_edge (n : Node) {level : Nat} {nodes : List Node} (h : Reaches level nodes) :
    insertAt n (edge level nodes) nodes = some (attach level n nodes) := by
  induction level generalizing nodes with
  | zero => rfl
  | succ level ih =>
    obtain ⟨before, last, rfl, hlast, h⟩ := h
    have hget : (before ++ [last])[before.length]? = some last := by simp
    rw [edge_succ, insertAt, hget, attach_succ]
    simp [hlast, ih h]

/-- One step down the right edge is to the last of the nodes that the path leads to. -/
theorem childrenAt_edge {level : Nat} {nodes : List Node} (h : Reaches level nodes) :
    ∃ below, childrenAt (edge level nodes) nodes = some below ∧
      edge level nodes ++ [below.length - 1] = edge (level + 1) nodes := by
  induction level generalizing nodes with
  | zero => exact ⟨nodes, rfl, rfl⟩
  | succ level ih =>
    obtain ⟨before, last, rfl, hlast, h⟩ := h
    obtain ⟨below, hbelow, hedge⟩ := ih h
    have hget : (before ++ [last])[before.length]? = some last := by simp
    refine ⟨below, ?_, ?_⟩
    · rw [edge_succ, childrenAt, hget]
      simpa [hlast] using hbelow
    · rw [edge_succ, edge_succ, List.cons_append, hedge]

/-- Attaching a node leaves the path to its level as it was. -/
theorem edge_attach {level : Nat} (n : Node) {nodes : List Node} (h : Reaches level nodes) :
    edge level (attach level n nodes) = edge level nodes := by
  induction level generalizing nodes with
  | zero => rfl
  | succ level ih =>
    obtain ⟨before, last, rfl, hlast, h⟩ := h
    rw [attach_succ, edge_succ, edge_succ, Node.children_withChildren hlast, ih h]

/-! ## Levels -/

/-- The level of an item of a row. -/
def levelOf (items : List (Nat × Node)) (i : Nat) : Nat := (items[i]?.map Prod.fst).getD 0

/-- Item `j` hangs under item `i`: it is one level below, and `i` is the latest such item before
it. -/
def HangsUnder (items : List (Nat × Node)) (i j : Nat) : Prop :=
  i < j ∧ levelOf items i + 1 = levelOf items j ∧
    ∀ k < j, i < k → levelOf items k + 1 ≠ levelOf items j

instance (items : List (Nat × Node)) (i j : Nat) : Decidable (HangsUnder items i j) :=
  inferInstanceAs (Decidable (_ ∧ _ ∧ _))

/-- The items that hang under item `i`, in the order of the row. -/
def hanging (items : List (Nat × Node)) (i : Nat) : List Nat :=
  (List.range items.length).filter fun j ↦ HangsUnder items i j

theorem mem_hanging {items : List (Nat × Node)} {i j : Nat} :
    j ∈ hanging items i ↔ j < items.length ∧ HangsUnder items i j := by
  simp [hanging]

/-- Item `i` of a row with everything that hangs under it, after what it encloses itself. -/
def grown (items : List (Nat × Node)) (i : Nat) : Node :=
  match items[i]? with
  | none => default
  | some item =>
    item.2.withChildren (item.2.children ++ (hanging items i).attach.map fun ⟨j, _⟩ ↦ grown items j)
termination_by items.length - i
decreasing_by
  rename_i hj
  obtain ⟨hlt, hij, -⟩ := mem_hanging.1 hj
  omega

/-- The items at the top of a row, in order. -/
def tops (items : List (Nat × Node)) : List Nat :=
  (List.range items.length).filter fun i ↦ levelOf items i = 0

/-- The tree that the levels of a row say. -/
def hang (items : List (Nat × Node)) : List Node := (tops items).map (grown items)

theorem grown_eq {items : List (Nat × Node)} {i : Nat} (h : i < items.length) :
    grown items i = items[i].2.withChildren
      (items[i].2.children ++ (hanging items i).map (grown items)) := by
  rw [grown, List.getElem?_eq_getElem h]
  simp

/-- One item may follow another: at most one level below it, and not below a text. -/
def MayFollow (a b : Nat × Node) : Prop := b.1 ≤ a.1 + 1 ∧ (a.1 < b.1 → a.2.isText = false)

/-- The items of a row begin at the top, and each may follow the one before it. -/
structure Steady (items : List (Nat × Node)) : Prop where
  first : ∀ item ∈ items.head?, item.1 = 0
  next : items.IsChain MayFollow

theorem Steady.of_append {items more : List (Nat × Node)} (h : Steady (items ++ more)) :
    Steady items where
  first item hitem := h.first item (by rw [List.head?_append, hitem]; rfl)
  next := (List.isChain_append.1 h.next).1

/-- Items before the last have the levels that they had without it. -/
theorem levelOf_append {items : List (Nat × Node)} {i : Nat} (h : i < items.length)
    (more : List (Nat × Node)) : levelOf (items ++ more) i = levelOf items i := by
  simp [levelOf, List.getElem?_append_left h]

theorem levelOf_eq {items : List (Nat × Node)} {i : Nat} (h : i < items.length) :
    levelOf items i = items[i].1 := by
  simp [levelOf, List.getElem?_eq_getElem h]

theorem Steady.step {items : List (Nat × Node)} (h : Steady items) {i : Nat}
    (hi : i + 1 < items.length) :
    levelOf items (i + 1) ≤ levelOf items i + 1 ∧
      (levelOf items i < levelOf items (i + 1) → items[i].2.isText = false) := by
  have := List.isChain_iff_getElem.1 h.next i hi
  rw [levelOf_eq hi, levelOf_eq (Nat.lt_of_succ_lt hi)]
  exact this

theorem Steady.zero {items : List (Nat × Node)} (h : Steady items) : levelOf items 0 = 0 := by
  cases items with
  | nil => rfl
  | cons item items => exact h.first item rfl

/-! ## Rises -/

/-- Where the levels rise above a level for good, the item before is just above that level. -/
theorem Steady.exists_rise {items : List (Nat × Node)} (h : Steady items) {k j level : Nat}
    (hkj : k ≤ j) (hj : j < items.length) (hk : levelOf items k < level)
    (hlevel : level ≤ levelOf items j) :
    ∃ m, k ≤ m ∧ m < j ∧ levelOf items m + 1 = level ∧
      ∀ p, m < p → p ≤ j → level ≤ levelOf items p := by
  -- The last item before `j` below the level is the one: one step rises by one level at most.
  induction j, hkj using Nat.le_induction with
  | base => omega
  | succ j hkj ih =>
    rcases Nat.lt_or_ge (levelOf items j) level with hlt | hge
    · have := (h.step hj).1
      refine ⟨j, hkj, Nat.lt_succ_self j, by omega, fun p hp hpj ↦ ?_⟩
      obtain rfl : p = j + 1 := by omega
      exact hlevel
    · obtain ⟨m, hm, hmj, heq, hp⟩ := ih (Nat.lt_of_succ_lt hj) hge
      refine ⟨m, hm, Nat.lt_succ_of_lt hmj, heq, fun p hmp hpj ↦ ?_⟩
      rcases Nat.lt_or_ge j p with hjp | hpj'
      · obtain rfl : p = j + 1 := by omega
        exact hlevel
      · exact hp p hmp hpj'

/-- Between an item and one that hangs under it, all levels are at least that of the latter. -/
theorem HangsUnder.le_between {items : List (Nat × Node)} (hs : Steady items) {i j k : Nat}
    (h : HangsUnder items i j) (hj : j < items.length) (hik : i < k) (hkj : k < j) :
    levelOf items j ≤ levelOf items k := by
  by_contra hlt
  obtain ⟨m, hkm, hmj, heq, -⟩ :=
    hs.exists_rise (Nat.le_of_lt hkj) hj (Nat.lt_of_not_le hlt) (Nat.le_refl _)
  exact h.2.2 m hmj (Nat.lt_of_lt_of_le hik hkm) heq

/-- Every item below the top hangs under another, which is no text. -/
theorem Steady.exists_hangsUnder {items : List (Nat × Node)} (h : Steady items) {j : Nat}
    (hj : j < items.length) (hlevel : 0 < levelOf items j) :
    ∃ i, ∃ hi : i < items.length, HangsUnder items i j ∧ items[i].2.isText = false := by
  have hzero : levelOf items 0 < levelOf items j := by rw [h.zero]; exact hlevel
  obtain ⟨i, -, hij, heq, hbetween⟩ :=
    h.exists_rise (Nat.zero_le j) hj hzero (Nat.le_refl _)
  have hnext := hbetween (i + 1) (Nat.lt_succ_self i) hij
  refine ⟨i, Nat.lt_trans hij hj, ⟨hij, heq, fun k hkj hik ↦ ?_⟩, (h.step (by omega)).2 (by omega)⟩
  have := hbetween k hik (Nat.le_of_lt hkj)
  omega

/-! ## One more item -/

/-- All items after item `i` are below it: it is on the right edge. -/
def OnEdge (items : List (Nat × Node)) (i : Nat) : Prop :=
  ∀ k < items.length, i < k → levelOf items i < levelOf items k

instance (items : List (Nat × Node)) (i : Nat) : Decidable (OnEdge items i) :=
  inferInstanceAs (Decidable (∀ k < _, _))

section Append

variable {items : List (Nat × Node)} {level : Nat} {n : Node}

theorem levelOf_last : levelOf (items ++ [(level, n)]) items.length = level := by
  simp [levelOf]

theorem hangsUnder_append_iff {i j : Nat} (hj : j < items.length) (more : List (Nat × Node)) :
    HangsUnder (items ++ more) i j ↔ HangsUnder items i j := by
  constructor
  · rintro ⟨hij, heq, hk⟩
    rw [levelOf_append (Nat.lt_trans hij hj), levelOf_append hj] at heq
    refine ⟨hij, heq, fun k hkj hik ↦ ?_⟩
    have := hk k hkj hik
    rwa [levelOf_append (Nat.lt_trans hkj hj), levelOf_append hj] at this
  · rintro ⟨hij, heq, hk⟩
    refine ⟨hij, ?_, fun k hkj hik ↦ ?_⟩
    · rwa [levelOf_append (Nat.lt_trans hij hj), levelOf_append hj]
    · rw [levelOf_append (Nat.lt_trans hkj hj), levelOf_append hj]
      exact hk k hkj hik

/-- The last item hangs under the item of the right edge that is one level above. -/
theorem hangsUnder_last_iff (h : Steady (items ++ [(level, n)])) {i : Nat}
    (hi : i < items.length) :
    HangsUnder (items ++ [(level, n)]) i items.length ↔
      OnEdge items i ∧ levelOf items i + 1 = level := by
  constructor
  · intro hu
    have heq := hu.2.1
    rw [levelOf_last, levelOf_append hi] at heq
    refine ⟨fun k hk hik ↦ ?_, heq⟩
    have := hu.le_between h (by simp) hik hk
    rw [levelOf_last, levelOf_append hk] at this
    omega
  · rintro ⟨hedge, heq⟩
    refine ⟨hi, by rw [levelOf_last, levelOf_append hi, heq], fun k hk hik ↦ ?_⟩
    have := hedge k hk hik
    rw [levelOf_last, levelOf_append hk]
    omega

theorem hanging_append (h : Steady (items ++ [(level, n)])) {i : Nat} (hi : i < items.length) :
    hanging (items ++ [(level, n)]) i
      = hanging items i ++ if OnEdge items i ∧ levelOf items i + 1 = level then [items.length]
        else [] := by
  rw [hanging, List.length_append, List.length_singleton, List.range_succ, List.filter_append,
    hanging]
  congr 1
  · refine List.filter_congr fun j hj ↦ ?_
    rw [decide_eq_decide]
    exact hangsUnder_append_iff (List.mem_range.1 hj) _
  · rw [List.filter_singleton]
    simp only [hangsUnder_last_iff h hi, Bool.cond_decide]

/-- What is on the right edge hangs under what is on the right edge. -/
theorem OnEdge.of_hangsUnder (hs : Steady items) {i j : Nat} (h : HangsUnder items i j)
    (hj : j < items.length) (hedge : OnEdge items j) : OnEdge items i := by
  intro k hk hik
  have hlevel := h.2.1
  rcases Nat.lt_trichotomy k j with hkj | rfl | hjk
  · have := h.le_between hs hj hik hkj
    omega
  · omega
  · have := hedge k hk hjk
    omega

/-- Above the level of the last item, the right edge has an item at every level that occurs. -/
theorem exists_onEdge (h : Steady (items ++ [(level, n)])) {k : Nat} (hk : k < items.length)
    (hlevel : levelOf items k < level) :
    ∃ m, k ≤ m ∧ m < items.length ∧ levelOf items m = levelOf items k ∧ OnEdge items m := by
  have hlast : levelOf items k + 1 ≤ levelOf (items ++ [(level, n)]) items.length := by
    rw [levelOf_last]
    exact hlevel
  have hrise : levelOf (items ++ [(level, n)]) k < levelOf items k + 1 := by
    rw [levelOf_append hk]
    exact Nat.lt_succ_self _
  obtain ⟨m, hkm, hm, heq, hafter⟩ := h.exists_rise (Nat.le_of_lt hk) (by simp) hrise hlast
  rw [levelOf_append hm] at heq
  refine ⟨m, hkm, hm, Nat.succ.inj heq, fun p hp hmp ↦ ?_⟩
  have := hafter p hmp (Nat.le_of_lt hp)
  rw [levelOf_append hp] at this
  omega

theorem grown_last : grown (items ++ [(level, n)]) items.length = n := by
  have hnone : hanging (items ++ [(level, n)]) items.length = [] := by
    rw [List.eq_nil_iff_forall_not_mem]
    intro j hj
    obtain ⟨hlt, hij, -⟩ := mem_hanging.1 hj
    simp only [List.length_append, List.length_singleton] at hlt
    omega
  rw [grown_eq (by simp), hnone]
  simp

/-- What item `i` becomes when one more item is attached. -/
def regrown (items : List (Nat × Node)) (level : Nat) (n : Node) (i : Nat) : Node :=
  if OnEdge items i ∧ levelOf items i < level then
    (grown items i).withChildren
      (attach (level - (levelOf items i + 1)) n (grown items i).children)
  else grown items i

/-- Of items at one level, the last item is attached to the last of them. -/
theorem map_grown_append {ks : List Nat} {l : Nat}
    (hks : ∀ k ∈ ks, k < items.length ∧ levelOf items k = l ∧
      grown (items ++ [(level, n)]) k = regrown items level n k)
    (hsorted : ks.Pairwise (· < ·)) (hl : l ≤ level)
    (hedge : l < level → ∃ k ∈ ks, OnEdge items k) :
    (ks ++ if l = level then [items.length] else []).map (grown (items ++ [(level, n)]))
      = attach (level - l) n (ks.map (grown items)) := by
  rcases Nat.lt_or_eq_of_le hl with hlt | rfl
  · obtain ⟨k, hk, honEdge⟩ := hedge hlt
    obtain ⟨before, after, rfl⟩ := List.append_of_mem hk
    -- An item of the edge is the last of its level, and the ones before it are not on the edge.
    have hlater : after = [] := by
      rw [List.eq_nil_iff_forall_not_mem]
      intro p hp
      have hkp := List.rel_of_pairwise_cons (List.pairwise_append.1 hsorted).2.1 hp
      obtain ⟨hplt, hpl, -⟩ := hks p (by simp [hp])
      have := honEdge p hplt hkp
      rw [hpl, (hks k (by simp)).2.1] at this
      exact Nat.lt_irrefl l this
    subst hlater
    obtain ⟨hklt, hkl, hkgrown⟩ := hks k (by simp)
    have hbefore : before.map (grown (items ++ [(level, n)])) = before.map (grown items) := by
      refine List.map_congr_left fun p hp ↦ ?_
      obtain ⟨-, hpl, hpgrown⟩ := hks p (by simp [hp])
      have hpk := (List.pairwise_append.1 hsorted).2.2 p hp k (by simp)
      rw [hpgrown, regrown, if_neg]
      rintro ⟨hp, -⟩
      have := hp k hklt hpk
      rw [hpl, hkl] at this
      exact Nat.lt_irrefl l this
    obtain ⟨d, hd⟩ : ∃ d, level - l = d + 1 := ⟨level - l - 1, by omega⟩
    rw [if_neg (Nat.ne_of_lt hlt), List.append_nil, List.map_append, List.map_append, hbefore, hd,
      List.map_singleton, List.map_singleton, attach_succ, hkgrown, regrown,
      if_pos ⟨honEdge, hkl ▸ hlt⟩, hkl, show level - (l + 1) = d by omega]
  · have hmap : ks.map (grown (items ++ [(l, n)])) = ks.map (grown items) := by
      refine List.map_congr_left fun k hk ↦ ?_
      obtain ⟨-, hkl, hkgrown⟩ := hks k hk
      rw [hkgrown, regrown, if_neg (by omega)]
    rw [if_pos rfl, List.map_append, hmap, List.map_singleton, grown_last, Nat.sub_self, attach]

theorem attach_append {level : Nat} {bs : List Node} (h : level = 0 ∨ bs ≠ []) (n : Node)
    (as : List Node) : attach level n (as ++ bs) = as ++ attach level n bs := by
  cases level with
  | zero => rw [attach, attach, List.append_assoc]
  | succ level =>
    obtain ⟨before, last, rfl⟩ :=
      (List.eq_nil_or_concat' bs).resolve_left (h.resolve_left (Nat.succ_ne_zero level))
    rw [← List.append_assoc, attach_succ, attach_succ, List.append_assoc]

theorem sorted_hanging (items : List (Nat × Node)) (i : Nat) :
    (hanging items i).Pairwise (· < ·) :=
  List.pairwise_lt_range.filter _

/-- The right edge below an item of it goes on below that item. -/
theorem exists_onEdge_hanging (h : Steady (items ++ [(level, n)])) {i : Nat}
    (hi : i < items.length) (hedge : OnEdge items i) (hlevel : levelOf items i + 1 < level) :
    ∃ k ∈ hanging items i, OnEdge items k := by
  have hnext : i + 1 < items.length := by
    by_contra hge
    have := (h.step (i := i) (by simp only [List.length_append, List.length_singleton]; omega)).1
    rw [levelOf_append hi, show i + 1 = items.length by omega, levelOf_last] at this
    omega
  have hfirst : levelOf items (i + 1) = levelOf items i + 1 := by
    have hle := (h.of_append.step hnext).1
    have hlt := hedge (i + 1) hnext (Nat.lt_succ_self i)
    omega
  obtain ⟨m, him, hm, heq, hmedge⟩ := exists_onEdge h hnext (by omega)
  refine ⟨m, mem_hanging.2 ⟨hm, him, by omega, fun k hkm hik ↦ ?_⟩, hmedge⟩
  have := hedge k (Nat.lt_trans hkm hm) hik
  omega

/-- An item of the right edge takes a new item below it, and no other item changes. -/
theorem grown_append (h : Steady (items ++ [(level, n)])) {i : Nat} (hi : i < items.length) :
    grown (items ++ [(level, n)]) i = regrown items level n i := by
  -- What hangs under an item comes after it in the row.
  have ih : ∀ k ∈ hanging items i, grown (items ++ [(level, n)]) k = regrown items level n k :=
    fun k hk ↦ grown_append h (mem_hanging.1 hk).1
  have hi' : i < (items ++ [(level, n)]).length := by simp; omega
  rw [grown_eq hi', regrown, List.getElem_append_left hi, hanging_append h hi]
  by_cases hc : OnEdge items i ∧ levelOf items i < level
  · rw [if_pos hc]
    obtain ⟨hedge, hlevel⟩ := hc
    have hks : ∀ k ∈ hanging items i, k < items.length ∧ levelOf items k = levelOf items i + 1 ∧
        grown (items ++ [(level, n)]) k = regrown items level n k := fun k hk ↦
      ⟨(mem_hanging.1 hk).1, (mem_hanging.1 hk).2.2.1.symm, ih k hk⟩
    have hbelow : levelOf items i + 1 < level → ∃ k ∈ hanging items i, OnEdge items k :=
      exists_onEdge_hanging h hi hedge
    have hopen : items[i].2.isText = false := by
      have hn : levelOf (items ++ [(level, n)]) i < levelOf (items ++ [(level, n)]) (i + 1) := by
        rcases Nat.lt_or_ge (i + 1) items.length with hlt | hge
        · rw [levelOf_append hi, levelOf_append hlt]
          exact hedge (i + 1) hlt (Nat.lt_succ_self i)
        · rw [levelOf_append hi, show i + 1 = items.length by omega, levelOf_last]
          exact hlevel
      have := (h.step (i := i) (by simp; omega)).2 hn
      rwa [List.getElem_append_left hi] at this
    have hne : level - (levelOf items i + 1) = 0 ∨ (hanging items i).map (grown items) ≠ [] := by
      rcases Nat.lt_or_ge (levelOf items i + 1) level with hlt | hge
      · obtain ⟨k, hk, -⟩ := hbelow hlt
        exact .inr (List.ne_nil_of_mem (List.mem_map_of_mem hk))
      · exact .inl (by omega)
    simp only [hedge, true_and]
    rw [map_grown_append hks (sorted_hanging items i) hlevel hbelow, grown_eq hi,
      Node.withChildren_withChildren, Node.children_withChildren hopen, attach_append hne]
  · rw [if_neg hc]
    have hsame : (hanging items i).map (grown (items ++ [(level, n)]))
        = (hanging items i).map (grown items) := by
      refine List.map_congr_left fun k hk ↦ ?_
      obtain ⟨hklt, hu⟩ := mem_hanging.1 hk
      rw [ih k hk, regrown, if_neg]
      rintro ⟨hkedge, hklevel⟩
      exact hc ⟨hkedge.of_hangsUnder h.of_append hu hklt, by have := hu.2.1; omega⟩
    rw [if_neg (fun hu ↦ hc ⟨hu.1, by omega⟩), List.append_nil, hsame, grown_eq hi]
termination_by items.length - i
decreasing_by
  obtain ⟨hlt, hij, -⟩ := mem_hanging.1 hk
  omega

/-- One more item is attached at its level. -/
theorem hang_append (h : Steady (items ++ [(level, n)])) :
    hang (items ++ [(level, n)]) = attach level n (hang items) := by
  have htops : tops (items ++ [(level, n)])
      = tops items ++ if 0 = level then [items.length] else [] := by
    rw [tops, List.length_append, List.length_singleton, List.range_succ, List.filter_append, tops]
    congr 1
    · refine List.filter_congr fun i hi ↦ ?_
      rw [levelOf_append (List.mem_range.1 hi)]
    · rw [List.filter_singleton, levelOf_last]
      simp only [eq_comm, Bool.cond_decide]
  have hks : ∀ k ∈ tops items, k < items.length ∧ levelOf items k = 0 ∧
      grown (items ++ [(level, n)]) k = regrown items level n k := by
    intro k hk
    obtain ⟨hlt, hzero⟩ := List.mem_filter.1 hk
    exact ⟨List.mem_range.1 hlt, of_decide_eq_true hzero, grown_append h (List.mem_range.1 hlt)⟩
  have hedge : 0 < level → ∃ k ∈ tops items, OnEdge items k := by
    intro hlevel
    have hpos : 0 < items.length := by
      cases items with
      | nil => exact absurd (h.first (level, n) rfl) (by simp; omega)
      | cons => simp
    have hzero : levelOf items 0 = 0 := h.of_append.zero
    obtain ⟨m, -, hm, heq, hmedge⟩ := exists_onEdge h hpos (by rw [hzero]; exact hlevel)
    exact ⟨m, List.mem_filter.2 ⟨List.mem_range.2 hm, by simp [heq, hzero]⟩, hmedge⟩
  rw [hang, htops, map_grown_append hks (List.pairwise_lt_range.filter _) (Nat.zero_le _) hedge,
    Nat.sub_zero, hang]

end Append

/-! ## Reading order -/

theorem nest_append (items : List (Nat × Node)) (level : Nat) (n : Node) :
    nest (items ++ [(level, n)]) = attach level n (nest items) := by
  rw [nest, List.foldl_append]
  rfl

/-- The right edge always goes down to where the next item is attached. -/
theorem Steady.reaches {items : List (Nat × Node)} {level : Nat} {n : Node}
    (h : Steady (items ++ [(level, n)])) : Reaches level (nest items) := by
  induction items using List.reverseRecOn generalizing level n with
  | nil =>
    obtain rfl : level = 0 := h.first (level, n) rfl
    trivial
  | append_singleton items item ih =>
    obtain ⟨level', m⟩ := item
    obtain ⟨hle, htext⟩ : MayFollow (level', m) (level, n) :=
      (List.isChain_append.1 h.next).2.2 _ (by simp) _ (by simp)
    have hat := (ih h.of_append).attach (n := m)
    rw [nest_append]
    rcases Nat.lt_or_ge level' level with hlt | hge
    · obtain rfl : level = level' + 1 := Nat.le_antisymm hle hlt
      exact hat.2 (htext hlt)
    · exact hat.1.of_le hge

/-- In reading order the tree of a row lists what the items of the row list, one after the other. -/
theorem allPreorder_nest {items : List (Nat × Node)} (h : Steady items) :
    Node.allPreorder (nest items) = items.flatMap fun item ↦ item.2.preorder := by
  induction items using List.reverseRecOn with
  | nil => rfl
  | append_singleton items item ih =>
    obtain ⟨level, n⟩ := item
    rw [nest_append, allPreorder_attach n h.reaches, ih h.of_append, List.flatMap_append,
      List.flatMap_singleton]

/-- **Building works on the right edge only.**  The tree that is built item after item is the tree
that the levels say. -/
theorem nest_eq_hang {items : List (Nat × Node)} (h : Steady items) : nest items = hang items := by
  induction items using List.reverseRecOn with
  | nil => rfl
  | append_singleton items item ih =>
    obtain ⟨level, n⟩ := item
    rw [hang_append h, ← ih h.of_append, nest_append]

end Tree

end Shorthand.Markup
