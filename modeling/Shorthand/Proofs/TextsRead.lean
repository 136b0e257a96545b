import Shorthand.Proofs.Instances

/-!
# The texts that expansion reads

To expand an abbreviation, its own text is read, and for every element that names a snippet the text
of that snippet, in reading order and to any depth; only inside a snippet its own key names nothing.
Nothing else about expansion can fail.  So it fails exactly as the first of these texts that cannot
be read.

* `Snippet.textsRead` : the texts, in the order in which they are read.
* `Snippet.mem_textsRead_iff` : a text is among them if a chain of snippets leads to it.
* `Snippet.failure_expanded` : expansion fails as the first of them that cannot be read.
-/

set_option autoImplicit false

namespace Shorthand.Markup

/-! ## The names of elements -/

namespace Node

mutual

/-- The names of a node and of the nodes below it, in reading order; an element may have none. -/
def names : Node → List (Option String)
  | .element e _ children => e.name :: allNames children
  | .text _ _ _ => []
  | .group children _ _ => allNames children

/-- The names of the elements of a tree, in reading order. -/
def allNames : List Node → List (Option String)
  | [] => []
  | n :: ns => n.names ++ allNames ns

end

variable {m : Option Multiplier → Mapper}

mutual

theorem names_rewrite (hm : ∀ times s, (m times).name s = s) :
    ∀ n : Node, (n.rewrite m).names = n.names
  | .element e times children => by
    have hname : (e.rewrite (m times)).name = e.name := by
      cases hn : e.name <;> simp [Element.rewrite, hn, hm]
    rw [Node.rewrite, names, names, hname, allNames_rewriteAll hm children]
  | .text _ _ _ => rfl
  | .group children _ _ => allNames_rewriteAll hm children

/-- To rewrite a tree without its names leaves the names. -/
theorem allNames_rewriteAll (hm : ∀ times s, (m times).name s = s) :
    ∀ ns : List Node, allNames (rewriteAll m ns) = allNames ns
  | [] => rfl
  | n :: ns => congrArg₂ (· ++ ·) (names_rewrite hm n) (allNames_rewriteAll hm ns)

end

end Node

namespace Snippet

/-! ## The texts -/

/-- The texts that are read for the snippets of a tree, to a depth that bounds the number of
keys. -/
def textsBelow : Nat → Table String → List Node → List String
  | 0, _, _ => []
  | depth + 1, table, nodes =>
    (Node.allNames nodes).flatMap fun name ↦
      match find? table { name } with
      | none => []
      | some (key, text) =>
        text ::
          match Tree.parse text with
          | .error _ => []
          | .ok parsed => textsBelow depth (table.remove key) parsed

/-- The texts that are read for an abbreviation, in the order in which they are read: the
abbreviation itself and the texts of snippets. -/
def textsRead (table : Table String) (abbreviation : String) : List String :=
  abbreviation ::
    match Tree.parse abbreviation with
    | .error _ => []
    | .ok nodes => textsBelow (table.length + 1) table nodes

/-- A chain of snippets leads from an abbreviation to a text. -/
inductive Reaches : Table String → String → String → Prop where
  | here (table : Table String) (s : String) : Reaches table s s
  | through {table : Table String} {s key text t : String} {nodes : List Node}
      {name : Option String} (hparse : Tree.parse s = .ok nodes)
      (hname : name ∈ Node.allNames nodes)
      (hfind : find? table { name } = some (key, text)) (h : Reaches (table.remove key) text t) :
      Reaches table s t

/-- Without the key of one of its snippets a table is shorter. -/
theorem length_remove_lt {table : Table String} {e : Element} {key text : String}
    (h : find? table e = some (key, text)) : (table.remove key).length < table.length := by
  have hget : table.get? key = some text := by
    unfold find? at h
    split at h
    · cases h
    · split at h
      · cases h
      · obtain ⟨t, ht, heq⟩ := Option.map_eq_some_iff.1 h
        cases heq
        exact ht
  obtain ⟨before, after, htable, -⟩ := List.lookup_eq_some_iff.1 hget
  exact List.length_filter_lt_length_iff_exists.2 ⟨(key, text), by simp [htable], by simp⟩

/-- A text is read for a tree if a chain of snippets leads to it from the tree. -/
theorem mem_textsBelow_iff {depth : Nat} {table : Table String} (hdepth : table.length < depth)
    {nodes : List Node} {t : String} :
    t ∈ textsBelow depth table nodes ↔
      ∃ name ∈ Node.allNames nodes, ∃ key text, find? table { name } = some (key, text) ∧
        Reaches (table.remove key) text t := by
  induction depth generalizing table nodes with
  | zero => exact absurd hdepth (Nat.not_lt_zero _)
  | succ depth ih =>
    rw [textsBelow, List.mem_flatMap]
    refine exists_congr fun name ↦ and_congr_right fun _ ↦ ?_
    cases hfind : find? table { name } with
    | none => simp
    | some found =>
      obtain ⟨key, text⟩ := found
      have hlt : (table.remove key).length < depth :=
        Nat.lt_of_lt_of_le (length_remove_lt hfind) (Nat.le_of_lt_succ hdepth)
      simp only [Option.some.injEq, Prod.mk.injEq, List.mem_cons]
      constructor
      · rintro (rfl | ht)
        · exact ⟨key, t, ⟨rfl, rfl⟩, .here _ _⟩
        · split at ht
          · cases ht
          next parsed hparse =>
            obtain ⟨name, hname, key', text', hfind', hreaches⟩ := (ih hlt).1 ht
            exact ⟨key, text, ⟨rfl, rfl⟩, .through hparse hname hfind' hreaches⟩
      · rintro ⟨_, _, ⟨rfl, rfl⟩, hreaches⟩
        cases hreaches with
        | here => exact .inl rfl
        | through hparse hname hfind' hreaches =>
          rw [hparse]
          exact .inr ((ih hlt).2 ⟨_, hname, _, _, hfind', hreaches⟩)

/-- A text is read for an abbreviation if a chain of snippets leads to it. -/
theorem mem_textsRead_iff {table : Table String} {s t : String} :
    t ∈ textsRead table s ↔ Reaches table s t := by
  rw [textsRead, List.mem_cons]
  constructor
  · rintro (rfl | ht)
    · exact .here _ _
    · split at ht
      · cases ht
      next nodes hparse =>
        obtain ⟨name, hname, key, text, hfind, hreaches⟩ :=
          (mem_textsBelow_iff (Nat.lt_succ_self _)).1 ht
        exact .through hparse hname hfind hreaches
  · intro h
    cases h with
    | here => exact .inl rfl
    | through hparse hname hfind hreaches =>
      rw [hparse]
      exact .inr ((mem_textsBelow_iff (Nat.lt_succ_self _)).2 ⟨_, hname, _, _, hfind, hreaches⟩)

/-! ## Which of them fails -/

/-- How a text cannot be read, if it cannot. -/
def refusal? (text : String) : Option Failure := failure? (Tree.parse text)

section Expanding

variable {snippet : Expander} {table : Table String} {blame : String → String → Option Failure}

/-- What is to blame for the snippet of an element, if anything. -/
def blameFor (table : Table String) (blame : String → String → Option Failure)
    (name : Option String) : Option Failure :=
  (find? table { name }).bind fun found ↦ blame found.1 found.2

mutual

theorem failure_expandNode (h : ∀ key text p, failure? (snippet key text p) = blame key text) :
    ∀ (n : Node) (p : Progress),
      failure? (expandNode snippet table n p) = n.names.findSome? (blameFor table blame)
  | .text _ _ _, _ => rfl
  | .group children _ _, p =>
    (failure?_bind_of_ok fun _ _ ↦ rfl).trans (failure_expandNodes h children p)
  | .element e times children, p => by
    have hfind : find? table e = find? table { name := e.name } := rfl
    have hbelow := fun p ↦ failure_expandNodes h children p
    rw [expandNode, hfind, Node.names, List.findSome?_cons, blameFor]
    cases find? table { name := e.name } with
    | none => exact (failure?_bind_of_ok fun _ _ ↦ rfl).trans (hbelow p)
    | some found =>
      obtain ⟨key, text⟩ := found
      refine (failure?_bind fun r _ ↦ (failure?_bind_of_ok fun _ _ ↦ rfl).trans (hbelow _)).trans ?_
      rw [h, Option.bind_some]
      cases blame key text <;> rfl

theorem failure_expandNodes (h : ∀ key text p, failure? (snippet key text p) = blame key text) :
    ∀ (ns : List Node) (p : Progress),
      failure? (expandNodes snippet table ns p)
        = (Node.allNames ns).findSome? (blameFor table blame)
  | [], _ => rfl
  | n :: ns, p => by
    rw [Node.allNames, List.findSome?_append, ← failure_expandNode h n p]
    exact failure?_bind fun r _ ↦
      (failure?_bind_of_ok fun _ _ ↦ rfl).trans (failure_expandNodes h ns r.2)

end

end Expanding

theorem findSome?_flatMap {α β γ : Type} (f : α → List β) (g : β → Option γ) (as : List α) :
    (as.flatMap f).findSome? g = as.findSome? fun a ↦ (f a).findSome? g := by
  induction as with
  | nil => rfl
  | cons a as ih =>
    rw [List.flatMap_cons, List.findSome?_append, ih, List.findSome?_cons]
    cases (f a).findSome? g <;> rfl

/-- To mark the fields of a tree changes nothing about which texts are read for it. -/
theorem textsBelow_inScope (depth : Nat) (table : Table String) (scope : Nat) (nodes : List Node) :
    textsBelow depth table (inScope scope nodes) = textsBelow depth table nodes := by
  cases depth with
  | zero => rfl
  | succ depth =>
    rw [textsBelow, textsBelow, inScope_eq, Node.allNames_rewriteAll fun _ _ ↦ rfl]

/-- Expansion to a depth fails as the first of the texts read for the tree that cannot be read. -/
theorem failure_expandTo (depth : Nat) (table : Table String) (nodes : List Node) (p : Progress) :
    failure? (expandTo depth table nodes p)
      = (textsBelow depth table nodes).findSome? refusal? := by
  induction depth generalizing table nodes p with
  | zero => rfl
  | succ depth ih =>
    -- A snippet fails at its own text, or at the first that is read for the tree of that text.
    have hsnippet : ∀ key text p, failure? (expander depth table key text p)
        = (text :: match Tree.parse text with
          | .error _ => []
          | .ok parsed => textsBelow depth (table.remove key) parsed).findSome? refusal? := by
      intro key text p
      rw [expander, List.findSome?_cons, refusal?]
      cases Tree.parse text with
      | error e => rfl
      | ok parsed => exact (ih _ _ _).trans (by rw [textsBelow_inScope]; rfl)
    rw [expandTo_succ, failure_expandNodes hsnippet, textsBelow, findSome?_flatMap]
    refine congrArg (fun f ↦ (Node.allNames nodes).findSome? f) (funext fun name ↦ ?_)
    rw [blameFor]
    cases find? table { name } <;> rfl

/-- **Expansion fails as the first text that cannot be read.** -/
theorem failure_expanded (table : Table String) (s : String) :
    failure? (Tree.parse s >>= expandAll table) = (textsRead table s).findSome? refusal? := by
  rw [textsRead, List.findSome?_cons, refusal?]
  cases Tree.parse s with
  | error e => rfl
  | ok nodes => exact failure?_map.trans (failure_expandTo _ _ _ _)

end Snippet

end Shorthand.Markup
