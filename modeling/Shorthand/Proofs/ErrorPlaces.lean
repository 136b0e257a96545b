import Shorthand.Proofs.Expanding
import Shorthand.Proofs.Operators
import Shorthand.Proofs.Refusing

/-!
# Where errors are said to be

A refusal names a text and a place.  The text is always the abbreviation or the text of a snippet
that a chain of snippets leads to, and the place is always in one of these texts; but it need not be
in the text that is named.  Too many copies are blamed on the abbreviation, at the place that the
node remembers.  An element at the top of a snippet has forgotten its place there and remembers that
of the element which names the snippet; a text, a group and everything below still remembers its
place in the snippet's text, and that may lie behind the end of the abbreviation.

* `Node.AllPlaced` : what all places of a tree have in common.
* `Snippet.placed_of_expandTo` : the places of an expanded tree are those of the trees of the texts.
* `Expansion.error_place_iff` : when the place of a refusal is in the text that is named.
-/

set_option autoImplicit false

namespace Shorthand

namespace Markup

/-! ## Places of a tree -/

namespace Node

mutual

/-- A node and all nodes below it have places with a property. -/
def Placed (p : Nat → Prop) : Node → Prop
  | .element e _ children => p e.offset ∧ AllPlaced p children
  | .text _ _ offset => p offset
  | .group children _ offset => p offset ∧ AllPlaced p children

/-- All nodes of a tree have places with a property. -/
def AllPlaced (p : Nat → Prop) : List Node → Prop
  | [] => True
  | n :: ns => n.Placed p ∧ AllPlaced p ns

end

variable {p q : Nat → Prop}

mutual

theorem Placed.demands : ∀ {n : Node}, n.Placed p → ∀ total, ∀ d ∈ n.demands total, p d.1
  | .element _ _ _, ⟨h, hc⟩, _ => List.forall_mem_cons.2 ⟨h, AllPlaced.demands hc _⟩
  | .text _ _ _, h, _ => List.forall_mem_singleton.2 h
  | .group _ _ _, ⟨h, hc⟩, _ => List.forall_mem_cons.2 ⟨h, AllPlaced.demands hc _⟩

theorem AllPlaced.demands : ∀ {ns : List Node}, AllPlaced p ns → ∀ total,
    ∀ d ∈ allDemands total ns, p d.1
  | [], _, _ => by simp [allDemands]
  | _ :: _, ⟨hn, hns⟩, total => List.forall_mem_append.2 ⟨hn.demands total, hns.demands total⟩

end

mutual

theorem placed_of_preorder : ∀ {n : Node}, (∀ m ∈ n.preorder, p m.offset) → n.Placed p
  | .element _ _ _, h =>
    have h := List.forall_mem_cons.1 h
    ⟨h.1, allPlaced_of_preorder h.2⟩
  | .text _ _ _, h => h _ List.mem_cons_self
  | .group _ _ _, h =>
    have h := List.forall_mem_cons.1 h
    ⟨h.1, allPlaced_of_preorder h.2⟩

theorem allPlaced_of_preorder : ∀ {ns : List Node}, (∀ m ∈ allPreorder ns, p m.offset) →
    AllPlaced p ns
  | [], _ => trivial
  | _ :: _, h =>
    have h := List.forall_mem_append.1 h
    ⟨placed_of_preorder h.1, allPlaced_of_preorder h.2⟩

end

mutual

theorem Placed.mono (h : ∀ place, p place → q place) : ∀ {n : Node}, n.Placed p → n.Placed q
  | .element _ _ _, ⟨hn, hc⟩ => ⟨h _ hn, AllPlaced.mono h hc⟩
  | .text _ _ _, hn => h _ hn
  | .group _ _ _, ⟨hn, hc⟩ => ⟨h _ hn, AllPlaced.mono h hc⟩

theorem AllPlaced.mono (h : ∀ place, p place → q place) : ∀ {ns : List Node},
    AllPlaced p ns → AllPlaced q ns
  | [], _ => trivial
  | _ :: _, ⟨hn, hns⟩ => ⟨hn.mono h, hns.mono h⟩

end

theorem allPlaced_append {ns ms : List Node} :
    AllPlaced p (ns ++ ms) ↔ AllPlaced p ns ∧ AllPlaced p ms := by
  induction ns with
  | nil => simp [AllPlaced]
  | cons n ns ih => rw [List.cons_append, AllPlaced, AllPlaced, ih, and_assoc]

section Visit

variable {σ : Type} {v : Option Multiplier → Visitor σ}

mutual

theorem Placed.visit : ∀ {n : Node}, n.Placed p → ∀ s : σ, (n.visit v s).1.Placed p
  | .element _ _ _, ⟨h, hc⟩, _ => ⟨h, AllPlaced.visitAll hc _⟩
  | .text _ _ _, h, _ => h
  | .group _ _ _, ⟨h, hc⟩, _ => ⟨h, AllPlaced.visitAll hc _⟩

/-- A visit leaves all places alone. -/
theorem AllPlaced.visitAll : ∀ {ns : List Node}, AllPlaced p ns → ∀ s : σ,
    AllPlaced p (visitAll v ns s).1
  | [], _, _ => trivial
  | _ :: _, ⟨hn, hns⟩, s => ⟨hn.visit s, hns.visitAll _⟩

end

end Visit

theorem AllPlaced.settle {ns : List Node} (h : AllPlaced p ns) (shown : Shown) :
    AllPlaced p (settle shown ns) := by
  unfold Node.settle
  split
  · exact h
  · exact h.visitAll ()

theorem AllPlaced.nodewise : Nodewise (AllPlaced p) where
  append := allPlaced_append
  children {n} h := by
    cases n with
    | element | group => exact h.1.2
    | text => trivial
  withChildren {n ns} hn hns := by
    cases n with
    | element | group => exact ⟨⟨hn.1.1, hns⟩, trivial⟩
    | text => exact hn

theorem Placed.mergeTyped {typed : Element} {times : Option Multiplier} (h : p typed.offset) :
    ∀ {n : Node}, n.Placed p → (n.mergeTyped typed times).Placed p
  | .element _ _ _, ⟨_, hc⟩ => ⟨h, hc⟩
  | .text _ _ _, hn => hn
  | .group _ _ _, hn => hn

/-- The top elements of a snippet have the place of the element that names it. -/
theorem AllPlaced.mergeAll {typed : Element} {times : Option Multiplier} {tops : List Node}
    {progress : Progress} (htyped : p typed.offset) (htops : AllPlaced p tops) :
    AllPlaced p (mergeAll typed times tops progress).1 := by
  have hoffset : ((typed.current progress.shown).shared tops progress.toSupply).1.offset
      = typed.offset := by
    unfold Element.shared
    split <;> rfl
  rw [Node.mergeAll]
  generalize (typed.current progress.shown).shared tops progress.toSupply = shared at hoffset
  rw [← hoffset] at htyped
  dsimp only
  clear hoffset
  induction tops with
  | nil => trivial
  | cons n ns ih => exact ⟨Placed.mergeTyped htyped htops.1, ih htops.2⟩

end Node

namespace Snippet

section Expanding

variable {p : Nat → Prop} {snippet : Expander} {table : Table String}

/-- What the snippet of a name gives out has places with a property. -/
def Places (p : Nat → Prop) (snippet : Expander) (table : Table String) (name : Option String) :
    Prop :=
  ∀ key text progress r, find? table { name } = some (key, text) →
    snippet key text progress = .ok r → Node.AllPlaced p r.1

theorem placed_of_expandNodes {ns : List Node} {progress : Progress} {r : List Node × Progress}
    (hnames : ∀ name ∈ Node.allNames ns, Places p snippet table name) (hns : Node.AllPlaced p ns)
    (hr : expandNodes snippet table ns progress = .ok r) : Node.AllPlaced p r.1 := by
  have hlasting : Lasting (Node.AllPlaced p) fun _ ↦ True :=
    ⟨Node.AllPlaced.nodewise, fun he htops _ ↦ ⟨.mergeAll he.1.1 htops, trivial⟩⟩
  refine (hlasting.expandNodes (fun name hname key text progress r hfind _ hr ↦ ?_) hns trivial
    hr).1
  exact ⟨hnames name hname key text progress r hfind hr, trivial⟩

end Expanding

/-- The items of an abbreviation begin in it. -/
theorem placed_of_parse {s : String} {nodes : List Node} (h : Tree.parse s = .ok nodes) :
    Node.AllPlaced (· < s.length) nodes := by
  obtain ⟨tokens, htokens, h⟩ := bind_eq_ok_iff.1 (located_eq_ok_iff.1 h)
  obtain ⟨row, rfl, hfits, -, rfl⟩ := Tree.ofTokens_eq_ok_iff.1 h
  refine Node.allPlaced_of_preorder fun n hn ↦ ?_
  have hstart : n.offset ∈ Token.starts true row.tokens := by
    rw [← Source.Row.starts_tree hfits]
    exact List.mem_map_of_mem hn
  obtain ⟨t, ht, hoffset⟩ := List.mem_map.1 ((Token.sublist_starts true _).subset hstart)
  rw [← hoffset]
  exact Token.lt_of_ofText htokens ht

/-- **The places of an expanded tree** are places of the texts that are read for it. -/
theorem placed_of_expandTo {p : Nat → Prop} {depth : Nat} {table : Table String}
    {nodes : List Node} {progress : Progress} {r : List Node × Progress}
    (hnodes : Node.AllPlaced p nodes)
    (h : ∀ name ∈ Node.allNames nodes, ∀ key text, find? table { name } = some (key, text) →
      ∀ t, Reaches (table.remove key) text t → ∀ place < t.length, p place)
    (hr : expandTo depth table nodes progress = .ok r) : Node.AllPlaced p r.1 := by
  induction depth generalizing table nodes progress r with
  | zero =>
    cases hr
    exact hnodes
  | succ depth ih =>
    refine placed_of_expandNodes (fun name hname ↦ ?_) hnodes hr
    intro key text progress r hfind hr
    obtain ⟨parsed, hparsed, hr⟩ := bind_eq_ok_iff.1 hr
    -- Places in the text of the snippet are allowed, and those in the texts that it leads to.
    have htext := h name hname key text hfind
    refine ih ?_ (fun name' hname' key' text' hfind' t hreaches ↦ ?_) hr
    · refine ((placed_of_parse hparsed).mono fun place hplace ↦ ?_).visitAll ()
      exact htext text (.here _ _) place hplace
    · rw [inScope_eq, Node.allNames_rewriteAll fun _ _ ↦ rfl] at hname'
      exact htext t (.through hparsed hname' hfind' hreaches)

end Snippet

end Markup

namespace Expansion

open Markup

/-- The places of an expanded tree are in the texts that were read. -/
theorem placed_of_expanded {c : Config} {s : String} {tree : List Node}
    (h : expanded c s = .ok tree) : Node.AllPlaced
      (fun place ↦ ∃ t, Snippet.Reaches c.markupSnippets s t ∧ place < t.length) tree := by
  obtain ⟨nodes, hparse, h⟩ := bind_eq_ok_iff.1 h
  obtain ⟨r, hr, rfl⟩ := map_eq_ok_iff.1 h
  refine (Snippet.placed_of_expandTo ?_ ?_ hr).settle r.2.shown
  · exact (Snippet.placed_of_parse hparse).mono fun place hplace ↦ ⟨s, .here _ _, hplace⟩
  · intro name hname key text hfind t hreaches place hplace
    exact ⟨t, .through hparse hname hfind hreaches, hplace⟩

/-- **Where errors are said to be.**  A refusal names the abbreviation or the text of a snippet that
a chain of snippets leads to.  Its place is in that text, or else it blames the abbreviation for too
many copies at a place in another of these texts.  So all refusals of an abbreviation have their
places in the texts that they name exactly if the first node with too many copies, if there is one,
remembers a place in the abbreviation. -/
theorem error_place_iff (c : Config) (s : String) :
    (∀ e, markupTree c s = .error (.malformed e) →
      Snippet.Reaches c.markupSnippets s e.abbreviation ∧
        (e.offset ≤ e.abbreviation.length ∨
          e.cause = .tooManyCopies ∧ e.abbreviation = s ∧
            ∃ t, Snippet.Reaches c.markupSnippets s t ∧ e.offset < t.length)) ∧
      ((∀ e, markupTree c s = .error (.malformed e) →
        Snippet.Reaches c.markupSnippets s e.abbreviation ∧ e.offset ≤ e.abbreviation.length) ↔
        ∀ tree place count, expanded c s = .ok tree →
          Copies.tooMany? c.maxRepeat (Node.allDemands 1 tree) = some (place, count) →
          place ≤ s.length) := by
  have hrefusal : ∀ e, (Snippet.textsRead c.markupSnippets s).findSome? Snippet.refusal?
      = some (.malformed e) →
      Snippet.Reaches c.markupSnippets s e.abbreviation ∧ e.offset ≤ e.abbreviation.length := by
    intro e h
    obtain ⟨t, ht, hrefusal⟩ := List.exists_of_findSome?_eq_some h
    obtain ⟨rfl, hoffset⟩ := Tree.offset_le_of_parse (failure?_eq_some_iff.1 hrefusal)
    exact ⟨Snippet.mem_textsRead_iff.1 ht, hoffset⟩
  constructor
  · intro e h
    rcases markupTree_eq_error_iff.1 h with h | ⟨tree, d, htree, hd, hfailure⟩
    · exact ⟨(hrefusal e h).1, .inl (hrefusal e h).2⟩
    · cases hfailure
      have hplaced := (placed_of_expanded htree).demands 1 d (List.mem_of_find?_eq_some hd)
      exact ⟨.here _ _, .inr ⟨rfl, rfl, hplaced⟩⟩
  · constructor
    · intro h tree place count htree hd
      exact (h _ (markupTree_eq_error_iff.2 (.inr ⟨tree, _, htree, hd, rfl⟩))).2
    · intro h e he
      rcases markupTree_eq_error_iff.1 he with he | ⟨tree, d, htree, hd, hfailure⟩
      · exact hrefusal e he
      · cases hfailure
        exact ⟨.here _ _, h tree d.1 d.2 htree hd⟩

/-- A configuration in which `x` stands for an element and a group with many copies. -/
def manyConfig : Config := { markupSnippets := [("x", "aaaa+(b)*2000")] }

/-- **The group of a snippet remembers its place there,** which lies behind the end of the
abbreviation that is blamed. -/
theorem place_behind_end :
    markupTree manyConfig "x" = .error (.malformed ⟨.tooManyCopies, 5, "x"⟩) ∧
      ¬ 5 ≤ "x".length := by
  refine ⟨?_, by decide⟩
  decide +kernel

end Expansion

end Shorthand
