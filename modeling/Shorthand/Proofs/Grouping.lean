import Shorthand.Proofs.Grafting
import Shorthand.Proofs.Offsets
import Shorthand.Proofs.Reading

/-!
# Parentheses around a whole abbreviation

An abbreviation in parentheses is a group that holds its tree.  The statements inside the
parentheses have their own top, so no climb gets out of them; the group is expanded to a group, and
its tree to the same tree; and unrolling dissolves the group without a trace.  Only the offsets have
moved, and they make no difference.  So the output is the same.

* `Node.Grafted.ne_nil`, `Snippet.Expands.ne_nil` : what was read never expands to nothing.
* `Copies.unroll_group` : a group around a tree leaves nothing behind.
* `Expansion.expand_parenthesized` : parentheses around an abbreviation change nothing.
-/

set_option autoImplicit false

namespace Shorthand

namespace Markup

/-! ## No tree vanishes -/

theorem Node.Hung.ne_nil {extra ns out : List Node} (h : Hung extra ns out) (hns : ns ≠ []) :
    out ≠ [] := by
  cases h with
  | beside => exact List.append_ne_nil_of_left_ne_nil hns extra
  | inside => simp

/-- A tree whose nodes all yield something is not put together to nothing. -/
theorem Node.Grafted.ne_nil {pieces : List (List Node)} {ns out : List Node}
    (h : Grafted pieces ns out) (hns : ns ≠ []) (hpieces : ∀ piece ∈ pieces, piece ≠ []) :
    out ≠ [] := by
  cases h with
  | nil => exact absurd rfl hns
  | cons _ hhung _ =>
    exact List.append_ne_nil_of_left_ne_nil (hhung.ne_nil (List.forall_mem_cons.1 hpieces).1) _

/-- What is read has a node. -/
theorem Tree.ne_nil_of_parse {s : String} {nodes : List Node} (h : Tree.parse s = .ok nodes) :
    nodes ≠ [] := by
  obtain ⟨tokens, htokens, h⟩ := bind_eq_ok_iff.1 (located_eq_ok_iff.1 h)
  obtain ⟨row, rfl, hfits, -, rfl⟩ := Tree.ofTokens_eq_ok_iff.1 h
  have hitem : ∀ item : Source.Item, item.heads ≠ [] := by
    intro item
    cases item <;> exact List.cons_ne_nil _ _
  have hheads : row.heads ≠ [] := by
    cases row with
    | last item => exact hitem item
    | more item => exact List.append_ne_nil_of_left_ne_nil (hitem item) _
  intro hnil
  rw [← Source.Row.allPreorder_tree hfits, hnil] at hheads
  exact hheads rfl

namespace Snippet

variable {table : Table String} {p q : Progress}

/-- Every node yields something. -/
theorem Yields.piece_ne_nil {ns : List Node} {pieces : List (List Node)}
    (h : Yields table p ns pieces q) : ∀ piece ∈ pieces, piece ≠ [] := by
  induction h with
  | nil => simp
  | keep _ _ ih => exact List.forall_mem_cons.2 ⟨List.cons_ne_nil _ _, ih⟩
  | @stand table p mid q e times key text parsed tops ns own pieces _ hparse _ htops _ ihown
      ihrest =>
    have hscoped : inScope p.scope parsed ≠ [] := by
      obtain ⟨n, ns, rfl⟩ := List.exists_cons_of_ne_nil (Tree.ne_nil_of_parse hparse)
      rw [inScope_eq, Node.rewriteAll]
      exact List.cons_ne_nil _ _
    have htops := htops.ne_nil hscoped ihown
    refine List.forall_mem_cons.2 ⟨?_, ihrest⟩
    rw [Node.mergeAll]
    exact mt List.map_eq_nil_iff.1 htops

theorem Expands.ne_nil {ns out : List Node} (h : Expands table p ns out q) (hns : ns ≠ []) :
    out ≠ [] := by
  obtain ⟨pieces, hyields, hgrafted⟩ := h
  exact hgrafted.ne_nil hns hyields.piece_ne_nil

end Snippet

/-! ## A group is dissolved -/

namespace Copies

variable {limit : Nat}

/-- Nothing can be unrolled if no copy is allowed. -/
theorem one_le_limit {height : Nat} {inherited : Option Multiplier} {nodes : List Node} {s : Supply}
    {r : List Node × Supply} (hne : nodes ≠ []) (hcounted : ∀ n ∈ nodes, Counted n.times)
    (h : unrollTo limit (height + 1) inherited 1 nodes s = .ok r) : 1 ≤ limit := by
  obtain ⟨n, ns, rfl⟩ := List.exists_cons_of_ne_nil hne
  rw [unrollTo_succ] at h
  obtain ⟨first, s₁, rest, hfirst, -, -⟩ := gather_cons_eq_ok_iff.1 h
  have hcount : 1 ≤ countOf n.times := by
    have hn := hcounted n List.mem_cons_self
    cases htimes : n.times with
    | none => exact Nat.le_refl 1
    | some m => exact hn m htimes
  rw [unrollNode] at hfirst
  split at hfirst
  · cases hfirst
  · next hlimit => omega

/-- **A group around a tree leaves nothing behind** when it is dissolved, if anything can be
unrolled; offsets do not matter. -/
theorem unroll_group {abbreviation abbreviation' : String} {tree ms out : List Node}
    (hlike : Node.AllLike .same tree ms) (hlimit : 1 ≤ limit) (offset : Nat)
    (h : unroll limit abbreviation tree = .ok out) :
    ∃ out', unroll limit abbreviation' [.group ms none offset] = .ok out' ∧
      Node.allUnplaced out' = Node.allUnplaced out := by
  have heq := Node.allUnplaced_eq_of_same hlike
  obtain ⟨s, hrun⟩ := unroll_eq_ok_iff.1 h
  have hheights : Node.heights [.group ms none offset] = Node.heights tree + 1 := by
    rw [Node.heights, Node.height, ← hlike.heights_eq]
    exact Nat.max_eq_left (Nat.zero_le _)
  have hsupply : supplyFor [.group ms none offset] = supplyFor tree := by
    rw [← supplyFor_allUnplaced tree, heq, supplyFor_allUnplaced]
    simp [supplyFor, scopes, Snippet.supplyFor, Node.allValues, Node.values, Node.allLinks,
      Node.links]
  have hrunms : unplacedResult (unrollTo limit (Node.heights tree + 1) none 1 ms (supplyFor tree))
      = unplacedResult (.ok (out, s)) := by
    rw [← unrollTo_unplaced, ← heq, unrollTo_unplaced, hrun]
  cases hms : unrollTo limit (Node.heights tree + 1) none 1 ms (supplyFor tree) with
  | error e =>
    rw [hms] at hrunms
    cases hrunms
  | ok r =>
    rw [hms] at hrunms
    refine ⟨r.1, unroll_eq_ok_iff.2 ⟨r.2, ?_⟩, (Prod.mk.inj (Except.ok.inj hrunms)).1⟩
    rw [hheights, hsupply, unrollTo_succ, gather_singleton, unrollNode_group hlimit, hms]

end Copies

end Markup

namespace Expansion

open Markup

/-- An abbreviation in parentheses expands to a group with the tree that it expands to by itself. -/
theorem exists_parenthesized {table : Table String} {s : String} {raw tree : List Node}
    (hparse : Tree.parse s = .ok raw) (hlast : s.toList.getLast? ≠ some '\\')
    (htree : Snippet.expandAll table raw = .ok tree) :
    ∃ raw' ms offset, Tree.parse ("(" ++ s ++ ")") = .ok raw' ∧
      Snippet.expandAll table raw' = .ok [.group ms none offset] ∧ Node.AllLike .same tree ms := by
  have hraw := Tree.typed_of_parse hparse
  obtain ⟨p, hrun⟩ := (Snippet.expandAll_eq_ok_iff hraw).1 htree
  obtain ⟨groups, hgroups, hlength, hall⟩ := Tree.parse_copied hparse hlast (Nat.le_refl 1)
  obtain ⟨g, rfl⟩ := List.length_eq_one_iff.1 hlength
  obtain ⟨ns, offset, rfl, hlike⟩ := hall g (List.mem_singleton_self g)
  have hcopied : Tree.copied s 1 = "(" ++ s ++ ")" := by
    simp [Tree.copied]
  rw [hcopied] at hgroups
  have htyped := Tree.typed_of_parse hgroups
  have hns : Node.AllTyped ns := by
    cases htyped with
    | cons hn _ =>
      cases hn with
      | group _ _ hns => exact hns
  obtain ⟨ms, q, h, -, -, hms⟩ := Snippet.expandNode_group (d := 0) (k := 0) hraw hns hlike
    Nat.one_pos rfl rfl ⟨rfl, rfl⟩ hrun none offset
  refine ⟨_, ms, offset, hgroups, (Snippet.expandAll_eq_ok_iff htyped).2 ⟨q, ?_⟩,
    hms.same_of_shifted⟩
  exact bind_eq_ok_iff.2 ⟨_, h, rfl⟩

/-- **Parentheses around an abbreviation change nothing**: its output is that of the abbreviation,
if that has one.  (A backslash at the end of the abbreviation would escape the parenthesis.) -/
theorem expand_parenthesized {c : Config} (hc : c.grammar = .markup) {s out : String}
    (hlast : s.toList.getLast? ≠ some '\\') (h : expand c s = .ok out) :
    expand c ("(" ++ s ++ ")") = .ok out := by
  rw [expand, segments, hc] at h ⊢
  obtain ⟨written, hwritten, rfl⟩ := map_eq_ok_iff.1 h
  obtain ⟨numbered, hmarkup, hwrite⟩ := bind_eq_ok_iff.1 hwritten
  obtain ⟨raw, hparse, h⟩ := bind_eq_ok_iff.1 hmarkup
  obtain ⟨tree, htree, h⟩ := bind_eq_ok_iff.1 h
  obtain ⟨unrolled, hunroll, hnumber⟩ := bind_eq_ok_iff.1 h
  obtain ⟨raw', ms, offset, hparse', htree', hlike⟩ := exists_parenthesized hparse hlast htree
  have hlimit : 1 ≤ c.maxRepeat := by
    obtain ⟨q, hrun⟩ := (Snippet.expandAll_eq_ok_iff (Tree.typed_of_parse hparse)).1 htree
    have hexpands := (Snippet.expandTo_eq_ok_iff (Nat.lt_succ_self _)).1 hrun
    have hregular := (gives_of_typed (Tree.typed_of_parse hparse) hrun).instances.regular
    obtain ⟨_, hrun⟩ := Copies.unroll_eq_ok_iff.1 hunroll
    refine Copies.one_le_limit (hexpands.ne_nil (Tree.ne_nil_of_parse hparse)) (fun n hn ↦ ?_) hrun
    cases hregular.of_mem n hn with
    | element _ ht | text _ _ ht | group _ ht => exact ht
  obtain ⟨unrolled', hunroll', heq⟩ := Copies.unroll_group hlike hlimit offset hunroll
  -- Without offsets both trees are the same, so what is numbered and written is the same, too.
  have hnumbers := Numbering.number_unplaced (Node.nameAll none unrolled')
  rw [← Node.nameAll_allUnplaced, heq, Node.nameAll_allUnplaced, Numbering.number_unplaced, hnumber]
    at hnumbers
  obtain ⟨numbered', hnumber', hnumbers⟩ := map_eq_ok_iff.1 hnumbers.symm
  have hwrite' : Html.write c.htmlStyle numbered' = .ok written := by
    rw [← Html.write_unplaced, hnumbers, Html.write_unplaced, hwrite]
  have hmarkup' : markupTree c ("(" ++ s ++ ")") = .ok numbered' :=
    bind_eq_ok_iff.2 ⟨_, hparse', bind_eq_ok_iff.2 ⟨_, htree',
      bind_eq_ok_iff.2 ⟨_, hunroll', hnumber'⟩⟩⟩
  exact map_eq_ok_iff.2 ⟨_, bind_eq_ok_iff.2 ⟨_, hmarkup', hwrite'⟩, rfl⟩

/-- A configuration that writes tab stops as their numbers, with a snippet whose tree ends in a
group. -/
def nestedConfig : Config where
  formatters := { field := fun number _ ↦ "<" ++ toString number ++ ">" }
  markupSnippets := [("x", "li[k]>p+(b>\x7b$\x7b1:y\x7d\x7d)")]

/-- Snippets, copies with numbers, climbs and elements without names are the same in parentheses. -/
theorem expand_parenthesized_nested :
    nestedConfig.grammar = .markup ∧ "ul>x.a$*2>\x7bt\x7d^.b+em".toList.getLast? ≠ some '\\' ∧
      expand nestedConfig "ul>x.a$*2>\x7bt\x7d^.b+em" = .ok ("<ul>\n\t<li class=\"a1\" k=\"<1>\">"
        ++ "\n\t\t<p><2></p>\n\t\t<b><3>t</b>\n\t</li>\n\t<li class=\"a2\" k=\"<4>\">"
        ++ "\n\t\t<p><5></p>\n\t\t<b><6>t</b>\n\t</li>\n\t<li class=\"b\"><7></li>"
        ++ "\n\t<em><8></em>\n</ul>") ∧
      expand nestedConfig ("(" ++ "ul>x.a$*2>\x7bt\x7d^.b+em" ++ ")")
        = .ok ("<ul>\n\t<li class=\"a1\" k=\"<1>\">"
        ++ "\n\t\t<p><2></p>\n\t\t<b><3>t</b>\n\t</li>\n\t<li class=\"a2\" k=\"<4>\">"
        ++ "\n\t\t<p><5></p>\n\t\t<b><6>t</b>\n\t</li>\n\t<li class=\"b\"><7></li>"
        ++ "\n\t<em><8></em>\n</ul>") := by
  have hout : expand nestedConfig "ul>x.a$*2>\x7bt\x7d^.b+em"
      = .ok ("<ul>\n\t<li class=\"a1\" k=\"<1>\">"
        ++ "\n\t\t<p><2></p>\n\t\t<b><3>t</b>\n\t</li>\n\t<li class=\"a2\" k=\"<4>\">"
        ++ "\n\t\t<p><5></p>\n\t\t<b><6>t</b>\n\t</li>\n\t<li class=\"b\"><7></li>"
        ++ "\n\t<em><8></em>\n</ul>") := by
    decide +kernel
  have hlast : "ul>x.a$*2>\x7bt\x7d^.b+em".toList.getLast? ≠ some '\\' := by decide
  exact ⟨rfl, hlast, hout, expand_parenthesized rfl hlast hout⟩

end Expansion

end Shorthand
