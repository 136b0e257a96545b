import Shorthand.Proofs.Groups
import Shorthand.Expansion

/-!
# Repeating a group is writing it out

A multiplier on a group stands for as many groups next to each other.  The two abbreviations take
different ways: the group is expanded once and its tree copied, or every group is expanded by
itself.

Without dollar signs the outputs have the same text and the same tab stops in the same places.
Which stops have one number may differ.  A copy moves an attribute that several nodes show once for
each of them, so that a field of it parts from fields outside of it with which it was one stop.

* `Expansion.expand_repeated_iff` : when repeating a group is writing it out.
-/

set_option autoImplicit false

namespace Shorthand

namespace Markup

/-! ## Expanding what was read -/

namespace Snippet

theorem supplyFor_typed {nodes : List Node} (h : Node.AllTyped nodes) :
    supplyFor nodes = { scope := 1, link := 0 } := by
  have hlinks : Node.allLinks nodes = [] := by
    rw [Copies.allLinks_eq, List.filterMap_eq_nil_iff]
    exact fun p hp ↦ (h.places p hp).1
  rw [supplyFor, hlinks]
  rfl

/-- Nothing has to be settled after the expansion of what was read. -/
theorem expandAll_eq_ok_iff {table : Table String} {nodes tree : List Node}
    (h : Node.AllTyped nodes) :
    expandAll table nodes = .ok tree ↔ ∃ p, expandNodes (expander table.length table) table nodes
      ⟨⟨1, 0⟩, []⟩ = .ok (tree, p) := by
  rw [expandAll, supplyFor_typed h, expandTo_succ, map_eq_ok_iff]
  have hshown : ∀ r, expandNodes (expander table.length table) table nodes ⟨⟨1, 0⟩, []⟩ = .ok r →
      Node.settle r.2.shown r.1 = r.1 := by
    intro r hr
    have hgives := expandTo_gives (table.length + 1) 0 table nodes ⟨⟨1, 0⟩, []⟩ r (Nat.zero_le _)
      rfl (plain_of_typed _ _ h) hr
    rw [hgives.shown, Node.settle_nil]
  constructor
  · rintro ⟨r, hr, rfl⟩
    exact ⟨r.2, hr.trans (congrArg (fun ns ↦ Except.ok (ns, r.2)) (hshown r hr).symm)⟩
  · rintro ⟨p, hp⟩
    exact ⟨_, hp, hshown _ hp⟩

theorem Successive.heights_eq {tree groups : List Node} {x y i : Nat}
    (h : Successive tree x y i groups) (hne : groups ≠ []) :
    Node.heights groups = Node.heights tree + 1 := by
  induction h with
  | nil => exact absurd rfl hne
  | @cons i ns groups offset hns hrest ih =>
    rw [Node.heights, Node.height, ← hns.heights_eq]
    cases groups with
    | nil => exact Nat.max_eq_left (Nat.zero_le _)
    | cons g groups => rw [ih (List.cons_ne_nil _ _), Nat.max_self]

end Snippet

/-! ## Unrolling -/

namespace Copies

theorem unroll_eq_ok_iff {limit : Nat} {abbreviation : String} {nodes out : List Node} :
    unroll limit abbreviation nodes = .ok out ↔ ∃ s,
      unrollTo limit (Node.heights nodes + 1) none 1 nodes (supplyFor nodes) = .ok (out, s) := by
  rw [unroll, located_eq_ok_iff, map_eq_ok_iff]
  constructor
  · rintro ⟨r, hr, rfl⟩
    exact ⟨r.2, hr⟩
  · rintro ⟨s, hs⟩
    exact ⟨_, hs, rfl⟩

theorem unroll_keeps {limit : Nat} {abbreviation : String} {nodes out : List Node}
    (hc : Node.Consistent nodes) (h : unroll limit abbreviation nodes = .ok out) :
    Node.Consistent out ∧ Node.allLiterals out ⊆ Node.allLiterals nodes := by
  obtain ⟨s, hs⟩ := unroll_eq_ok_iff.1 h
  have hkeeps := unrollTo_keeping limit _ none 1 nodes _ out s (ready_supplyFor hc) hs
  exact ⟨hkeeps.ready.consistent, hkeeps.literals⟩

/-- **Unrolling a group with a multiplier and unrolling groups in a row** that hold its tree. -/
theorem unroll_group_iff {limit x y n : Nat} {abbreviation abbreviation' : String}
    {tree ms groups out : List Node} {P : Value → Prop} {Q : Attribute → Prop}
    (hc : Node.Consistent tree) (hbelow : Node.AllBelow (1 + x) tree)
    (hms : Node.AllLike .same tree ms) (hn : 1 ≤ n)
    (hgroups : Snippet.Successive tree x y 0 groups) (hlen : groups.length = n)
    (hgc : Node.Consistent groups) (hgr : Node.AllRegular P Q groups)
    (h : unroll limit abbreviation [.group ms (some { count := n }) 0] = .ok out) :
    ∃ out', unroll limit abbreviation' groups = .ok out' ∧
      (∃ T, Node.AllLike (.outcome T) out out') ∧
      ((∃ T : Stage, T.Mirrors ∧ Node.AllLike (.outcome T) out out') ↔
        n = 1 ∨ Node.EquallyShown tree) := by
  obtain ⟨s', hrun⟩ := unroll_eq_ok_iff.1 h
  have hheight : Node.heights [.group ms (some { count := n }) 0] = Node.heights tree + 1 := by
    rw [Node.heights, Node.height, hms.heights_eq]
    exact Nat.max_eq_left (Nat.zero_le _)
  have hheight' : Node.heights groups = Node.heights tree + 1 := by
    refine hgroups.heights_eq fun hnil ↦ ?_
    rw [hnil] at hlen
    exact absurd hn (by rw [← hlen]; decide)
  have hcounted : Counted (some { count := n }) := by
    rintro m ⟨rfl⟩
    exact hn
  have hmsb : Node.AllBelow (1 + x) ms := Node.AllRegular.of_like (R := .same)
    (fun _ _ hv h ↦ h ▸ hv) (fun _ _ ha h ↦ ⟨h ▸ ha, congrArg (·.name) h⟩) (fun _ _ h ↦ h) hbelow
    hms
  have hgroup : Node.AllBelow (1 + x) [.group ms (some { count := n }) 0] :=
    .cons (.group 0 hcounted hmsb) .nil
  have hleft : Node.AllBelow (supplyFor [.group ms (some { count := n }) 0]).scope tree := by
    refine Node.AllRegular.of_like (R := Likeness.flip .same) (fun _ _ hv h ↦ h ▸ hv)
      (fun _ _ ha h ↦ ⟨h ▸ ha, (congrArg (·.name) h).symm⟩) (fun _ _ h ↦ h.symm) ?_ hms.flip
    cases hgroup.below_supplyFor with
    | cons hn _ =>
      cases hn with
      | group _ _ hns => exact hns
  rw [hheight, unrollTo_succ, gather_singleton] at hrun
  obtain ⟨out', t', hrun', hlike, hiff⟩ := unroll_copies
    ⟨hc, hbelow, Nat.le_succ _⟩ hms (show 1 ≤ countOf (some { count := n }) from hn) hgroups hlen
    hgc (Nat.succ_pos _) (Nat.succ_pos _) hleft hgr.below_supplyFor hrun
  refine ⟨out', unroll_eq_ok_iff.2 ⟨t', ?_⟩, hlike, hiff⟩
  rw [hheight', unrollTo_succ]
  exact hrun'

end Copies

end Markup

/-! ## Output -/

namespace Expansion

open Markup

/-- The output of an unrolled tree without dollar signs. -/
theorem segments_of_unrolled {c : Config} (hc : c.grammar = .markup) {s : String}
    {raw tree unrolled : List Node} (hparse : Tree.parse s = .ok raw)
    (htree : Snippet.expandAll c.markupSnippets raw = .ok tree)
    (hunroll : Copies.unroll c.maxRepeat s tree = .ok unrolled)
    (hconsistent : Node.Consistent unrolled) (hdollar : Node.NoDollar unrolled)
    (hgroup : Node.anyGroup unrolled = false) :
    segments c s = .ok (Html.segments c.htmlStyle (Node.nameAll none unrolled)) := by
  have hnamed : Node.anyGroup (Node.nameAll none unrolled) = false := by
    rw [Node.anyGroup_nameAll, hgroup]
  have hnumber : Numbering.number (Node.nameAll none unrolled)
      = .ok (Node.nameAll none unrolled) := by
    refine Numbering.number_eq_self hnamed ?_ (Node.no_dollar_nameAll none unrolled hdollar)
    intro p hp q hq
    rw [Node.allPlaces_nameAll] at hp hq
    exact hconsistent p hp q hq
  have hmarkup : markupTree c s = .ok (Node.nameAll none unrolled) :=
    bind_eq_ok_iff.2 ⟨_, hparse, bind_eq_ok_iff.2 ⟨_, htree,
      bind_eq_ok_iff.2 ⟨_, hunroll, hnumber⟩⟩⟩
  rw [segments, hc]
  refine bind_eq_ok_iff.2 ⟨_, hmarkup, ?_⟩
  rw [Html.write, hnamed]
  rfl

/-- What is numbered has no groups. -/
theorem exists_unrolled {c : Config} (hc : c.grammar = .markup) {s : String} {out : String}
    (h : expand c s = .ok out) :
    ∃ raw tree unrolled, Tree.parse s = .ok raw ∧
      Snippet.expandAll c.markupSnippets raw = .ok tree ∧
      Copies.unroll c.maxRepeat s tree = .ok unrolled ∧ Node.anyGroup unrolled = false := by
  rw [expand, segments, hc] at h
  obtain ⟨found, h, -⟩ := map_eq_ok_iff.1 h
  obtain ⟨numbered, h, -⟩ := bind_eq_ok_iff.1 h
  obtain ⟨raw, hparse, h⟩ := bind_eq_ok_iff.1 h
  obtain ⟨tree, htree, h⟩ := bind_eq_ok_iff.1 h
  obtain ⟨unrolled, hunroll, h⟩ := bind_eq_ok_iff.1 h
  refine ⟨raw, tree, unrolled, hparse, htree, hunroll, ?_⟩
  rw [Numbering.number, Node.anyGroup_nameAll] at h
  cases hgroup : Node.anyGroup unrolled with
  | false => rfl
  | true =>
    rw [hgroup] at h
    cases h

/-- What is known of a tree as it was expanded. -/
theorem gives_of_typed {table : Table String} {raw tree : List Node} {p : Progress}
    (hraw : Node.AllTyped raw)
    (h : Snippet.expandNodes (Snippet.expander table.length table) table raw ⟨⟨1, 0⟩, []⟩
      = .ok (tree, p)) : Gives 1 ⟨⟨1, 0⟩, []⟩ (tree, p) :=
  Snippet.expandTo_gives (table.length + 1) 1 table raw ⟨⟨1, 0⟩, []⟩ (tree, p) (Nat.le_refl _) rfl
    (Snippet.plain_of_typed _ _ hraw) h

/-- The tree of a repeated group is a group with the tree of the abbreviation. -/
theorem exists_group {table : Table String} {s : String} {raw tree : List Node} {p : Progress}
    (hparse : Tree.parse s = .ok raw) (hlast : s.toList.getLast? ≠ some '\\')
    (hrun : Snippet.expandNodes (Snippet.expander table.length table) table raw ⟨⟨1, 0⟩, []⟩
      = .ok (tree, p)) {n : Nat} (hn : 1 ≤ n) :
    ∃ raw' ms q, Tree.parse (Tree.repeated s n) = .ok raw' ∧ Node.AllTyped raw' ∧
      Snippet.expandNodes (Snippet.expander table.length table) table raw' ⟨⟨1, 0⟩, []⟩
        = .ok ([.group ms (some { count := n }) 0], q) ∧ Node.AllLike .same tree ms := by
  obtain ⟨ns, hparse', hlike⟩ := Tree.parse_repeated hparse hlast hn
  have htyped := Tree.typed_of_parse hparse'
  have hns : Node.AllTyped ns := by
    cases htyped with
    | cons hn _ =>
      cases hn with
      | group _ _ hns => exact hns
  obtain ⟨ms, q, h, -, -, hms⟩ := Snippet.expandNode_group (d := 0) (k := 0)
    (Tree.typed_of_parse hparse) hns hlike Nat.one_pos rfl rfl ⟨rfl, rfl⟩ hrun
    (some { count := n }) 0
  exact ⟨_, ms, q, hparse', htyped, bind_eq_ok_iff.2 ⟨_, h, rfl⟩, hms.same_of_shifted⟩

/-- The tree of groups that are written out holds the tree of the abbreviation again and again, each
time with other scopes and links. -/
theorem exists_successive {table : Table String} {s : String} {raw tree : List Node} {p : Progress}
    (hparse : Tree.parse s = .ok raw) (hlast : s.toList.getLast? ≠ some '\\')
    (hrun : Snippet.expandNodes (Snippet.expander table.length table) table raw ⟨⟨1, 0⟩, []⟩
      = .ok (tree, p)) {n : Nat} (hn : 1 ≤ n) :
    ∃ raw' groups q, Tree.parse (Tree.copied s n) = .ok raw' ∧ Node.AllTyped raw' ∧
      Snippet.expandNodes (Snippet.expander table.length table) table raw' ⟨⟨1, 0⟩, []⟩
        = .ok (groups, q) ∧ groups.length = n ∧
      Snippet.Successive tree (p.scope - 1) p.link 0 groups := by
  obtain ⟨raw', hparse', hlen, hgroups⟩ := Tree.parse_copied hparse hlast hn
  have htyped := Tree.typed_of_parse hparse'
  have htypedGroups : ∀ g ∈ raw', ∃ ns offset, g = .group ns none offset ∧ Node.AllTyped ns ∧
      Node.AllLike .same raw ns := by
    intro g hg
    obtain ⟨ns, offset, rfl, hlike⟩ := hgroups g hg
    refine ⟨ns, offset, rfl, ?_, hlike⟩
    cases htyped.of_mem _ hg with
    | group _ _ hns => exact hns
  have hle := (gives_of_typed (Tree.typed_of_parse hparse) hrun).le
  have hxy : Supply.Shifts (p.scope - 1) p.link ⟨1, 0⟩ p.toSupply :=
    ⟨(Nat.add_sub_of_le hle.scope).symm, (Nat.zero_add _).symm⟩
  obtain ⟨groups, q, h, hlen', hsuccessive⟩ := Snippet.expandNodes_successive
    (Tree.typed_of_parse hparse) Nat.one_pos rfl hxy hrun raw' htypedGroups 0 ⟨⟨1, 0⟩, []⟩ rfl
    ⟨by simp, by simp⟩
  exact ⟨raw', groups, q, hparse', htyped, h, hlen'.trans hlen, hsuccessive⟩

/-- **Repeating a group is writing it out**, for an abbreviation without dollar signs, exactly if
there is one copy only, or fields of its tree that are one stop are shown equally often.  The groups
that are written out always have an output if the repeated group has one. -/
theorem expand_repeated_iff {c : Config} (hc : c.grammar = .markup) {s : String}
    {raw tree : List Node} (hparse : Tree.parse s = .ok raw)
    (hlast : s.toList.getLast? ≠ some '\\')
    (htree : Snippet.expandAll c.markupSnippets raw = .ok tree) (hdollar : Node.NoDollar tree)
    {n : Nat} (hn : 1 ≤ n) {out : String} (hout : expand c (Tree.repeated s n) = .ok out) :
    (∃ out', expand c (Tree.copied s n) = .ok out') ∧
      ((∀ f, expand { c with formatters := f } (Tree.repeated s n)
          = expand { c with formatters := f } (Tree.copied s n)) ↔
        n = 1 ∨ Node.EquallyShown tree) := by
  obtain ⟨p, hrun⟩ := (Snippet.expandAll_eq_ok_iff (Tree.typed_of_parse hparse)).1 htree
  have hgives := gives_of_typed (Tree.typed_of_parse hparse) hrun
  obtain ⟨rawL, ms, q, hparseL, htypedL, hrunL, hms⟩ := exists_group hparse hlast hrun hn
  obtain ⟨rawR, groups, q', hparseR, htypedR, hrunR, hlen, hgroups⟩ :=
    exists_successive hparse hlast hrun hn
  have hgivesR := gives_of_typed htypedR hrunR
  have htreeL := (Snippet.expandAll_eq_ok_iff htypedL).2 ⟨q, hrunL⟩
  have htreeR := (Snippet.expandAll_eq_ok_iff htypedR).2 ⟨q', hrunR⟩
  obtain ⟨raw', tree', left, hparse', htree', hleft, hgroup⟩ := exists_unrolled hc hout
  cases hparseL.symm.trans hparse'
  cases htreeL.symm.trans htree'
  have hbelow : Node.AllBelow (1 + (p.scope - 1)) tree := by
    rw [Nat.add_sub_of_le hgives.le.scope]
    have hpos : 0 < p.scope := hgives.le.scope
    have hwithin : ∀ v, Value.Within 1 p.scope v → Value.Below p.scope v := fun v hv f hf ↦
      (hv f hf).elim (fun h0 ↦ h0 ▸ hpos) And.right
    exact hgives.instances.regular.mono hwithin fun a ha ↦ hwithin _ ha.1
  obtain ⟨right, hright, ⟨T, hlike⟩, hiff⟩ := Copies.unroll_group_iff hgives.instances.consistent
    hbelow hms hn hgroups hlen hgivesR.instances.consistent hgivesR.instances.regular hleft
  obtain ⟨hleftc, hliterals⟩ := Copies.unroll_keeps
    (gives_of_typed htypedL hrunL).instances.consistent hleft
  obtain ⟨hrightc, -⟩ := Copies.unroll_keeps hgivesR.instances.consistent hright
  have hsame : Likeness.same.KeepsLiterals := by
    refine ⟨fun _ _ h ↦ congrArg _ h, ?_⟩
    rintro a _ rfl
    exact ⟨rfl, rfl⟩
  have hleftd : Node.NoDollar left := by
    intro x hx
    have hmem := hliterals hx
    rw [Node.allLiterals, Node.literals, Node.allLiterals, List.append_nil,
      ← hms.literals_eq hsame] at hmem
    exact hdollar x hmem
  have hrightd : Node.NoDollar right := by
    intro x hx
    rw [← hlike.literals_eq (Likeness.keepsLiterals_paired T _ _)] at hx
    exact hleftd x hx
  have hsegmentsL := segments_of_unrolled hc hparseL htreeL hleft hleftc hleftd hgroup
  have hsegmentsR := segments_of_unrolled hc hparseR htreeR hright hrightc hrightd
    ((Node.anyGroup_eq hlike).symm.trans hgroup)
  have hnamed : Node.anyGroup (Node.nameAll none left) = false := by
    rw [Node.anyGroup_nameAll, hgroup]
  have hnames := fun S : Stage ↦ Node.nameAll_iff (R := .outcome S) none hlike
  have hexpandL : ∀ f, expand { c with formatters := f } (Tree.repeated s n)
      = .ok (Segment.render f (Html.segments c.htmlStyle (Node.nameAll none left))) :=
    fun f ↦ map_eq_ok_iff.2 ⟨_, hsegmentsL, rfl⟩
  have hexpandR : ∀ f, expand { c with formatters := f } (Tree.copied s n)
      = .ok (Segment.render f (Html.segments c.htmlStyle (Node.nameAll none right))) :=
    fun f ↦ map_eq_ok_iff.2 ⟨_, hsegmentsR, rfl⟩
  refine ⟨⟨_, hexpandR c.formatters⟩, ?_⟩
  have hrender : (∀ f, expand { c with formatters := f } (Tree.repeated s n)
        = expand { c with formatters := f } (Tree.copied s n)) ↔
      Html.segments c.htmlStyle (Node.nameAll none left)
        = Html.segments c.htmlStyle (Node.nameAll none right) := by
    constructor
    · intro h
      have hstrokes := h Mark.strokes
      rw [hexpandL, hexpandR] at hstrokes
      exact Html.segments_eq_of_render _ ((hnames T).2 hlike) hnamed (Except.ok.inj hstrokes)
    · intro h f
      rw [hexpandL, hexpandR, h]
  rw [hrender, Html.segments_eq_iff _ ((hnames T).2 hlike) hnamed, ← hiff]
  exact exists_congr fun S ↦ and_congr_right fun _ ↦ hnames S

/-- A configuration that writes tab stops as their numbers.  Its snippet `m` has a field in two
attributes of one element; `A` has one in the texts and in an attribute of two elements. -/
def mirrorConfig : Config where
  formatters := { field := fun number _ ↦ "<" ++ toString number ++ ">" }
  markupSnippets :=
    [("m", "p[y=$\x7b1\x7d z=$\x7b1\x7d]"),
      ("A", "B[x=$\x7b1\x7d]\x7b$\x7b1\x7d\x7d"), ("B", "p+q")]

/-- The field of the first instance of a snippet. -/
def mirrored : Value := [.field { index := 1, scope := 1 }]

/-- What `m` stands for. -/
def mirror : Node :=
  .element
    { name := some "p", attributes := [⟨"y", mirrored, none⟩, ⟨"z", mirrored, none⟩] } none []

/-- One of the two elements that `A` stands for. -/
def shower (name : String) : Node :=
  .element { name := some name, attributes := [⟨"x", mirrored, some 0⟩], text := some mirrored }
    none []

/-- Two copies of a snippet that shows its field twice: each copy has one stop for it. -/
theorem expand_mirror_twice :
    mirrorConfig.grammar = .markup ∧ Tree.parse "m" = .ok [.element { name := some "m" } none []] ∧
      "m".toList.getLast? ≠ some '\\' ∧
      Snippet.expandAll mirrorConfig.markupSnippets [.element { name := some "m" } none []]
        = .ok [mirror] ∧
      Node.NoDollar [mirror] ∧ 1 ≤ 2 ∧
      expand mirrorConfig (Tree.repeated "m" 2)
        = .ok "<p y=\"<1>\" z=\"<1>\"><2></p>\n<p y=\"<3>\" z=\"<3>\"><4></p>" ∧
      (∃ out', expand mirrorConfig (Tree.copied "m" 2) = .ok out') ∧
      ((∀ f, expand { mirrorConfig with formatters := f } (Tree.repeated "m" 2)
          = expand { mirrorConfig with formatters := f } (Tree.copied "m" 2)) ↔
        2 = 1 ∨ Node.EquallyShown [mirror]) := by
  have hparse : Tree.parse "m" = .ok [.element { name := some "m" } none []] := by decide +kernel
  have htree : Snippet.expandAll mirrorConfig.markupSnippets [.element { name := some "m" } none []]
      = .ok [mirror] := by
    decide +kernel
  have hdollar : Node.NoDollar [mirror] := by
    unfold Node.NoDollar
    decide +kernel
  have hout : expand mirrorConfig (Tree.repeated "m" 2)
      = .ok "<p y=\"<1>\" z=\"<1>\"><2></p>\n<p y=\"<3>\" z=\"<3>\"><4></p>" := by
    decide +kernel
  obtain ⟨hcopied, hiff⟩ :=
    expand_repeated_iff rfl hparse (by decide) htree hdollar (by decide) hout
  exact ⟨rfl, hparse, by decide, htree, hdollar, by decide, hout, hcopied, hiff⟩

/-- A field of an attribute that two elements show parts from the same field in their texts, in the
second copy of a group but not in the second of two groups. -/
theorem shared_field_parts :
    mirrorConfig.grammar = .markup ∧ Tree.parse "A" = .ok [.element { name := some "A" } none []] ∧
      "A".toList.getLast? ≠ some '\\' ∧
      Snippet.expandAll mirrorConfig.markupSnippets [.element { name := some "A" } none []]
        = .ok [shower "p", shower "q"] ∧
      Node.NoDollar [shower "p", shower "q"] ∧
      expand mirrorConfig (Tree.repeated "A" 2)
        = .ok ("<p x=\"<1>\"><1></p>\n<q x=\"<1>\"><1></q>\n"
          ++ "<p x=\"<2>\"><3></p>\n<q x=\"<2>\"><3></q>") ∧
      expand mirrorConfig (Tree.copied "A" 2) = .ok ("<p x=\"<1>\"><1></p>\n<q x=\"<1>\"><1></q>\n"
        ++ "<p x=\"<2>\"><2></p>\n<q x=\"<2>\"><2></q>") := by
  refine ⟨rfl, by decide +kernel, by decide, by decide +kernel, ?_, by decide +kernel,
    by decide +kernel⟩
  unfold Node.NoDollar
  decide +kernel

end Expansion

end Shorthand
