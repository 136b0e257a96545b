import Mathlib.Data.List.Basic
import Shorthand.Expansion
import Shorthand.Proofs.Sharing

/-!
# Every text is numbered once

Numbering replaces the `$` signs of each node by the number of the copy that the node is.  It has to
do so once: a second time it would take the dollar sign that an escape `\$` has left for a counter.

Names, ids, classes, texts and the attributes of a single node are numbered once, by the multiplier
of their own node.  An attribute that several nodes show is numbered by each of them in turn, and
the outcome is shown on all.  This is what each of them would have made of it alone only if the
later turns change nothing and the turns agree (`TurnsAgree`).

* `once` : a tree with every literal part numbered once, by the multiplier of its node.
* `markupTree_eq_once_iff` : the tree of an abbreviation is its unnumbered tree numbered once,
  exactly when the turns agree.
* `escaped_dollar_numbered_twice` : they need not.
-/

set_option autoImplicit false

namespace Shorthand.Markup.Numbering

/-- Numbers every literal part of a node by a multiplier. -/
def numberer (times : Option Multiplier) : Mapper where
  name := textBy times
  value v := v.mapText (textBy times)
  attr := attributeBy times

/-- A tree with every literal part numbered once, by the multiplier of its node. -/
def once (nodes : List Node) : List Node := Node.rewriteAll numberer nodes

/-- Numbers a node, and shows of a linked attribute what all places of a tree make of it in turn. -/
def turnTaker (nodes : List Node) (times : Option Multiplier) : Mapper :=
  { numberer times with
    attr := fun a ↦
      match a.link with
      | none => attributeBy times a
      | some link => (inTurn numberer link (Node.allPlaces nodes) none).getD a }

/-- Numbered by all places that show it, one after the other, a linked attribute becomes on each of
them what the node there makes of it alone. -/
def TurnsAgree (nodes : List Node) : Prop :=
  ∀ times a link, (times, a) ∈ Node.allPlaces nodes → a.link = some link →
    inTurn numberer link (Node.allPlaces nodes) none = some (attributeBy times a)

/-- Numbering is a map. -/
theorem number_eq_rewriteAll {nodes : List Node} (h : Node.anyGroup nodes = false) :
    number nodes = .ok (Node.rewriteAll (turnTaker nodes) nodes) := by
  obtain ⟨final, hfinal, hsettle⟩ :=
    Node.settle_visitAll_sharing (m := numberer) (fun _ _ ↦ rfl) nodes
  have hmap : (fun times ↦ (numberer times).showing final) = turnTaker nodes := by
    funext times
    simp only [Mapper.showing, turnTaker, hfinal]
    rfl
  rw [hmap] at hsettle
  rw [number, h]
  exact congrArg Except.ok hsettle

/-- Taking turns is numbering once, exactly when the turns agree. -/
theorem rewriteAll_turnTaker_eq_once_iff (nodes : List Node) :
    Node.rewriteAll (turnTaker nodes) nodes = once nodes ↔ TurnsAgree nodes := by
  have hname : ∀ times, (turnTaker nodes times).name = (numberer times).name := fun _ ↦ rfl
  have hvalue : ∀ times, (turnTaker nodes times).value = (numberer times).value := fun _ ↦ rfl
  rw [once, Node.rewriteAll_inj hname hvalue]
  constructor
  · intro h times a link hp hl
    have hturn := h (times, a) hp
    obtain ⟨b, hb⟩ := Option.isSome_iff_exists.1 (inTurn_isSome numberer hp hl none)
    simp only [turnTaker, hl, hb, Option.getD_some, numberer] at hturn
    rw [hb, hturn]
  · rintro h ⟨times, a⟩ hp
    cases hl : a.link with
    | none => simp only [turnTaker, hl, numberer]
    | some link => simp only [turnTaker, hl, h times a link hp hl, Option.getD_some, numberer]

end Shorthand.Markup.Numbering

namespace Shorthand.Expansion

open Markup

/-- The tree that a markup abbreviation stands for, before its copies are numbered. -/
def unnumbered (c : Config) (abbreviation : String) : Except Failure (List Node) := do
  let tree ← Tree.parse abbreviation
  let tree ← Snippet.expandAll c.markupSnippets tree
  let tree ← Copies.unroll c.maxRepeat abbreviation tree
  return Node.nameAll none tree

theorem markupTree_eq_bind (c : Config) (abbreviation : String) :
    markupTree c abbreviation = unnumbered c abbreviation >>= Numbering.number := by
  simp only [markupTree, unnumbered, bind_assoc, pure_bind]

/-- **Numbering is applied once.**  The tree of an abbreviation is its unnumbered tree with every
part numbered by its own node and linked attributes numbered in turn; and this is every literal part
numbered once, exactly when the turns agree. -/
theorem markupTree_eq_once_iff (c : Config) (abbreviation : String) (nodes : List Node)
    (h : markupTree c abbreviation = .ok nodes) :
    ∃ before, unnumbered c abbreviation = .ok before ∧
      nodes = Node.rewriteAll (Numbering.turnTaker before) before ∧
      (nodes = Numbering.once before ↔ Numbering.TurnsAgree before) := by
  rw [markupTree_eq_bind] at h
  cases hb : unnumbered c abbreviation with
  | error e => simp [hb, bind, Except.bind] at h
  | ok before =>
    have hnumber : Numbering.number before = .ok nodes := by simpa [hb, bind, Except.bind] using h
    have hgroup : Node.anyGroup before = false := by
      cases hg : Node.anyGroup before with
      | false => rfl
      | true => simp [Numbering.number, hg] at hnumber
    rw [Numbering.number_eq_rewriteAll hgroup] at hnumber
    obtain rfl := Except.ok.inj hnumber
    exact ⟨before, rfl, rfl, Numbering.rewriteAll_turnTaker_eq_once_iff before⟩

/-- A configuration in which `x` stands for two elements side by side. -/
def pairConfig : Config := { markupSnippets := [("x", "p+q")] }

/-- An element with one attribute that other elements show as well. -/
def sharer (name value : String) (times : Option Multiplier) (link offset : Nat) : Node :=
  .element
    { name := some name, attributes := [⟨"a", [.text value], some link⟩], offset } times []

/-- Two copies of a pair that shows an attribute, each of them with one value for all its nodes. -/
def copiedPair (first second : String) : List Node :=
  [sharer "p" first (some ⟨2, 1⟩) 1 1, sharer "q" first (some ⟨2, 1⟩) 1 1,
    sharer "p" second (some ⟨2, 2⟩) 2 1, sharer "q" second (some ⟨2, 2⟩) 2 1]

/-- In two copies of a pair that shows an attribute the turns agree, and the attribute is numbered
once in each copy. -/
theorem markupTree_pair_twice :
    markupTree pairConfig "(x[a=i$])*2" = .ok (copiedPair "i1" "i2") ∧
      ∃ before, unnumbered pairConfig "(x[a=i$])*2" = .ok before ∧
        copiedPair "i1" "i2" = Node.rewriteAll (Numbering.turnTaker before) before ∧
        copiedPair "i1" "i2" = Numbering.once before ∧ Numbering.TurnsAgree before := by
  have htree : markupTree pairConfig "(x[a=i$])*2" = .ok (copiedPair "i1" "i2") := by decide +kernel
  have hbefore : unnumbered pairConfig "(x[a=i$])*2" = .ok (copiedPair "i$" "i$") := by
    decide +kernel
  have honce : copiedPair "i1" "i2" = Numbering.once (copiedPair "i$" "i$") := by decide +kernel
  obtain ⟨before, hunnumbered, hturns, hiff⟩ :=
    markupTree_eq_once_iff pairConfig "(x[a=i$])*2" _ htree
  obtain rfl : copiedPair "i$" "i$" = before :=
    Except.ok.inj (hbefore.symm.trans hunnumbered)
  exact ⟨htree, _, hbefore, hturns, honce, hiff.1 honce⟩

/-- The dollar sign of an escape is numbered when the second element of a pair takes its turn. -/
theorem escaped_dollar_numbered_twice :
    ∃ before nodes, unnumbered pairConfig "x[a='\\$']" = .ok before ∧
      markupTree pairConfig "x[a='\\$']" = .ok nodes ∧ nodes ≠ Numbering.once before := by
  refine ⟨[sharer "p" "\\$" none 0 0, sharer "q" "\\$" none 0 0],
    [sharer "p" "1" none 0 0, sharer "q" "1" none 0 0], by decide +kernel, by decide +kernel, ?_⟩
  have honce : Numbering.once [sharer "p" "\\$" none 0 0, sharer "q" "\\$" none 0 0]
      = [sharer "p" "$" none 0 0, sharer "q" "$" none 0 0] := by
    decide +kernel
  rw [honce]
  simp [sharer]

end Shorthand.Expansion
