import Shorthand.Proofs.Formatting

/-!
# Layout

The contents of an element stand on one line or on lines of their own, and this is decided anew at
every level.  Line breaks and indents are all that the decision puts into the output: where they are
empty, it cannot be seen.

* `Html.Style.IsFlat` : a style without line breaks and indents.
* `Html.printInside_flat` : contents are printed alike then, on one line or on lines of their own.
* `Html.printNode_breakingAt` : and so are nodes, whatever the number of inline elements on a line.
* `Expansion.output_independent_of_inlineBreak` : a tree has one output.
-/

set_option autoImplicit false

namespace Shorthand

namespace Markup.Html

/-- A style with another number of inline elements that do not stay on one line. -/
def Style.breakingAt (style : Style) (limit : Nat) : Style := { style with inlineBreak := limit }

/-- A style without line breaks and indents. -/
structure Style.IsFlat (style : Style) : Prop where
  newline : style.newline = ""
  indent : style.indent = ""

variable {f : Formatters} {style : Style}

theorem Style.IsFlat.breakingAt (h : style.IsFlat) (limit : Nat) :
    (style.breakingAt limit).IsFlat := ⟨h.newline, h.indent⟩

theorem Style.IsFlat.indentAt (h : style.IsFlat) (depth : Nat) : indentAt style depth = "" := by
  rw [Html.indentAt, h.indent]
  induction depth with
  | zero => rfl
  | succ depth ih => rw [List.replicate_succ, String.join_cons, ih, String.empty_append]

/-- With nothing between them, strings are joined. -/
theorem intercalate_empty (ss : List String) : "".intercalate ss = String.join ss := by
  cases ss with
  | nil => rfl
  | cons s ss => simp [intercalate_cons, String.join_cons]

/-- Without line breaks and indents, contents are printed alike on one line and on lines of their
own. -/
theorem printInside_flat (h : style.IsFlat) (depth : Nat) (inline : Bool) (opening : String)
    (contents : List String) (closing : String) :
    printInside style depth inline opening contents closing
      = opening ++ String.join contents ++ closing := by
  rw [printInside]
  split
  · rfl
  · rw [h.newline, intercalate_empty, String.join_cons, String.join_append, h.indentAt, h.indentAt]
    simp [String.append_assoc]

theorem printAttributes_breakingAt (limit : Nat) (as : List Attribute) (stops : TabStops) :
    printAttributes f (style.breakingAt limit) as stops = printAttributes f style as stops := by
  induction as generalizing stops with
  | nil => rfl
  | cons a as ih =>
    rw [printAttributes, printAttributes]
    simp only [ih]
    rfl

theorem printOpening_breakingAt (limit : Nat) (e : Element) (stops : TabStops) :
    printOpening f (style.breakingAt limit) e stops = printOpening f style e stops := by
  rw [printOpening, printOpening]
  simp only [printAttributes_breakingAt]
  rfl

mutual

/-- Without line breaks and indents, a node is printed alike whatever the number of inline elements
on a line. -/
theorem printNode_breakingAt (h : style.IsFlat) (limit depth : Nat) (n : Node)
    (stops : TabStops) :
    printNode f (style.breakingAt limit) depth n stops = printNode f style depth n stops := by
  cases n with
  | text v times offset => rfl
  | group children times offset => rfl
  | element e times children =>
    rw [printNode, printNode]
    simp only [printOpening_breakingAt, printAll_breakingAt h limit (depth + 1) children,
      printInside_flat h, printInside_flat (h.breakingAt limit)]
    rfl

theorem printAll_breakingAt (h : style.IsFlat) (limit depth : Nat) (ns : List Node)
    (stops : TabStops) :
    printAll f (style.breakingAt limit) depth ns stops = printAll f style depth ns stops := by
  cases ns with
  | nil => rfl
  | cons n ns =>
    rw [printAll, printAll]
    simp only [printNode_breakingAt h limit depth n, printAll_breakingAt h limit depth ns]

end

/-- Without line breaks and indents, a tree is printed as its nodes are, one after the other. -/
theorem print_flat (h : style.IsFlat) (nodes : List Node) (hnodes : Node.anyGroup nodes = false) :
    print f style nodes = .ok (String.join (printAll f style 0 nodes {}).1) := by
  rw [print, hnodes, if_neg (by simp), h.newline]
  dsimp only
  rw [intercalate_empty, ite_self]

end Markup.Html

namespace Expansion

open Markup

/-- **Layout never changes content.**  Where line breaks and indents are empty, a tree without
groups has one output, whatever the number of inline elements that stay on a line, and however
texts and tab stops are formatted. -/
theorem output_independent_of_inlineBreak (c c' : Config) (nodes : List Node)
    (hsame : { c' with inlineBreak := c.inlineBreak } = c) (hindent : c.indent = "")
    (hnewline : c.newline = "") (hnodes : Node.anyGroup nodes = false) :
    ∃ output,
      (Html.write c.htmlStyle nodes).map (Segment.render c.formatters) = .ok output ∧
      (Html.write c'.htmlStyle nodes).map (Segment.render c'.formatters) = .ok output := by
  have hflat : c.htmlStyle.IsFlat := ⟨hnewline, hindent⟩
  have hstyle : c'.htmlStyle = c.htmlStyle.breakingAt c'.inlineBreak := by
    rw [← hsame]
    rfl
  have hformatters : c'.formatters = c.formatters := by rw [← hsame]
  refine ⟨_, (Html.print_eq_render ..).symm.trans (Html.print_flat hflat nodes hnodes), ?_⟩
  rw [hformatters, hstyle, ← Html.print_eq_render,
    Html.print_flat (hflat.breakingAt c'.inlineBreak) nodes hnodes, Html.printAll_breakingAt hflat]

/-- A paragraph with a text and three inline elements, one of them in another one. -/
def inlineParagraph : List Node := [
  .element { name := some "p", text := some [.text "see "] } none [
    .element { name := some "a", attributes := [⟨"href", [], none⟩] } none [
      .element { name := some "b", text := some [.field { index := 1, placeholder := "x" }] }
        none []],
    .element { name := some "i" } none []]]

/-- A configuration without line breaks and indents that shows what is formatted. -/
def unbroken (limit : Nat) : Config where
  formatters := showing
  indent := ""
  newline := ""
  inlineBreak := limit

/-- What is shown of the paragraph. -/
def inlineOutput : String :=
  "<[p]>[see ]<[a] [href]=\"<1:>\"><[b]><2:x></[b]></[a]><[i]><3:></[i]></[p]>"

/-- The paragraph where two inline elements stay on a line, and where not even a single one does. -/
theorem output_of_inlineParagraph :
    { unbroken 1 with inlineBreak := (unbroken 3).inlineBreak } = unbroken 3 ∧
      (unbroken 3).indent = "" ∧ (unbroken 3).newline = "" ∧
      Node.anyGroup inlineParagraph = false ∧
      (Html.write (unbroken 3).htmlStyle inlineParagraph).map
        (Segment.render (unbroken 3).formatters) = .ok inlineOutput ∧
      (Html.write (unbroken 1).htmlStyle inlineParagraph).map
        (Segment.render (unbroken 1).formatters) = .ok inlineOutput := by
  have hnodes : Node.anyGroup inlineParagraph = false := by decide
  obtain ⟨output, hthree, hone⟩ :=
    output_independent_of_inlineBreak (unbroken 3) (unbroken 1) inlineParagraph rfl rfl rfl hnodes
  obtain rfl : output = inlineOutput := Except.ok.inj (hthree.symm.trans (by decide +kernel))
  exact ⟨rfl, rfl, rfl, hnodes, hthree, hone⟩

end Expansion

end Shorthand
