import Shorthand.Expansion
import Shorthand.Proofs.Content
import Shorthand.Proofs.Success

/-!
# Formatting as the output is written

`Html.print` writes a tree in one go: every text and every tab stop is formatted where it stands,
and lines are put together from finished strings.  The result is that of formatting the segments of
the tree one by one, so nothing about the layout, the tags or the numbers can depend on what the
formatters do.

* `Html.print` : the output of a tree, formatted on the way.
* `Html.print_eq_render` : it is the output of its segments.
* `Expansion.expand_eq_print` : expansion is printing the tree of the abbreviation.
* `Html.IsLayout` : what raw output is made of.
* `Expansion.structure_independent_of_formatters` : one list of segments for all formatters.
-/

set_option autoImplicit false

namespace Shorthand

namespace Markup.Html

/-! ## Printing -/

/-- An empty place, printed. -/
def printBlank (f : Formatters) (stops : TabStops) : String × TabStops :=
  let (number, stops) := stops.auto
  (f.field number "", stops)

/-- A value, printed. -/
def printValue (f : Formatters) : Value → TabStops → String × TabStops
  | [], stops => ("", stops)
  | .text literal :: v, stops =>
    let (rest, stops) := printValue f v stops
    (f.text literal ++ rest, stops)
  | .field g :: v, stops =>
    let (number, stops) := stops.explicit g.index g.scope
    let (rest, stops) := printValue f v stops
    (f.field number g.placeholder ++ rest, stops)

/-- An attribute with its name, printed. -/
def printAssignment (f : Formatters) (style : Style) (name : String) (v : Value)
    (stops : TabStops) : String × TabStops :=
  let (written, stops) := if v.isEmpty then printBlank f stops else printValue f v stops
  (" " ++ name ++ "=" ++ style.quote ++ written ++ style.quote, stops)

/-- Attributes, printed one after the other. -/
def printAttributes (f : Formatters) (style : Style) :
    List Attribute → TabStops → String × TabStops
  | [], stops => ("", stops)
  | a :: as, stops =>
    let (first, stops) := printAssignment f style (f.text a.name) a.value stops
    let (rest, stops) := printAttributes f style as stops
    (first ++ rest, stops)

/-- An opening tag without its closing bracket, printed. -/
def printOpening (f : Formatters) (style : Style) (e : Element) (stops : TabStops) :
    String × TabStops :=
  let (id, stops) := match e.id with
    | none => ("", stops)
    | some v => printAssignment f style "id" v stops
  let (classes, stops) :=
    if e.classes.isEmpty then ("", stops)
    else printAssignment f style "class" (joinClasses e.classes) stops
  let (rest, stops) := printAttributes f style e.attributes stops
  ("<" ++ f.text (e.name.getD "") ++ id ++ classes ++ rest, stops)

/-- The contents of an element on one line, or on lines of their own between the tags. -/
def printInside (style : Style) (depth : Nat) (inline : Bool) (opening : String)
    (contents : List String) (closing : String) : String :=
  if inline then opening ++ String.join contents ++ closing
  else
    style.newline.intercalate
      (opening :: (contents.map (indentAt style (depth + 1) ++ ·) ++
        [indentAt style depth ++ closing]))

mutual

/-- A node at a depth, printed. -/
def printNode (f : Formatters) (style : Style) (depth : Nat) :
    Node → TabStops → String × TabStops
  | .text v _ _, stops => printValue f v stops
  | .group _ _ _, stops => ("", stops)
  | .element e _ children, stops =>
    let (opening, stops) := printOpening f style e stops
    let closing := "</" ++ f.text (e.name.getD "") ++ ">"
    let (text, stops) := match textOf e with
      | none => ([], stops)
      | some v =>
        let (written, stops) := printValue f v stops
        ([written], stops)
    let (below, stops) := printAll f style (depth + 1) children stops
    if (text ++ below).isEmpty then
      if isVoid style e then (opening ++ style.emptyTagEnd, stops)
      else
        let (blank, stops) := printBlank f stops
        (opening ++ ">" ++ blank ++ closing, stops)
    else
      (printInside style depth (staysOnLine style children) (opening ++ ">") (text ++ below)
        closing, stops)

/-- The nodes of a list at a depth, each printed. -/
def printAll (f : Formatters) (style : Style) (depth : Nat) :
    List Node → TabStops → List String × TabStops
  | [], stops => ([], stops)
  | n :: ns, stops =>
    let (first, stops) := printNode f style depth n stops
    let (rest, stops) := printAll f style depth ns stops
    (first :: rest, stops)

end

/-- A tree, printed; a group cannot be printed. -/
def print (f : Formatters) (style : Style) (nodes : List Node) : Except Failure String :=
  if Node.anyGroup nodes then .error .groupInOutput
  else
    let printed := (printAll f style 0 nodes {}).1
    if staysOnLine style nodes then .ok (String.join printed)
    else .ok (style.newline.intercalate printed)

/-! ## Printing is formatting the segments -/

theorem render_raw (f : Formatters) (output : String) (ss : List Segment) :
    Segment.render f (.raw output :: ss) = output ++ Segment.render f ss :=
  Segment.render_cons f _ ss

theorem render_text (f : Formatters) (literal : String) (ss : List Segment) :
    Segment.render f (.text literal :: ss) = f.text literal ++ Segment.render f ss :=
  Segment.render_cons f _ ss

theorem render_stop (f : Formatters) (number : Nat) (placeholder : String) (ss : List Segment) :
    Segment.render f (.stop number placeholder :: ss)
      = f.field number placeholder ++ Segment.render f ss :=
  Segment.render_cons f _ ss

/-- Segments with the numbers after them, formatted. -/
def formatted (f : Formatters) (out : List Segment × TabStops) : String × TabStops :=
  (Segment.render f out.1, out.2)

theorem printBlank_eq (f : Formatters) (stops : TabStops) :
    printBlank f stops = formatted f (Segment.blank stops) := by
  simp [printBlank, formatted, Segment.blank, render_stop]

theorem printValue_eq (f : Formatters) (v : Value) (stops : TabStops) :
    printValue f v stops = formatted f (value v stops) := by
  rw [value]
  induction v generalizing stops with
  | nil => rfl
  | cons p v ih =>
    cases p <;>
      simp only [printValue, Segment.ofValue, Segment.ofPart, formatted, ih, render_text,
        render_stop]

theorem printAssignment_eq (f : Formatters) (style : Style) (name : Segment) (v : Value)
    (stops : TabStops) :
    printAssignment f style (name.format f) v stops
      = formatted f (assignment style [name] v stops) := by
  have hvalue : (if v.isEmpty then printBlank f stops else printValue f v stops)
      = formatted f (attributeValue v stops) := by
    rw [attributeValue]
    split
    · exact printBlank_eq f stops
    · exact printValue_eq f v stops
  rw [printAssignment, hvalue, assignment]
  simp only [formatted, Segment.render_append, render_raw, Segment.render_cons f name,
    Segment.render_nil, String.append_empty, String.append_assoc, List.cons_append,
    List.nil_append]

theorem printAttributes_eq (f : Formatters) (style : Style) (as : List Attribute)
    (stops : TabStops) :
    printAttributes f style as stops = formatted f (attributes style as stops) := by
  induction as generalizing stops with
  | nil => rfl
  | cons a as ih =>
    have hfirst := printAssignment_eq f style (.text a.name) a.value stops
    rw [Segment.format] at hfirst
    rw [printAttributes, attributes, hfirst]
    simp only [formatted, ih, Segment.render_append]

theorem printOpening_eq (f : Formatters) (style : Style) (e : Element) (stops : TabStops) :
    printOpening f style e stops = formatted f (opening style e stops) := by
  have hid : ∀ v, printAssignment f style "id" v stops
      = formatted f (assignment style [.raw "id"] v stops) :=
    fun v ↦ printAssignment_eq f style (.raw "id") v stops
  have hclasses : ∀ stops, (if e.classes.isEmpty then ("", stops)
      else printAssignment f style "class" (joinClasses e.classes) stops)
      = formatted f (if e.classes.isEmpty then ([], stops)
          else assignment style [.raw "class"] (joinClasses e.classes) stops) := by
    intro stops
    split
    · rfl
    · exact printAssignment_eq f style (.raw "class") _ stops
  rw [printOpening, opening]
  cases e.id with
  | none =>
    simp only [hclasses, printAttributes_eq, formatted, Segment.render_append, render_raw,
      render_text, Segment.render_nil, String.empty_append, String.append_assoc, List.cons_append]
  | some v =>
    simp only [hid, hclasses, printAttributes_eq, formatted, Segment.render_append, render_raw,
      render_text, String.append_assoc, List.cons_append]

/-- Strings with a separator between them: the separator is before every string but the first. -/
theorem intercalate_cons (sep s : String) (ss : List String) :
    sep.intercalate (s :: ss) = s ++ String.join (ss.map (sep ++ ·)) := by
  induction ss generalizing s with
  | nil => simp
  | cons t ss ih =>
    rw [String.intercalate_cons_cons, ih, List.map_cons, String.join_cons]
    simp only [String.append_assoc]

/-- The line break before a line of the contents of an element. -/
def breakText (style : Style) (children : List Node) (depth : Nat) : String :=
  if staysOnLine style children then "" else style.newline ++ indentAt style depth

/-- Contents are printed with a line break before each of them and one before the closing tag. -/
theorem printInside_eq (style : Style) (depth : Nat) (children : List Node) (opening : String)
    (contents : List String) (closing : String) :
    printInside style depth (staysOnLine style children) opening contents closing
      = opening ++ (String.join (contents.map (breakText style children (depth + 1) ++ ·)) ++
          (breakText style children depth ++ closing)) := by
  have hempty : contents.map (fun s ↦ "" ++ s) = contents := by simp
  unfold printInside breakText
  split
  · rw [hempty, String.empty_append, String.append_assoc]
  · rw [intercalate_cons, List.map_append, String.join_append, List.map_map]
    simp [Function.comp_def, String.append_assoc]

theorem render_break (f : Formatters) (style : Style) (children : List Node) (depth : Nat) :
    Segment.render f (if staysOnLine style children then []
      else [.raw (style.newline ++ indentAt style depth)]) = breakText style children depth := by
  rw [breakText]
  split
  · rfl
  · simp [render_raw]

mutual

theorem printNode_eq (f : Formatters) (style : Style) (depth : Nat) (n : Node) (stops : TabStops) :
    printNode f style depth n stops = formatted f (node style depth n stops) := by
  cases n with
  | text v times offset => exact printValue_eq f v stops
  | group children times offset => rfl
  | element e times children =>
    have hbelow : ∀ stops, formatted f (lines style (depth + 1)
        (if staysOnLine style children then []
          else [.raw (style.newline ++ indentAt style (depth + 1))]) children stops)
        = (String.join ((printAll f style (depth + 1) children stops).1.map
              (breakText style children (depth + 1) ++ ·)),
            (printAll f style (depth + 1) children stops).2) := fun stops ↦ by
      rw [printAll_eq f style (depth + 1) _ children stops, render_break]
    have hnil : ∀ stops, (printAll f style (depth + 1) children stops).1.isEmpty
        = children.isEmpty := fun _ ↦ by cases children <;> rfl
    simp only [formatted, Prod.mk.injEq] at hbelow
    rw [printNode, node, printOpening_eq]
    dsimp only
    rcases ht : textOf e with _ | v <;> rcases children with _ | ⟨child, children⟩
    · simp only [List.nil_append, hnil, List.isEmpty_nil, if_true]
      split
      · simp only [formatted, Segment.render_append, render_raw, Segment.render_nil,
          String.append_empty, printAll]
      · simp only [formatted, printBlank_eq, Segment.render_append, render_raw, render_text,
          Segment.render_nil, String.append_empty, String.append_assoc, printAll]
    all_goals
      simp only [formatted, List.isEmpty_cons, hnil, List.nil_append, List.cons_append,
        Bool.false_eq_true, if_false, printInside_eq, printValue_eq, List.map_cons,
        String.join_cons, Segment.render_append, render_raw, render_text, Segment.render_nil,
        render_break, hbelow, String.append_empty, String.append_assoc]

theorem printAll_eq (f : Formatters) (style : Style) (depth : Nat) (lead : List Segment)
    (ns : List Node) (stops : TabStops) :
    formatted f (lines style depth lead ns stops)
      = (String.join ((printAll f style depth ns stops).1.map (Segment.render f lead ++ ·)),
          (printAll f style depth ns stops).2) := by
  cases ns with
  | nil => rfl
  | cons n ns =>
    have hrest := printAll_eq f style depth lead ns (node style depth n stops).2
    obtain ⟨hjoin, hstops⟩ := Prod.mk.inj hrest
    rw [lines, printAll, printNode_eq f style depth n stops]
    simp only [formatted, Segment.render_append, List.map_cons, String.join_cons,
      String.append_assoc] at hjoin hstops ⊢
    rw [hjoin, hstops]

end

/-- **To print a tree is to format its segments.**  Both fail on a group. -/
theorem print_eq_render (f : Formatters) (style : Style) (nodes : List Node) :
    print f style nodes = (write style nodes).map (Segment.render f) := by
  rw [print, write]
  split
  · rfl
  cases nodes with
  | nil => split <;> rfl
  | cons n ns =>
    have hlead : Segment.render f
        (if staysOnLine style (n :: ns) then [] else [.raw style.newline])
        = if staysOnLine style (n :: ns) then "" else style.newline := by
      split
      · rfl
      · rw [render_raw, Segment.render_nil, String.append_empty]
    have hempty : ∀ ss : List String, ss.map (fun s ↦ "" ++ s) = ss := by simp
    have hrest : ∀ lead stops, Segment.render f (lines style 0 lead ns stops).1
        = String.join ((printAll f style 0 ns stops).1.map (Segment.render f lead ++ ·)) :=
      fun lead stops ↦ congrArg Prod.fst (printAll_eq f style 0 lead ns stops)
    simp only [printAll, printNode_eq, formatted, Except.map, segments, Segment.render_append,
      hrest, hlead]
    split
    · rw [String.join_cons, hempty]
    · rw [intercalate_cons]

/-! ## What stands in the output besides -/

/-- What layout is made of. -/
def layoutParts (style : Style) : List String :=
  ["<", ">", "</", "=", " ", "id", "class", style.quote, style.newline, style.indent,
    style.emptyTagEnd]

/-- Is a text made of parts of the layout and nothing else? -/
def IsLayout (style : Style) (output : String) : Prop :=
  ∃ parts : List String, (∀ part ∈ parts, part ∈ layoutParts style) ∧ output = String.join parts

theorem isLayout_of_mem {style : Style} {part : String} (h : part ∈ layoutParts style) :
    IsLayout style part := ⟨[part], List.forall_mem_singleton.2 h, by simp⟩

theorem isLayout_indentAt (style : Style) (depth : Nat) :
    IsLayout style (style.newline ++ indentAt style depth) := by
  refine ⟨style.newline :: List.replicate depth style.indent, ?_, String.join_cons.symm⟩
  rw [List.forall_mem_cons]
  refine ⟨by simp [layoutParts], fun part hpart ↦ ?_⟩
  rw [(List.mem_replicate.1 hpart).2]
  simp [layoutParts]

/-- The raw ones among marks are made of parts of the layout. -/
def LaidOut (style : Style) (ms : List Mark) : Prop :=
  ∀ output, .raw output ∈ ms → IsLayout style output

section LaidOut

variable {style : Style}

theorem laidOut_append {ms ns : List Mark} :
    LaidOut style (ms ++ ns) ↔ LaidOut style ms ∧ LaidOut style ns := by
  simp only [LaidOut, List.mem_append]
  exact ⟨fun h ↦ ⟨fun o ho ↦ h o (.inl ho), fun o ho ↦ h o (.inr ho)⟩,
    fun h o ho ↦ ho.elim (h.1 o) (h.2 o)⟩

theorem laidOut_flatMap {α : Type} {g : α → List Mark} {as : List α}
    (h : ∀ a ∈ as, LaidOut style (g a)) : LaidOut style (as.flatMap g) := by
  intro output houtput
  obtain ⟨a, ha, houtput⟩ := List.mem_flatMap.1 houtput
  exact h a ha output houtput

/-- Marks of which the raw ones are single parts. -/
theorem laidOut_of_parts {ms : List Mark}
    (h : ∀ output, .raw output ∈ ms → output ∈ layoutParts style) : LaidOut style ms :=
  fun output houtput ↦ isLayout_of_mem (h output houtput)

theorem laidOut_valueMarks (v : Value) : LaidOut style (valueMarks v) := by
  intro output houtput
  obtain ⟨p, -, hp⟩ := List.mem_map.1 houtput
  cases p <;> cases hp

theorem laidOut_assignmentMarks {name : Mark} (hname : LaidOut style [name]) (v : Value) :
    LaidOut style (assignmentMarks style name v) := by
  have hvalue : LaidOut style (if v.isEmpty then [.blank] else valueMarks v) := by
    split
    · exact laidOut_of_parts (by simp)
    · exact laidOut_valueMarks v
  have hquote : ∀ output, .raw output ∈ ([.raw style.quote] : List Mark) →
      output ∈ layoutParts style := by simp [layoutParts]
  have hblank : LaidOut style [.raw " "] := laidOut_of_parts (by simp [layoutParts])
  have hequals : LaidOut style [.raw "=", .raw style.quote] :=
    laidOut_of_parts (by simp [layoutParts])
  have hsplit : assignmentMarks style name v = [.raw " "] ++ ([name] ++
      ([.raw "=", .raw style.quote] ++ ((if v.isEmpty then [.blank] else valueMarks v) ++
        [.raw style.quote]))) := rfl
  simp only [hsplit, laidOut_append]
  exact ⟨hblank, hname, hequals, hvalue, laidOut_of_parts hquote⟩

theorem laidOut_openingMarks (e : Element) : LaidOut style (openingMarks style e) := by
  have hsplit : openingMarks style e = [.raw "<", .text (e.name.getD "")] ++
      (e.id.toList.flatMap (assignmentMarks style (.raw "id")) ++
      ((if e.classes.isEmpty then []
        else assignmentMarks style (.raw "class") (joinClasses e.classes)) ++
      e.attributes.flatMap fun a ↦ assignmentMarks style (.text a.name) a.value)) := rfl
  simp only [hsplit, laidOut_append]
  refine ⟨laidOut_of_parts (by simp [layoutParts]), laidOut_flatMap fun v _ ↦ ?_, ?_,
    laidOut_flatMap fun a _ ↦ ?_⟩
  · exact laidOut_assignmentMarks (laidOut_of_parts (by simp [layoutParts])) v
  · split
    · exact laidOut_of_parts (by simp)
    · exact laidOut_assignmentMarks (laidOut_of_parts (by simp [layoutParts])) _
  · exact laidOut_assignmentMarks (laidOut_of_parts (by simp)) a.value

theorem laidOut_breakMarks (children : List Node) (depth : Nat) :
    LaidOut style (breakMarks style children depth) := by
  rw [breakMarks]
  split
  · exact laidOut_of_parts (by simp)
  · intro output houtput
    obtain rfl : output = _ := by simpa using houtput
    exact isLayout_indentAt style depth

theorem laidOut_insideMarks (depth : Nat) (e : Element) (text : Option Value)
    (children : List Node) {below : List Mark} (hbelow : LaidOut style below) :
    LaidOut style (insideMarks style depth e text children below) := by
  have hclosing : LaidOut style (closingMarks e) :=
    laidOut_of_parts (by simp [closingMarks, layoutParts])
  rw [insideMarks]
  split
  · split
    · exact laidOut_of_parts (by simp [layoutParts])
    · exact laidOut_of_parts (by simp [closingMarks, layoutParts])
  · rw [← List.singleton_append]
    simp only [laidOut_append]
    refine ⟨laidOut_of_parts (by simp [layoutParts]), laidOut_flatMap fun v _ ↦ ?_, hbelow,
      laidOut_breakMarks children depth, hclosing⟩
    exact laidOut_append.2 ⟨laidOut_breakMarks children (depth + 1), laidOut_valueMarks v⟩

mutual

theorem laidOut_nodeMarks (depth : Nat) : ∀ n : Node, LaidOut style (nodeMarks style depth n)
  | .text v _ _ => laidOut_valueMarks v
  | .group _ _ _ => laidOut_of_parts (by simp [nodeMarks])
  | .element e _ children => laidOut_append.2 ⟨laidOut_openingMarks e,
      laidOut_insideMarks depth e (textOf e) children
        (laidOut_linesMarks (depth + 1) (laidOut_breakMarks children (depth + 1)) children)⟩

theorem laidOut_linesMarks (depth : Nat) {lead : List Mark} (hlead : LaidOut style lead) :
    ∀ ns : List Node, LaidOut style (linesMarks style depth lead ns)
  | [] => laidOut_of_parts (by simp [linesMarks])
  | n :: ns => laidOut_append.2 ⟨hlead, laidOut_append.2
      ⟨laidOut_nodeMarks depth n, laidOut_linesMarks depth hlead ns⟩⟩

end

/-- The raw marks of a tree are made of parts of the layout. -/
theorem laidOut_marks (nodes : List Node) : LaidOut style (marks style nodes) := by
  cases nodes with
  | nil => exact laidOut_of_parts (by simp [marks])
  | cons n ns =>
    refine laidOut_append.2 ⟨laidOut_nodeMarks 0 n, laidOut_linesMarks 0 ?_ ns⟩
    split
    · exact laidOut_of_parts (by simp)
    · exact laidOut_of_parts (by simp [layoutParts])

end LaidOut

/-- The characters of tags and attributes. -/
def signs : List Char := ['<', '>', '/', '=', ' ', 'i', 'd', 'c', 'l', 'a', 's', '"', '\'']

/-- What holds of the characters of tags and attributes, and of those of line breaks and indents,
holds of all characters of the layout. -/
theorem forall_mem_of_isLayout {c : Config} {P : Char → Prop} (hsigns : ∀ ch ∈ signs, P ch)
    (hnewline : ∀ ch ∈ c.newline.toList, P ch) (hindent : ∀ ch ∈ c.indent.toList, P ch)
    {output : String} (h : IsLayout c.htmlStyle output) : ∀ ch ∈ output.toList, P ch := by
  have hpart : ∀ part : String, part.toList ⊆ signs → ∀ ch ∈ part.toList, P ch :=
    fun part hsub ch hch ↦ hsigns ch (hsub hch)
  have hquote : ∀ q : Quotes, q.sign.toList ⊆ signs := by
    intro q
    cases q <;> simp [Quotes.sign, signs]
  have hend : ∀ e : SelfClosing, e.tagEnd.toList ⊆ signs := by
    intro e
    cases e <;> simp [SelfClosing.tagEnd, signs]
  have hparts : ∀ part ∈ layoutParts c.htmlStyle, ∀ ch ∈ part.toList, P ch := by
    simp only [layoutParts, List.forall_mem_cons]
    refine ⟨hpart _ ?_, hpart _ ?_, hpart _ ?_, hpart _ ?_, hpart _ ?_, hpart _ ?_, hpart _ ?_,
      hpart _ (hquote c.quotes), hnewline, hindent, hpart _ (hend c.selfClosing), by simp⟩ <;>
      simp [signs]
  obtain ⟨parts, hmem, rfl⟩ := h
  intro ch hch
  rw [String.toList_join] at hch
  obtain ⟨part, hin, hch⟩ := List.mem_flatMap.1 hch
  exact hparts part (hmem part hin) ch hch

end Markup.Html

namespace Expansion

open Markup

/-- Expansion prints the tree that a markup abbreviation stands for. -/
theorem expand_eq_print (c : Config) (hmarkup : c.grammar = .markup) (abbreviation : String) :
    expand c abbreviation
      = markupTree c abbreviation >>= Html.print c.formatters c.htmlStyle := by
  rw [expand, segments, hmarkup]
  cases markupTree c abbreviation with
  | error e => rfl
  | ok nodes => exact (Html.print_eq_render c.formatters c.htmlStyle nodes).symm

/-- **One structure for all formatters.**  A tree without groups has segments that depend on nothing
but the tree and the style; to print the tree, with whatever formatters, is to put the formatted
segments together.  Its raw segments are made of parts of the layout, and its texts are those of the
tree in reading order. -/
theorem structure_independent_of_formatters (c : Config) (nodes : List Node)
    (h : Node.anyGroup nodes = false) :
    ∃ segments, Html.write c.htmlStyle nodes = .ok segments ∧
      (∀ f : Formatters, Html.print f c.htmlStyle nodes = .ok (Segment.render f segments)) ∧
      (∀ output, .raw output ∈ segments → Html.IsLayout c.htmlStyle output) ∧
      Segment.texts segments = Html.texts c.htmlStyle nodes := by
  have hwrite : Html.write c.htmlStyle nodes = .ok (Html.segments c.htmlStyle nodes) := by
    rw [Html.write, h]
    rfl
  refine ⟨_, hwrite, fun f ↦ ?_, fun output houtput ↦ ?_, ?_⟩
  · rw [Html.print_eq_render, hwrite]
    rfl
  · rw [Html.segments_eq_marks] at houtput
    exact Html.laidOut_marks nodes output (Mark.raw_mem_segments houtput)
  · rw [Html.segments_eq_marks, Segment.texts_segments, Html.texts_marks]

/-- A paragraph with two classes, an empty attribute, a text and an image. -/
def paragraph : List Node := [
  .element
    { name := some "p", classes := [[.text "a"], [.text "b"]], attributes := [⟨"lang", [], none⟩]
      text := some [.text "t", .field { index := 3, placeholder := "u" }] } none
    [.element { name := some "img" } none []]]

/-- Formatters that show what they are given. -/
def showing : Formatters where
  field number placeholder := "<" ++ toString number ++ ":" ++ placeholder ++ ">"
  text literal := "[" ++ literal ++ "]"

/-- The paragraph as it is, and with all that is formatted shown. -/
theorem paragraph_structure :
    Node.anyGroup paragraph = false ∧
      ∃ segments, Html.write ({} : Config).htmlStyle paragraph = .ok segments ∧
        (∀ f : Formatters, Html.print f ({} : Config).htmlStyle paragraph
          = .ok (Segment.render f segments)) ∧
        (∀ output, .raw output ∈ segments → Html.IsLayout ({} : Config).htmlStyle output) ∧
        Segment.texts segments = ["p", "a", " ", "b", "lang", "t", "img", "p"] ∧
        Segment.render {} segments = "<p class=\"a b\" lang=\"\">tu<img></p>" ∧
        Segment.render showing segments
          = "<[p] class=\"[a][ ][b]\" [lang]=\"<1:>\">[t]<2:u><[img]></[p]>" := by
  obtain ⟨segments, hwrite, hprint, hraw, htexts⟩ :=
    structure_independent_of_formatters {} paragraph (by decide)
  obtain rfl := Except.ok.inj (hwrite.symm.trans (by rw [Html.write]; rfl))
  exact ⟨by decide, _, hwrite, hprint, hraw, htexts.trans (by decide +kernel),
    by decide +kernel, by decide +kernel⟩

end Expansion

end Shorthand
