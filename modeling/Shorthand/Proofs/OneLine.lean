import Shorthand.Proofs.Layout

/-!
# One line

Contents that are all inline stay on one line unless there are too many elements among them.
Whether they are inline is asked of all nodes below; how many they are is asked of the children
alone.  So an element that stays on its line may hold another one that does not, and this one breaks
the line.

* `Node.Within` : the nodes that a node is made of.
* `Html.nodeMarks_flat` : nodes that all stay on their lines are written as if there were no lines.
* `Html.exists_break_of_within` : a node that does not stay on its line breaks every line around it.
* `Expansion.newline_not_mem_iff` : when an element is written on one line.
-/

set_option autoImplicit false

namespace Shorthand

/-- The characters of the output are those of the formatted segments. -/
theorem Segment.mem_render_iff {f : Formatters} {segments : List Segment} {ch : Char} :
    ch ∈ (render f segments).toList ↔ ∃ s ∈ segments, ch ∈ (format f s).toList := by
  rw [render, String.toList_join, List.mem_flatMap]
  simp

/-- Raw output is what is raw before the stops are numbered. -/
theorem Mark.raw_mem_segments_iff {output : String} {ms : List Mark} {stops : TabStops} :
    .raw output ∈ (segments ms stops).1 ↔ .raw output ∈ ms := by
  refine ⟨raw_mem_segments, fun h ↦ ?_⟩
  induction ms generalizing stops with
  | nil => cases h
  | cons m ms ih =>
    rcases List.mem_cons.1 h with rfl | h
    · exact List.mem_cons_self
    · exact List.mem_cons_of_mem _ (ih h)

namespace Markup

/-- A node is within itself, and within every node that has it below. -/
inductive Node.Within (m : Node) : Node → Prop where
  | self : Within m m
  | child {k n : Node} (hk : k ∈ n.children) (h : Within m k) : Within m n

namespace Html

variable {style : Style} {depth : Nat}

/-! ## Inline nodes -/

theorem allInline_iff {ns : List Node} : allInline ns = true ↔ ∀ n ∈ ns, isInline n = true := by
  induction ns with
  | nil => simp [allInline]
  | cons n ns ih => rw [allInline, Bool.and_eq_true, ih, List.forall_mem_cons]

theorem allInline_children {n : Node} (h : isInline n = true) : allInline n.children = true := by
  cases n with
  | element e times children => exact (Bool.and_eq_true_iff.1 h).2
  | text value times offset => rfl
  | group children times offset => cases h

theorem isInline_of_within {m n : Node} (h : m.Within n) (hn : isInline n = true) :
    isInline m = true := by
  induction h with
  | self => exact hn
  | child hk _ ih => exact ih (allInline_iff.1 (allInline_children hn) _ hk)

theorem staysOnLine_nil : staysOnLine style [] = true := by
  rw [staysOnLine, allInline, Bool.true_and, Bool.or_eq_true, beq_iff_eq, decide_eq_true_eq]
  exact Nat.eq_zero_or_pos style.inlineBreak

/-- Below inline nodes all stay on their lines if there is no limit, or if it is reached nowhere. -/
theorem forall_staysOnLine_iff (style : Style) {ns : List Node}
    (h : ∀ n ∈ ns, isInline n = true) :
    (∀ n ∈ ns, ∀ m : Node, m.Within n → staysOnLine style m.children = true) ↔
      style.inlineBreak = 0 ∨ ∀ n ∈ ns, ∀ m : Node, m.Within n →
        (m.children.filter Node.isElement).length < style.inlineBreak := by
  have hone : ∀ n ∈ ns, ∀ m : Node, m.Within n → (staysOnLine style m.children = true ↔
      style.inlineBreak = 0 ∨ (m.children.filter Node.isElement).length < style.inlineBreak) := by
    intro n hn m hm
    rw [staysOnLine, allInline_children (isInline_of_within hm (h n hn))]
    simp
  constructor
  · intro hstays
    by_cases hlimit : style.inlineBreak = 0
    · exact .inl hlimit
    · exact .inr fun n hn m hm ↦ ((hone n hn m hm).1 (hstays n hn m hm)).resolve_left hlimit
  · intro hcount n hn m hm
    exact (hone n hn m hm).2 (hcount.imp_right fun hless ↦ hless n hn m hm)

/-! ## Without lines -/

/-- The style without line breaks and indents. -/
def Style.flat (style : Style) : Style := { style with newline := "", indent := "" }

mutual

/-- Where every node stays on its line there are neither line breaks nor indents. -/
theorem nodeMarks_flat (depth : Nat) (n : Node)
    (h : ∀ m : Node, m.Within n → staysOnLine style m.children = true) :
    nodeMarks style depth n = nodeMarks style.flat depth n := by
  cases n with
  | text value times offset => rfl
  | group children times offset => rfl
  | element e times children =>
    have hstays : staysOnLine style children = true := h _ .self
    have hbreak : ∀ depth, breakMarks style children depth = [] := fun _ ↦ if_pos hstays
    have hflat : ∀ depth, breakMarks style.flat children depth = [] := fun _ ↦ if_pos hstays
    have hlines := linesMarks_flat (depth + 1) children fun k hk m hm ↦ h m (.child hk hm)
    rw [nodeMarks, nodeMarks, insideMarks, insideMarks]
    simp only [hbreak, hflat, hlines]
    rfl

theorem linesMarks_flat (depth : Nat) (ns : List Node)
    (h : ∀ n ∈ ns, ∀ m : Node, m.Within n → staysOnLine style m.children = true) :
    linesMarks style depth [] ns = linesMarks style.flat depth [] ns := by
  cases ns with
  | nil => rfl
  | cons n ns =>
    obtain ⟨hn, hns⟩ := List.forall_mem_cons.1 h
    rw [linesMarks, linesMarks, nodeMarks_flat depth n hn, linesMarks_flat depth ns hns]

end

/-! ## Broken lines -/

theorem mem_linesMarks {lead : List Mark} {mark : Mark} {n : Node} {ns : List Node} (hn : n ∈ ns)
    (h : mark ∈ nodeMarks style depth n) : mark ∈ linesMarks style depth lead ns := by
  induction ns with
  | nil => cases hn
  | cons first ns ih =>
    rw [linesMarks, List.mem_append, List.mem_append]
    rcases List.mem_cons.1 hn with rfl | hn
    · exact .inr (.inl h)
    · exact .inr (.inr (ih hn))

/-- What is inside an element with children. -/
theorem insideMarks_of_ne_nil {children : List Node} (h : children ≠ []) (e : Element)
    (text : Option Value) (below : List Mark) :
    insideMarks style depth e text children below = .raw ">" ::
      (text.toList.flatMap (breakMarks style children (depth + 1) ++ valueMarks ·) ++
      (below ++ (breakMarks style children depth ++ closingMarks e))) := by
  have hempty : ¬ (text.isNone && children.isEmpty) = true := by simp [h]
  rw [insideMarks, if_neg hempty]

/-- What is written for a child is a part of what is written for its parent. -/
theorem mem_nodeMarks_of_child {mark : Mark} {e : Element} {times : Option Multiplier}
    {children : List Node} {k : Node} (hk : k ∈ children)
    (h : mark ∈ nodeMarks style (depth + 1) k) :
    mark ∈ nodeMarks style depth (.element e times children) := by
  have hbelow : mark ∈ linesMarks style (depth + 1) (breakMarks style children (depth + 1))
      children := mem_linesMarks hk h
  rw [nodeMarks, insideMarks_of_ne_nil (List.ne_nil_of_mem hk)]
  simp [hbelow]

/-- A node whose children do not stay on its line breaks every line that it is on. -/
theorem exists_break_of_within {m n : Node} (h : m.Within n) (hn : isInline n = true)
    (hbreak : staysOnLine style m.children = false) (depth : Nat) :
    ∃ d, .raw (style.newline ++ indentAt style d) ∈ nodeMarks style depth n := by
  induction h generalizing depth with
  | self =>
    have hne : m.children ≠ [] := fun hnil ↦ by
      rw [hnil, staysOnLine_nil] at hbreak
      cases hbreak
    cases m with
    | element e times children =>
      replace hne : children ≠ [] := hne
      have hmarks : breakMarks style children depth
          = [.raw (style.newline ++ indentAt style depth)] :=
        if_neg (ne_true_of_eq_false hbreak)
      -- the break before the closing tag will do: it is there with and without a text
      refine ⟨depth, ?_⟩
      rw [nodeMarks, insideMarks_of_ne_nil hne, hmarks]
      simp
    | text value times offset => exact absurd rfl hne
    | group children times offset => cases hn
  | @child k n hk h ih =>
    obtain ⟨d, hd⟩ := ih (allInline_iff.1 (allInline_children hn) k hk) (depth + 1)
    cases n with
    | element e times children => exact ⟨d, mem_nodeMarks_of_child hk hd⟩
    | text value times offset => cases hk
    | group children times offset => cases hn

/-! ## Line breaks in the output -/

/-- Without line breaks and indents the layout has no line break. -/
theorem newline_not_mem_of_isLayout {c : Config} {output : String}
    (h : IsLayout c.htmlStyle.flat output) : '\n' ∉ output.toList := by
  have hchar : ∀ ch ∈ output.toList, ch ≠ '\n' :=
    forall_mem_of_isLayout (c := { c with newline := "", indent := "" }) (by simp [signs]) (by simp)
      (by simp) h
  exact fun hmem ↦ hchar _ hmem rfl

/-- If neither texts nor tab stops hold a line break, then only what is raw does. -/
theorem newline_mem_render_iff {f : Formatters} {style : Style} {depth : Nat} {n : Node}
    {stops : TabStops}
    (htext : ∀ literal, .text literal ∈ (node style depth n stops).1 →
      '\n' ∉ (f.text literal).toList)
    (hstop : ∀ number placeholder, .stop number placeholder ∈ (node style depth n stops).1 →
      '\n' ∉ (f.field number placeholder).toList) :
    '\n' ∈ (Segment.render f (node style depth n stops).1).toList ↔
      ∃ output, .raw output ∈ nodeMarks style depth n ∧ '\n' ∈ output.toList := by
  rw [Segment.mem_render_iff]
  constructor
  · rintro ⟨s, hs, hnewline⟩
    cases s with
    | raw output =>
      rw [node_eq, Mark.raw_mem_segments_iff] at hs
      exact ⟨output, hs, hnewline⟩
    | text literal => exact absurd hnewline (htext literal hs)
    | stop number placeholder => exact absurd hnewline (hstop number placeholder hs)
  · rintro ⟨output, houtput, hnewline⟩
    refine ⟨.raw output, ?_, hnewline⟩
    rw [node_eq, Mark.raw_mem_segments_iff]
    exact houtput

end Html

end Markup

namespace Expansion

open Markup

/-- **When inline contents stay on one line.**  Let the children of an element stay on its line, and
let neither the texts nor the tab stops that are written for it hold a line break.  Then the element
is written on one line exactly if there is no limit, or if none of the nodes below has as many
elements for children as do not stay on one line. -/
theorem newline_not_mem_iff (c : Config) (hnewline : c.newline = "\n") (e : Element)
    (times : Option Multiplier) (children : List Node)
    (hstays : Html.staysOnLine c.htmlStyle children = true) (depth : Nat) (stops : TabStops)
    (htext : ∀ literal,
      .text literal ∈ (Html.node c.htmlStyle depth (.element e times children) stops).1 →
      '\n' ∉ (c.formatters.text literal).toList)
    (hstop : ∀ number placeholder,
      .stop number placeholder ∈ (Html.node c.htmlStyle depth (.element e times children) stops).1 →
      '\n' ∉ (c.formatters.field number placeholder).toList) :
    '\n' ∉ (Segment.render c.formatters
        (Html.node c.htmlStyle depth (.element e times children) stops).1).toList ↔
      c.inlineBreak = 0 ∨ ∀ n ∈ children, ∀ m : Node, m.Within n →
        (m.children.filter Node.isElement).length < c.inlineBreak := by
  have hinline : ∀ n ∈ children, Html.isInline n = true :=
    Html.allInline_iff.1 (Bool.and_eq_true_iff.1 hstays).1
  have hcount := Html.forall_staysOnLine_iff c.htmlStyle hinline
  refine Iff.trans ?_ hcount
  rw [Html.newline_mem_render_iff htext hstop]
  constructor
  · intro h n hn m hm
    by_contra hbreak
    obtain ⟨d, hd⟩ := Html.exists_break_of_within hm (hinline n hn)
      (eq_false_of_ne_true hbreak) (depth + 1)
    refine h ⟨_, Html.mem_nodeMarks_of_child hn hd, ?_⟩
    rw [String.toList_append]
    exact List.mem_append_left _ (by simp [Config.htmlStyle, hnewline])
  · rintro h ⟨output, houtput, hmem⟩
    -- nothing breaks, so the element is written as in a style that has nothing to break lines with
    have hwithin : ∀ m : Node, m.Within (.element e times children) →
        Html.staysOnLine c.htmlStyle m.children = true := by
      intro m hm
      cases hm with
      | self => exact hstays
      | child hk hm => exact h _ hk m hm
    rw [Html.nodeMarks_flat depth _ hwithin] at houtput
    exact Html.newline_not_mem_of_isLayout (Html.laidOut_nodeMarks depth _ output houtput) hmem

/-- An inline element with others in it. -/
def emphasis (names : List String) : Node :=
  .element { name := some "em" } none (names.map fun name ↦ .element { name := some name } none [])

/-- Formatters that leave out line breaks. -/
def unbreaking : Formatters where
  field _ _ := ""
  text literal := String.ofList (literal.toList.filter (· != '\n'))

/-- The default configuration, with these formatters. -/
def unbreakingConfig : Config := { formatters := unbreaking }

/-- Two inline elements inside two others stay on their line. -/
theorem newline_not_mem_emphasis :
    ({} : Config).newline = "\n" ∧
      Html.staysOnLine ({} : Config).htmlStyle [emphasis ["b", "i"]] = true ∧
      Segment.render {} (Html.node ({} : Config).htmlStyle 2
        (.element { name := some "span" } none [emphasis ["b", "i"]]) {}).1
        = "<span><em><b></b><i></i></em></span>" ∧
      ∀ m : Node, m.Within (emphasis ["b", "i"]) →
        (m.children.filter Node.isElement).length < 3 := by
  have hsegments : ∀ s ∈ (Html.node ({} : Config).htmlStyle 2
      (.element { name := some "span" } none [emphasis ["b", "i"]]) {}).1,
      '\n' ∉ (s.format {}).toList := by decide +kernel
  have hline : '\n' ∉ (Segment.render {} (Html.node ({} : Config).htmlStyle 2
      (.element { name := some "span" } none [emphasis ["b", "i"]]) {}).1).toList := by
    decide +kernel
  have hcount := (newline_not_mem_iff {} rfl { name := some "span" } none [emphasis ["b", "i"]]
    (by decide +kernel) 2 {} (fun _ ↦ hsegments _) (fun _ _ ↦ hsegments _)).1 hline
  exact ⟨rfl, by decide +kernel, by decide +kernel,
    hcount.resolve_left (by decide) _ (List.mem_singleton.2 rfl)⟩

/-- Three of them stand on lines of their own.  The element around them breaks in the middle of a
line, although what it stands in stays on that line. -/
theorem emphasis_breaks :
    unbreakingConfig.newline = "\n" ∧ '\n' ∉ unbreakingConfig.indent.toList ∧
      (∀ literal, '\n' ∉ (unbreakingConfig.formatters.text literal).toList) ∧
      (∀ number placeholder,
        '\n' ∉ (unbreakingConfig.formatters.field number placeholder).toList) ∧
      Html.staysOnLine unbreakingConfig.htmlStyle [emphasis ["b", "i", "u"]] = true ∧
      '\n' ∈ (Segment.render unbreakingConfig.formatters (Html.node unbreakingConfig.htmlStyle 0
        (.element { name := some "span" } none [emphasis ["b", "i", "u"]]) {}).1).toList ∧
      expand unbreakingConfig "span>em>b+i+u"
        = .ok "<span><em>\n\t\t<b></b>\n\t\t<i></i>\n\t\t<u></u>\n\t</em></span>" := by
  refine ⟨rfl, by decide, fun literal ↦ ?_, fun number placeholder ↦ ?_, by decide +kernel,
    by decide +kernel, by decide +kernel⟩
  · simp [unbreakingConfig, unbreaking]
  · simp [unbreakingConfig, unbreaking]

end Expansion

end Shorthand
