import Shorthand.Markup.Html
import Shorthand.Proofs.Pairing

/-!
# Output before its stops are numbered

The output of a tree is decided in two steps that do not look at each other: what stands where, and
which number each tab stop gets.  A list of marks is the outcome of the first step; numbering goes
over it from left to right.

Trees whose fields are paired exactly have the same output.  And if two trees of one shape have the
same output however stops are written, then their fields are paired exactly.

* `Mark`, `Mark.segment` : the output with its fields, and how they are numbered.
* `Html.segments_eq_marks` : the output of a tree is that of its marks.
* `Html.paired_marks_iff` : trees of one shape have paired fields exactly when their marks have.
-/

set_option autoImplicit false

namespace Shorthand

/-- A piece of output whose number is still to be found. -/
inductive Mark where
  | raw (output : String)
  | text (literal : String)
  | blank
  | field (field : Field)
  deriving DecidableEq

namespace Mark

/-- The segment that a mark becomes. -/
def segment : Mark → TabStops → Segment × TabStops
  | .raw output, stops => (.raw output, stops)
  | .text literal, stops => (.text literal, stops)
  | .blank, stops => (.stop stops.auto.1 "", stops.auto.2)
  | .field f, stops =>
    (.stop (stops.explicit f.index f.scope).1 f.placeholder, (stops.explicit f.index f.scope).2)

/-- The mark of a part of a value. -/
def ofPart : Part → Mark
  | .text s => .text s
  | .field f => .field f

/-- The segments that marks become. -/
abbrev segments (marks : List Mark) (stops : TabStops) : List Segment × TabStops :=
  Markup.walk segment marks stops

theorem segments_append (ms ns : List Mark) (stops : TabStops) :
    segments (ms ++ ns) stops
      = ((segments ms stops).1 ++ (segments ns (segments ms stops).2).1,
          (segments ns (segments ms stops).2).2) := by
  induction ms generalizing stops with
  | nil => rfl
  | cons m ms ih => simp only [segments, List.cons_append, Markup.walk_cons] at ih ⊢; rw [ih]

@[simp] theorem segments_nil (stops : TabStops) : segments [] stops = ([], stops) := rfl

@[simp] theorem segments_raw (output : String) (ms : List Mark) (stops : TabStops) :
    segments (.raw output :: ms) stops
      = (.raw output :: (segments ms stops).1, (segments ms stops).2) := rfl

@[simp] theorem segments_text (literal : String) (ms : List Mark) (stops : TabStops) :
    segments (.text literal :: ms) stops
      = (.text literal :: (segments ms stops).1, (segments ms stops).2) := rfl

end Mark

/-- Marks whose fields are paired at a stage. -/
inductive Markup.Stage.Mark (S : Markup.Stage) : Mark → Mark → Prop where
  | raw (output : String) : Stage.Mark S (.raw output) (.raw output)
  | text (literal : String) : Stage.Mark S (.text literal) (.text literal)
  | blank : Stage.Mark S .blank .blank
  | field {f g : Field} (h : S.field f g) : Stage.Mark S (.field f) (.field g)

namespace Markup.Html

/-! ## The marks of a tree -/

/-- The marks of a value. -/
def valueMarks (v : Value) : List Mark := v.map Mark.ofPart

/-- The marks of an attribute: its name, then its value between quotes. -/
def assignmentMarks (style : Style) (name : Mark) (v : Value) : List Mark :=
  .raw " " :: name :: .raw "=" :: .raw style.quote ::
    ((if v.isEmpty then [.blank] else valueMarks v) ++ [.raw style.quote])

/-- The marks of an opening tag. -/
def openingMarks (style : Style) (e : Element) : List Mark :=
  .raw "<" :: .text (e.name.getD "") ::
    (e.id.toList.flatMap (assignmentMarks style (.raw "id")) ++
    ((if e.classes.isEmpty then []
      else assignmentMarks style (.raw "class") (joinClasses e.classes)) ++
    e.attributes.flatMap fun a ↦ assignmentMarks style (.text a.name) a.value))

/-- The marks of a closing tag. -/
def closingMarks (e : Element) : List Mark := [.raw "</", .text (e.name.getD ""), .raw ">"]

/-- The line break before the contents of an element, if there is one. -/
def breakMarks (style : Style) (children : List Node) (depth : Nat) : List Mark :=
  if staysOnLine style children then [] else [.raw (style.newline ++ indentAt style depth)]

/-- The marks after the opening tag of an element; `below` are those of its children. -/
def insideMarks (style : Style) (depth : Nat) (e : Element) (text : Option Value)
    (children : List Node) (below : List Mark) : List Mark :=
  if text.isNone && children.isEmpty then
    if isVoid style e then [.raw style.emptyTagEnd] else .raw ">" :: .blank :: closingMarks e
  else
    .raw ">" ::
      (text.toList.flatMap (breakMarks style children (depth + 1) ++ valueMarks ·) ++
      (below ++ (breakMarks style children depth ++ closingMarks e)))

mutual

/-- The marks of a node at a depth. -/
def nodeMarks (style : Style) (depth : Nat) : Node → List Mark
  | .text v _ _ => valueMarks v
  | .group _ _ _ => []
  | .element e _ children =>
    openingMarks style e ++ insideMarks style depth e (textOf e) children
      (linesMarks style (depth + 1) (breakMarks style children (depth + 1)) children)

/-- The marks of a list of nodes at a depth, with `lead` before each of them. -/
def linesMarks (style : Style) (depth : Nat) (lead : List Mark) : List Node → List Mark
  | [] => []
  | n :: ns => lead ++ (nodeMarks style depth n ++ linesMarks style depth lead ns)

end

/-- The marks of a tree. -/
def marks (style : Style) (nodes : List Node) : List Mark :=
  let lead := if staysOnLine style nodes then [] else [.raw style.newline]
  match nodes with
  | [] => []
  | n :: ns => nodeMarks style 0 n ++ linesMarks style 0 lead ns

/-! ## The output is that of the marks -/

theorem value_eq (v : Value) (stops : TabStops) :
    value v stops = Mark.segments (valueMarks v) stops := by
  rw [value]
  induction v generalizing stops with
  | nil => rfl
  | cons p v ih => cases p <;> simp only [Segment.ofValue, Segment.ofPart, ih] <;> rfl

theorem assignment_eq (style : Style) {name : Mark} {written : Segment}
    (hname : ∀ stops, name.segment stops = (written, stops)) (v : Value) (stops : TabStops) :
    assignment style [written] v stops = Mark.segments (assignmentMarks style name v) stops := by
  have hvalue : attributeValue v stops
      = Mark.segments (if v.isEmpty then [.blank] else valueMarks v) stops := by
    rw [attributeValue]
    split
    · rfl
    · exact value_eq v stops
  have hcons : ∀ ms, Mark.segments (name :: ms) stops
      = (written :: (Mark.segments ms stops).1, (Mark.segments ms stops).2) := by
    intro ms
    rw [Mark.segments, walk_cons, hname]
  simp only [assignment, hvalue, assignmentMarks, Mark.segments_raw, hcons, Mark.segments_append,
    Mark.segments_nil]
  simp

theorem attributes_eq (style : Style) (as : List Attribute) (stops : TabStops) :
    attributes style as stops
      = Mark.segments (as.flatMap fun a ↦ assignmentMarks style (.text a.name) a.value) stops := by
  induction as generalizing stops with
  | nil => rfl
  | cons a as ih =>
    rw [List.flatMap_cons, Mark.segments_append, ← assignment_eq style (fun _ ↦ rfl), ← ih]
    rfl

theorem classes_eq (style : Style) (classes : List Value) (stops : TabStops) :
    (if classes.isEmpty then ([], stops)
      else assignment style [.raw "class"] (joinClasses classes) stops)
      = Mark.segments (if classes.isEmpty then []
          else assignmentMarks style (.raw "class") (joinClasses classes)) stops := by
  split
  · rfl
  · exact assignment_eq style (fun _ ↦ rfl) _ stops

theorem opening_eq (style : Style) (e : Element) (stops : TabStops) :
    opening style e stops = Mark.segments (openingMarks style e) stops := by
  have hid : ∀ v stops, assignment style [.raw "id"] v stops
      = Mark.segments (assignmentMarks style (.raw "id") v) stops := assignment_eq style fun _ ↦ rfl
  cases he : e.id <;>
    simp only [opening, he, hid, classes_eq, attributes_eq, openingMarks, Mark.segments_raw,
      Mark.segments_text, Mark.segments_append, Option.toList_none, Option.toList_some,
      List.flatMap_nil, List.flatMap_singleton, List.nil_append, List.cons_append,
      List.append_assoc]

theorem closing_eq (e : Element) (stops : TabStops) :
    Mark.segments (closingMarks e) stops
      = ([.raw "</", .text (e.name.getD ""), .raw ">"], stops) := rfl

theorem break_eq (style : Style) (children : List Node) (depth : Nat) (stops : TabStops) :
    Mark.segments (breakMarks style children depth) stops
      = (if staysOnLine style children then []
          else [.raw (style.newline ++ indentAt style depth)], stops) := by
  rw [breakMarks]
  split <;> rfl

mutual

theorem node_eq (style : Style) (depth : Nat) (n : Node) (stops : TabStops) :
    node style depth n stops = Mark.segments (nodeMarks style depth n) stops := by
  cases n with
  | text v times offset => exact value_eq v stops
  | group children times offset => rfl
  | element e times children =>
    have hlines := lines_eq style (depth + 1) (break_eq style children (depth + 1)) children
    rw [node, nodeMarks, opening_eq, Mark.segments_append]
    dsimp only
    rcases ht : textOf e with _ | v <;> rcases children with _ | ⟨child, children⟩
    · simp only [insideMarks, Option.isNone_none, List.isEmpty_nil, Bool.and_self, if_true]
      split
      · rfl
      · rw [List.append_assoc]
        rfl
    all_goals
      simp only [insideMarks, Option.isNone_none, Option.isNone_some, List.isEmpty_nil,
        List.isEmpty_cons, Bool.and_false, Bool.false_and, Bool.false_eq_true, if_false, hlines,
        value_eq, Mark.segments_raw, Mark.segments_append, break_eq, closing_eq,
        Option.toList_none, Option.toList_some, List.flatMap_nil, List.flatMap_singleton,
        List.nil_append, List.append_assoc, List.cons_append]

theorem lines_eq (style : Style) (depth : Nat) {lead : List Mark} {written : List Segment}
    (hlead : ∀ stops, Mark.segments lead stops = (written, stops)) (ns : List Node)
    (stops : TabStops) :
    lines style depth written ns stops = Mark.segments (linesMarks style depth lead ns) stops := by
  cases ns with
  | nil => rfl
  | cons n ns =>
    rw [lines, linesMarks, Mark.segments_append, Mark.segments_append, hlead,
      ← node_eq style depth n, ← lines_eq style depth hlead ns]
    simp

end

/-- The output of a tree is that of its marks. -/
theorem segments_eq_marks (style : Style) (nodes : List Node) :
    segments style nodes = (Mark.segments (marks style nodes) {}).1 := by
  cases nodes with
  | nil => rfl
  | cons n ns =>
    have hlead : ∀ stops, Mark.segments
        (if staysOnLine style (n :: ns) then [] else [.raw style.newline]) stops
        = (if staysOnLine style (n :: ns) then [] else [.raw style.newline], stops) := by
      intro stops
      split <;> rfl
    simp only [segments, marks, Mark.segments_append, ← node_eq, ← lines_eq style 0 hlead]

/-! ## Trees of one shape -/

section Shape

variable {S T : Stage}

theorem valueMarks_iff {v w : Value} :
    List.Forall₂ T.Mark (valueMarks v) (valueMarks w) ↔ T.value v w := by
  rw [valueMarks, valueMarks, List.forall₂_map_left_iff, List.forall₂_map_right_iff]
  constructor
  · refine List.Forall₂.imp fun p q hpq ↦ ?_
    cases p <;> cases q <;> cases hpq
    · exact .text _
    · exact .field ‹_›
  · refine List.Forall₂.imp fun p q hpq ↦ ?_
    cases hpq with
    | text s => exact .text s
    | field h => exact .field h

theorem isEmpty_eq_of_forall₂ {α β : Type} {p : α → β → Prop} {as : List α} {bs : List β}
    (h : List.Forall₂ p as bs) : as.isEmpty = bs.isEmpty := by
  cases h <;> rfl

/-- Marks cut in the same place are paired before it and after it. -/
theorem forall₂_append_iff {α β : Type} {p : α → β → Prop} {as as' : List α} {bs bs' : List β}
    (hlen : as.length = bs.length) :
    List.Forall₂ p (as ++ as') (bs ++ bs') ↔ List.Forall₂ p as bs ∧ List.Forall₂ p as' bs' := by
  induction as generalizing bs with
  | nil =>
    obtain rfl := List.length_eq_zero_iff.1 hlen.symm
    simp
  | cons a as ih =>
    cases bs with
    | nil => simp at hlen
    | cons b bs =>
      rw [List.cons_append, List.cons_append, List.forall₂_cons, List.forall₂_cons,
        ih (by simpa using hlen), and_assoc]

theorem assignmentMarks_iff (style : Style) {name : Mark} (hname : T.Mark name name)
    {v w : Value} (h : S.value v w) :
    List.Forall₂ T.Mark (assignmentMarks style name v) (assignmentMarks style name w)
      ↔ T.value v w := by
  have hraw : ∀ output, T.Mark (.raw output) (.raw output) := .raw
  have hquote : List.Forall₂ T.Mark [.raw style.quote] [.raw style.quote] := .cons (.raw _) .nil
  simp only [assignmentMarks, List.forall₂_cons, hraw, hname, true_and]
  cases h with
  | nil =>
    simp only [List.isEmpty_nil, if_true, List.cons_append, List.nil_append, List.forall₂_cons,
      hraw, true_and]
    exact ⟨fun _ ↦ .nil, fun _ ↦ ⟨.blank, .nil⟩⟩
  | @cons p q v w hp hv =>
    have hlen : (valueMarks (p :: v)).length = (valueMarks (q :: w)).length := by
      simp [valueMarks, hv.length_eq]
    simp only [List.isEmpty_cons, Bool.false_eq_true, if_false]
    rw [forall₂_append_iff hlen, valueMarks_iff]
    exact and_iff_left hquote

theorem joinClasses_iff {vs ws : List Value} (h : List.Forall₂ S.value vs ws) :
    T.value (joinClasses vs) (joinClasses ws) ↔ List.Forall₂ T.value vs ws := by
  suffices hfold : ∀ j k : Value, S.value j k →
      (T.value (vs.foldl (fun joined v ↦ if joined.isEmpty then v else joined ++ .text " " :: v) j)
        (ws.foldl (fun joined v ↦ if joined.isEmpty then v else joined ++ .text " " :: v) k)
        ↔ T.value j k ∧ List.Forall₂ T.value vs ws) by
    exact (hfold [] [] .nil).trans (and_iff_right .nil)
  induction h with
  | nil => simp
  | @cons v w vs ws hv _ ih =>
    intro j k hjk
    rw [List.foldl_cons, List.foldl_cons]
    cases hjk with
    | nil =>
      simp only [List.isEmpty_nil, if_true]
      rw [ih v w hv, List.forall₂_cons]
      exact (and_iff_right .nil).symm
    | @cons p q j k hp hj =>
      have hjoin : S.value (p :: j ++ .text " " :: v) (q :: k ++ .text " " :: w) :=
        List.rel_append (.cons hp hj) (.cons (.text " ") hv)
      simp only [List.isEmpty_cons, Bool.false_eq_true, if_false]
      rw [ih _ _ hjoin, List.forall₂_cons (a := v), ← and_assoc]
      refine and_congr_left' ((forall₂_append_iff (by simp [hj.length_eq])).trans ?_)
      exact and_congr_right' (List.forall₂_cons.trans (and_iff_right (.text " ")))

theorem attributesMarks_iff (style : Style) {as bs : List Attribute}
    (h : List.Forall₂ (Likeness.outcome S).attr as bs) :
    List.Forall₂ T.Mark (as.flatMap fun a ↦ assignmentMarks style (.text a.name) a.value)
        (bs.flatMap fun a ↦ assignmentMarks style (.text a.name) a.value)
      ↔ List.Forall₂ (Likeness.outcome T).attr as bs := by
  induction h with
  | nil => simp
  | @cons a b as bs hab _ ih =>
    have hS := (assignmentMarks_iff (T := S) style (.text a.name) hab.2.1).2 hab.2.1
    rw [List.flatMap_cons, List.flatMap_cons, ← hab.1, forall₂_append_iff hS.length_eq, ih,
      assignmentMarks_iff style (.text a.name) hab.2.1, List.forall₂_cons]
    exact and_congr_left' ⟨fun hv ↦ ⟨hab.1, hv, trivial⟩, fun h ↦ h.2.1⟩

theorem openingMarks_iff (style : Style) {e f : Element} (h : e.Like (.outcome S) f) :
    List.Forall₂ T.Mark (openingMarks style e) (openingMarks style f)
      ↔ Option.Rel T.value e.id f.id ∧ List.Forall₂ T.value e.classes f.classes ∧
        List.Forall₂ (Likeness.outcome T).attr e.attributes f.attributes := by
  have hid : ∀ U : Stage, (Option.Rel U.value e.id f.id ↔
      List.Forall₂ U.Mark (e.id.toList.flatMap (assignmentMarks style (.raw "id")))
        (f.id.toList.flatMap (assignmentMarks style (.raw "id")))) := by
    intro U
    have hids := h.id
    revert hids
    cases e.id <;> cases f.id <;> intro hids <;> cases hids
    · exact ⟨fun _ ↦ .nil, fun _ ↦ .none⟩
    · next hvw =>
      simp only [Option.toList_some, List.flatMap_singleton, Option.rel_some_some]
      exact (assignmentMarks_iff style (.raw "id") hvw).symm
  have hclasses : ∀ U : Stage, (List.Forall₂ U.value e.classes f.classes ↔
      List.Forall₂ U.Mark
        (if e.classes.isEmpty then []
          else assignmentMarks style (.raw "class") (joinClasses e.classes))
        (if f.classes.isEmpty then []
          else assignmentMarks style (.raw "class") (joinClasses f.classes))) := by
    intro U
    have hjoin := (joinClasses_iff (T := S) h.classes).2 h.classes
    rw [← isEmpty_eq_of_forall₂ h.classes]
    split
    · next hempty =>
      have hempty' := (isEmpty_eq_of_forall₂ h.classes).symm.trans hempty
      rw [List.isEmpty_iff.1 hempty, List.isEmpty_iff.1 hempty']
      exact ⟨fun _ ↦ .nil, fun _ ↦ .nil⟩
    · rw [assignmentMarks_iff style (.raw "class") hjoin, joinClasses_iff h.classes]
  have hidS := (hid S).1 h.id
  have hclassesS := (hclasses S).1 h.classes
  rw [openingMarks, openingMarks, ← h.name, List.forall₂_cons, List.forall₂_cons,
    forall₂_append_iff hidS.length_eq, forall₂_append_iff hclassesS.length_eq, ← hid, ← hclasses,
    attributesMarks_iff style h.attributes, and_iff_right (.raw "<"), and_iff_right (.text _)]

theorem textOf_iff {e f : Element} (h : e.Like (.outcome S) f) :
    Option.Rel T.value (textOf e) (textOf f) ↔ Option.Rel T.value e.text f.text := by
  have htext := h.text
  rw [textOf, textOf]
  revert htext
  cases e.text <;> cases f.text <;> intro htext <;> cases htext
  · rfl
  · next hvw =>
    cases hvw with
    | nil => exact ⟨fun _ ↦ .some .nil, fun _ ↦ .none⟩
    | cons => rfl

mutual

theorem isInline_eq : ∀ {n m : Node}, n.Like (.outcome S) m → isInline n = isInline m
  | _, _, .element he _ hc => by rw [isInline, isInline, he.name, allInline_eq hc]
  | _, _, .text _ _ _ _ => rfl
  | _, _, .group _ _ _ _ => rfl

theorem allInline_eq : ∀ {ns ms : List Node}, Node.AllLike (.outcome S) ns ms →
    allInline ns = allInline ms
  | _, _, .nil => rfl
  | _, _, .cons hn hns => by rw [allInline, allInline, isInline_eq hn, allInline_eq hns]

end

theorem staysOnLine_eq (style : Style) {ns ms : List Node} (h : Node.AllLike (.outcome S) ns ms) :
    staysOnLine style ns = staysOnLine style ms := by
  rw [staysOnLine, staysOnLine, allInline_eq h, h.elements_eq]

theorem breakMarks_same (style : Style) (ns : List Node) (depth : Nat) :
    List.Forall₂ T.Mark (breakMarks style ns depth) (breakMarks style ns depth) := by
  rw [breakMarks]
  split
  · exact .nil
  · exact .cons (.raw _) .nil

theorem closingMarks_same {e f : Element} (h : e.name = f.name) :
    List.Forall₂ T.Mark (closingMarks e) (closingMarks f) := by
  rw [closingMarks, closingMarks, h]
  exact .cons (.raw _) (.cons (.text _) (.cons (.raw _) .nil))

theorem insideMarks_iff (style : Style) (depth : Nat) {e f : Element} {ns ms : List Node}
    {below below' : List Mark} (he : e.Like (.outcome S) f)
    (hc : Node.AllLike (.outcome S) ns ms) (hlen : below.length = below'.length)
    (hbelow : ns = [] → below = []) (hbelow' : ms = [] → below' = []) :
    List.Forall₂ T.Mark (insideMarks style depth e (textOf e) ns below)
        (insideMarks style depth f (textOf f) ms below')
      ↔ Option.Rel T.value e.text f.text ∧ List.Forall₂ T.Mark below below' := by
  have hbreak : ∀ depth, breakMarks style ms depth = breakMarks style ns depth := fun depth ↦ by
    rw [breakMarks, breakMarks, staysOnLine_eq style hc]
  have hvoid : isVoid style f = isVoid style e := by rw [isVoid, isVoid, he.name, he.selfClosing]
  have hclosing := closingMarks_same (T := T) he.name
  have hvalues := (textOf_iff he).2 he.text
  rw [← textOf_iff he, insideMarks, insideMarks]
  simp only [hbreak, hvoid]
  revert hvalues
  rcases textOf e with _ | v <;> rcases textOf f with _ | w <;> intro hvalues <;> cases hvalues
  · cases hc with
    | nil =>
      obtain rfl := hbelow rfl
      obtain rfl := hbelow' rfl
      simp only [Option.isNone_none, List.isEmpty_nil, Bool.and_self, if_true]
      refine iff_of_true ?_ ⟨.none, .nil⟩
      split
      · exact .cons (.raw _) .nil
      · exact .cons (.raw _) (.cons .blank hclosing)
    | cons hn hns =>
      simp only [Option.isNone_none, List.isEmpty_cons, Bool.and_false, Bool.false_eq_true,
        if_false, Option.toList_none, List.flatMap_nil, List.nil_append, List.forall₂_cons]
      rw [forall₂_append_iff hlen, and_iff_right (.raw _), and_iff_right Option.Rel.none]
      exact and_iff_left (List.rel_append (breakMarks_same style _ _) hclosing)
  · next hvw =>
    simp only [Option.isNone_some, Bool.false_and, Bool.false_eq_true, if_false,
      Option.toList_some, List.flatMap_singleton, List.forall₂_cons, List.append_assoc,
      Option.rel_some_some]
    rw [and_iff_right (.raw _), forall₂_append_iff rfl,
      and_iff_right (breakMarks_same style _ _),
      forall₂_append_iff (by simp [valueMarks, hvw.length_eq]), valueMarks_iff,
      forall₂_append_iff hlen]
    exact and_congr_right' (and_iff_left (List.rel_append (breakMarks_same style _ _) hclosing))

mutual

theorem nodeMarks_iff (style : Style) (T : Stage) : ∀ (depth : Nat) {n m : Node},
    n.Like (.outcome S) m → n.hasGroup = false →
    (List.Forall₂ T.Mark (nodeMarks style depth n) (nodeMarks style depth m)
      ↔ n.Like (.outcome T) m)
  | depth, _, _, @Node.Like.element _ e f _ _ ns ms he ht hc, hgroup => by
    have hS := (linesMarks_iff style S (depth + 1) (breakMarks_same style ns (depth + 1)) hc
      hgroup).2 hc
    have hT := linesMarks_iff style T (depth + 1) (breakMarks_same style ns (depth + 1)) hc hgroup
    have hopening := (openingMarks_iff (T := S) style he).2 ⟨he.id, he.classes, he.attributes⟩
    have hbreak : breakMarks style ms (depth + 1) = breakMarks style ns (depth + 1) := by
      rw [breakMarks, breakMarks, staysOnLine_eq style hc]
    rw [nodeMarks, nodeMarks, forall₂_append_iff hopening.length_eq, openingMarks_iff style he,
      hbreak, insideMarks_iff style depth he hc hS.length_eq ?_ ?_, hT]
    · constructor
      · rintro ⟨⟨hid, hclasses, hattributes⟩, htext, hbelow⟩
        exact .element ⟨he.name, hid, hclasses, hattributes, htext, he.selfClosing⟩ trivial hbelow
      · rintro (⟨he', -, hc'⟩)
        exact ⟨⟨he'.id, he'.classes, he'.attributes⟩, he'.text, hc'⟩
    · rintro rfl
      rfl
    · rintro rfl
      rfl
  | depth, _, _, .text i j hv _, _ => by
    rw [nodeMarks, nodeMarks, valueMarks_iff]
    constructor
    · exact fun hv ↦ .text i j hv trivial
    · rintro (_ | ⟨-, -, hv, -⟩)
      exact hv
  | _, _, _, .group _ _ _ _, hgroup => by simp [Node.hasGroup] at hgroup

theorem linesMarks_iff (style : Style) (T : Stage) : ∀ (depth : Nat) {lead : List Mark},
    List.Forall₂ T.Mark lead lead → ∀ {ns ms : List Node}, Node.AllLike (.outcome S) ns ms →
    Node.anyGroup ns = false →
    (List.Forall₂ T.Mark (linesMarks style depth lead ns) (linesMarks style depth lead ms)
      ↔ Node.AllLike (.outcome T) ns ms)
  | _, _, _, _, _, .nil, _ => iff_of_true .nil .nil
  | depth, lead, hlead, _, _, .cons hn hns, hgroup => by
    obtain ⟨hg, hgs⟩ := Bool.or_eq_false_iff.1 hgroup
    have hS := (nodeMarks_iff style S depth hn hg).2 hn
    rw [linesMarks, linesMarks, forall₂_append_iff rfl, and_iff_right hlead,
      forall₂_append_iff hS.length_eq, nodeMarks_iff style T depth hn hg,
      linesMarks_iff style T depth hlead hns hgs]
    constructor
    · exact fun h ↦ .cons h.1 h.2
    · rintro (_ | ⟨hn, hns⟩)
      exact ⟨hn, hns⟩

end

/-- Trees of one shape have paired fields exactly when their marks have. -/
theorem paired_marks_iff (style : Style) {ns ms : List Node} (h : Node.AllLike (.outcome S) ns ms)
    (hgroup : Node.anyGroup ns = false) :
    List.Forall₂ T.Mark (marks style ns) (marks style ms) ↔ Node.AllLike (.outcome T) ns ms := by
  have hstays := staysOnLine_eq style h
  cases h with
  | nil => exact iff_of_true .nil .nil
  | cons hn hns =>
    obtain ⟨hg, hgs⟩ := Bool.or_eq_false_iff.1 hgroup
    have hS := (nodeMarks_iff style S 0 hn hg).2 hn
    rw [marks, marks, ← hstays, forall₂_append_iff hS.length_eq, nodeMarks_iff style T 0 hn hg,
      linesMarks_iff style T 0 ?_ hns hgs]
    · constructor
      · exact fun h ↦ .cons h.1 h.2
      · rintro (_ | ⟨hn, hns⟩)
        exact ⟨hn, hns⟩
    · split
      · exact .nil
      · exact .cons (.raw _) .nil

end Shape

end Markup.Html

end Shorthand
