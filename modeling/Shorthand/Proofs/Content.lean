import Shorthand.Proofs.Marks
import Shorthand.Stylesheet.Declaration

/-!
# What output shows

Output is brackets, quotes, blanks and line breaks around what it shows: literal text and places for
the cursor.  The content of a tree can be said without any layout, in reading order: the name of an
element, its id, classes and attributes, its text, its children and its name again.

Declarations have marks, too.  Every declaration numbers its fields for itself, so the scope of a
field is the number of its declaration.

* `Html.content` : what the output of a tree shows.
* `Html.content_marks` : it is what is left of the marks of the tree without the raw ones.
* `Declaration.writeAll_eq_marks` : the output of declarations is that of their marks.
-/

set_option autoImplicit false

namespace Shorthand

/-! ## Texts and places -/

/-- A place for the cursor: an empty one, or a field. -/
inductive Place where
  | blank
  | field (field : Field)
  deriving DecidableEq

/-- What is written at a place until the user types there. -/
def Place.placeholder : Place → String
  | .blank => ""
  | .field f => f.placeholder

namespace Mark

/-- Is the mark a part of the layout? -/
def isRaw : Mark → Bool
  | .raw _ => true
  | _ => false

/-- What marks show. -/
def content (ms : List Mark) : List Mark := ms.filter fun m ↦ !m.isRaw

/-- The literal text of a mark. -/
def text? : Mark → Option String
  | .text literal => some literal
  | _ => none

/-- The place of a mark. -/
def place? : Mark → Option Place
  | .blank => some .blank
  | .field f => some (.field f)
  | _ => none

@[simp] theorem content_append (ms ns : List Mark) :
    content (ms ++ ns) = content ms ++ content ns := List.filter_append ..

@[simp] theorem content_nil : content [] = [] := rfl

@[simp] theorem content_raw (output : String) (ms : List Mark) :
    content (.raw output :: ms) = content ms := rfl

@[simp] theorem content_text (literal : String) (ms : List Mark) :
    content (.text literal :: ms) = .text literal :: content ms := rfl

@[simp] theorem content_blank (ms : List Mark) : content (.blank :: ms) = .blank :: content ms :=
  rfl

theorem content_flatMap {α : Type} (f : α → List Mark) (as : List α) :
    content (as.flatMap f) = as.flatMap fun a ↦ content (f a) := by
  induction as with
  | nil => rfl
  | cons a as ih => rw [List.flatMap_cons, content_append, ih, List.flatMap_cons]

/-- Layout holds neither text nor places. -/
theorem filterMap_content {α : Type} {f : Mark → Option α} (hraw : ∀ output, f (.raw output) = none)
    (ms : List Mark) : (content ms).filterMap f = ms.filterMap f := by
  induction ms with
  | nil => rfl
  | cons m ms ih =>
    cases m with
    | raw output => rw [content_raw, ih, List.filterMap_cons, hraw]
    | text literal => rw [content_text, List.filterMap_cons, List.filterMap_cons, ih]
    | blank => rw [content_blank, List.filterMap_cons, List.filterMap_cons, ih]
    | field f =>
      change List.filterMap _ (.field f :: content ms) = _
      rw [List.filterMap_cons, List.filterMap_cons, ih]

/-- Numbering leaves raw output alone. -/
theorem raw_mem_segments {output : String} {ms : List Mark} {stops : TabStops}
    (h : .raw output ∈ (segments ms stops).1) : .raw output ∈ ms := by
  induction ms generalizing stops with
  | nil => simp at h
  | cons m ms ih =>
    rcases List.mem_cons.1 h with h | h
    · cases m <;> cases h
      exact List.mem_cons_self
    · exact List.mem_cons_of_mem m (ih h)

end Mark

namespace Segment

/-- The literal texts of output, in order. -/
def texts (segments : List Segment) : List String :=
  segments.filterMap fun | .text literal => some literal | _ => none

/-- The tab stops of output with their placeholders, in order. -/
def stops (segments : List Segment) : List (Nat × String) :=
  segments.filterMap fun | .stop number placeholder => some (number, placeholder) | _ => none

/-- Numbering leaves the texts alone. -/
theorem texts_segments (ms : List Mark) (stops : TabStops) :
    texts (Mark.segments ms stops).1 = ms.filterMap Mark.text? := by
  induction ms generalizing stops with
  | nil => rfl
  | cons m ms ih =>
    cases m with
    | raw output => exact ih stops
    | text literal => exact congrArg (literal :: ·) (ih stops)
    | blank => exact ih stops.auto.2
    | field f => exact ih (stops.explicit f.index f.scope).2

end Segment

/-! ## Trees -/

namespace Markup.Html

/-- The content of an attribute value. -/
def attributeContent (v : Value) : List Mark := if v.isEmpty then [.blank] else valueMarks v

/-- The classes of an element with blanks between them; empty ones at the beginning are passed
over. -/
def spaced (classes : List Value) : Value :=
  [Part.text " "].intercalate (classes.dropWhile (·.isEmpty))

/-- The content of an opening tag. -/
def openingContent (e : Element) : List Mark :=
  .text (e.name.getD "") ::
    (e.id.toList.flatMap attributeContent ++
    ((if e.classes.isEmpty then [] else attributeContent (spaced e.classes)) ++
    e.attributes.flatMap fun a ↦ .text a.name :: attributeContent a.value))

/-- The content of an element after its opening tag; `below` is that of its children. -/
def insideContent (style : Style) (e : Element) (children : List Node) (below : List Mark) :
    List Mark :=
  if (textOf e).isNone && children.isEmpty then
    if isVoid style e then [] else [.blank, .text (e.name.getD "")]
  else valueMarks ((textOf e).getD []) ++ below ++ [.text (e.name.getD "")]

mutual

/-- The content of a node. -/
def nodeContent (style : Style) : Node → List Mark
  | .text v _ _ => valueMarks v
  | .group _ _ _ => []
  | .element e _ children =>
    openingContent e ++ insideContent style e children (content style children)

/-- The content of a tree, in reading order. -/
def content (style : Style) : List Node → List Mark
  | [] => []
  | n :: ns => nodeContent style n ++ content style ns

end

/-- The classes are joined with blanks. -/
theorem joinClasses_eq (classes : List Value) : joinClasses classes = spaced classes := by
  have hjoin : ∀ (classes : List Value) (v : Value), v ≠ [] →
      classes.foldl (fun joined v ↦ if joined.isEmpty then v else joined ++ .text " " :: v) v
        = [Part.text " "].intercalate (v :: classes) := by
    intro classes
    induction classes with
    | nil => simp
    | cons w classes ih =>
      intro v hv
      have hne : v.isEmpty = false := by simpa using hv
      rw [List.foldl_cons, hne, if_neg (by simp), ih _ (by simp), List.intercalate_cons_cons]
      cases classes <;> simp [List.intercalate_cons_cons]
  rw [joinClasses, spaced]
  induction classes with
  | nil => rfl
  | cons v classes ih =>
    rw [List.foldl_cons, List.isEmpty_nil, if_pos rfl]
    cases v with
    | nil => exact ih
    | cons p v => exact hjoin classes (p :: v) (by simp)

@[simp] theorem content_valueMarks (v : Value) : Mark.content (valueMarks v) = valueMarks v := by
  refine List.filter_eq_self.2 fun m hm ↦ ?_
  obtain ⟨p, -, rfl⟩ := List.mem_map.1 hm
  cases p <;> rfl

theorem content_assignmentMarks (style : Style) (name : Mark) (v : Value) :
    Mark.content (assignmentMarks style name v) = Mark.content [name] ++ attributeContent v := by
  rw [assignmentMarks, Mark.content_raw, ← List.singleton_append, Mark.content_append,
    Mark.content_raw, Mark.content_raw, Mark.content_append, attributeContent]
  split <;> simp

theorem content_openingMarks (style : Style) (e : Element) :
    Mark.content (openingMarks style e) = openingContent e := by
  have hraw : ∀ output, Mark.content [.raw output] = [] := fun _ ↦ rfl
  have htext : ∀ literal, Mark.content [.text literal] = [.text literal] := fun _ ↦ rfl
  simp only [openingMarks, openingContent, Mark.content_raw, Mark.content_text,
    Mark.content_append, Mark.content_flatMap, content_assignmentMarks, hraw, htext,
    List.nil_append, List.singleton_append, joinClasses_eq]
  congr 3
  split
  · rfl
  · rw [content_assignmentMarks, hraw, List.nil_append]

theorem content_breakMarks (style : Style) (children : List Node) (depth : Nat) :
    Mark.content (breakMarks style children depth) = [] := by
  rw [breakMarks]
  split <;> rfl

theorem content_insideMarks (style : Style) (depth : Nat) (e : Element) (children : List Node)
    (below : List Mark) :
    Mark.content (insideMarks style depth e (textOf e) children below)
      = insideContent style e children (Mark.content below) := by
  have hclosing : Mark.content (closingMarks e) = [.text (e.name.getD "")] := rfl
  rw [insideMarks, insideContent]
  split
  · split
    · rfl
    · rw [Mark.content_raw, Mark.content_blank, hclosing]
  · cases textOf e <;>
      simp only [Mark.content_raw, Mark.content_append, content_breakMarks, hclosing,
        Option.toList_none, Option.toList_some, List.flatMap_nil, List.flatMap_singleton,
        Option.getD_none, Option.getD_some, content_valueMarks, List.nil_append,
        List.append_assoc]
    rfl

mutual

theorem content_nodeMarks (style : Style) (depth : Nat) : ∀ n : Node,
    Mark.content (nodeMarks style depth n) = nodeContent style n
  | .text v _ _ => content_valueMarks v
  | .group _ _ _ => rfl
  | .element e _ children => by
    rw [nodeMarks, nodeContent, Mark.content_append, content_openingMarks, content_insideMarks,
      content_linesMarks style _ (content_breakMarks style children (depth + 1))]

theorem content_linesMarks (style : Style) (depth : Nat) {lead : List Mark}
    (hlead : Mark.content lead = []) : ∀ ns : List Node,
    Mark.content (linesMarks style depth lead ns) = content style ns
  | [] => rfl
  | n :: ns => by
    rw [linesMarks, content, Mark.content_append, Mark.content_append, hlead, List.nil_append,
      content_nodeMarks style depth n, content_linesMarks style depth hlead ns]

end

/-- The marks of a tree without the raw ones are its content. -/
theorem content_marks (style : Style) (nodes : List Node) :
    Mark.content (marks style nodes) = content style nodes := by
  have hlead : Mark.content (if staysOnLine style nodes then [] else [.raw style.newline])
      = [] := by
    split <;> rfl
  cases nodes with
  | nil => rfl
  | cons n ns =>
    rw [marks, content, Mark.content_append, content_nodeMarks, content_linesMarks style 0 hlead]

/-- The places of a tree, in reading order. -/
def places (style : Style) (nodes : List Node) : List Place :=
  (content style nodes).filterMap Mark.place?

/-- The literal texts of a tree, in reading order. -/
def texts (style : Style) (nodes : List Node) : List String :=
  (content style nodes).filterMap Mark.text?

theorem places_marks (style : Style) (nodes : List Node) :
    (marks style nodes).filterMap Mark.place? = places style nodes := by
  rw [places, ← content_marks, Mark.filterMap_content fun _ ↦ rfl]

theorem texts_marks (style : Style) (nodes : List Node) :
    (marks style nodes).filterMap Mark.text? = texts style nodes := by
  rw [texts, ← content_marks, Mark.filterMap_content fun _ ↦ rfl]

end Markup.Html

/-! ## Declarations -/

namespace Stylesheet.Declaration

/-- The places of a declaration: its fields, in a scope of their own, or an empty place if it has no
value. -/
def places (scope : Nat) (d : Declaration) : List Place :=
  match d.value.getD [] with
  | [] => [.blank]
  | v => v.fields.map fun f ↦ .field { f with scope }

/-- The places of declarations, in reading order; the first of them has number `scope`. -/
def placesFrom (scope : Nat) : List Declaration → List Place
  | [] => []
  | d :: ds => d.places scope ++ placesFrom (scope + 1) ds

/-- The places of a list of declarations, in reading order. -/
def allPlaces (ds : List Declaration) : List Place := placesFrom 0 ds

/-- The marks of the value of declaration number `scope`. -/
def valueMarks (scope : Nat) (d : Declaration) : List Mark :=
  match d.value.getD [] with
  | [] => [.blank]
  | v => (v.mapScope fun _ ↦ scope).map Mark.ofPart

/-- The marks of declaration number `scope`. -/
def marks (style : Style) (scope : Nat) (d : Declaration) : List Mark :=
  .raw d.property :: .raw style.between ::
    (valueMarks scope d ++
      ((if d.important then [.raw " !important"] else []) ++ [.raw style.after]))

/-- The marks of declarations, the first of which has number `scope`. -/
def marksFrom (style : Style) (scope : Nat) : List Declaration → List Mark
  | [] => []
  | d :: ds =>
    (if scope = 0 then [] else [.raw style.newline]) ++
      (marks style scope d ++ marksFrom style (scope + 1) ds)

theorem ofValue_eq_marks (scope : Nat) (v : Value) (stops : TabStops) :
    Segment.ofValue (fun _ ↦ scope) v stops
      = Mark.segments ((v.mapScope fun _ ↦ scope).map Mark.ofPart) stops := by
  induction v generalizing stops with
  | nil => rfl
  | cons p v ih => cases p <;> simp only [Segment.ofValue, Segment.ofPart, ih] <;> rfl

theorem writeValue_eq_marks (scope : Nat) (d : Declaration) (stops : TabStops) :
    writeValue scope d.value stops = Mark.segments (valueMarks scope d) stops := by
  rw [writeValue, valueMarks]
  cases d.value.getD [] with
  | nil => rfl
  | cons p v => exact ofValue_eq_marks scope (p :: v) stops

theorem write_eq_marks (style : Style) (scope : Nat) (d : Declaration) (stops : TabStops) :
    write style scope d stops = Mark.segments (marks style scope d) stops := by
  have himportant : ∀ stops, Mark.segments
      ((if d.important then [.raw " !important"] else []) ++ [.raw style.after]) stops
        = ((if d.important then [.raw " !important"] else []) ++ [.raw style.after], stops) := by
    intro stops
    split <;> rfl
  simp only [write, marks, writeValue_eq_marks, Mark.segments_raw, Mark.segments_append,
    himportant, List.cons_append, List.append_assoc]

theorem writeFrom_eq_marks (style : Style) (scope : Nat) (ds : List Declaration)
    (stops : TabStops) :
    writeFrom style scope ds stops = (Mark.segments (marksFrom style scope ds) stops).1 := by
  induction ds generalizing scope stops with
  | nil => rfl
  | cons d ds ih =>
    have hlead : ∀ stops, Mark.segments
        (if scope = 0 then [] else [.raw style.newline]) stops
          = (if scope = 0 then [] else [.raw style.newline], stops) := by
      intro stops
      split <;> rfl
    simp only [writeFrom, marksFrom, write_eq_marks, ih, Mark.segments_append, hlead,
      List.append_assoc]

/-- The output of declarations is that of their marks. -/
theorem writeAll_eq_marks (style : Style) (ds : List Declaration) :
    writeAll style ds = (Mark.segments (marksFrom style 0 ds) {}).1 :=
  writeFrom_eq_marks style 0 ds {}

theorem places_valueMarks (scope : Nat) (d : Declaration) :
    (valueMarks scope d).filterMap Mark.place? = d.places scope := by
  rw [valueMarks, places]
  split
  · rfl
  · next v _ =>
    rw [Value.mapScope, Value.fields, List.map_map, List.filterMap_map, List.map_filterMap]
    refine List.filterMap_congr fun p _ ↦ ?_
    cases p <;> rfl

theorem places_marksFrom (style : Style) (scope : Nat) (ds : List Declaration) :
    (marksFrom style scope ds).filterMap Mark.place? = placesFrom scope ds := by
  have hraw : ∀ output (ms : List Mark),
      (.raw output :: ms).filterMap Mark.place? = ms.filterMap Mark.place? := fun _ _ ↦ rfl
  induction ds generalizing scope with
  | nil => rfl
  | cons d ds ih =>
    have himportant : List.filterMap Mark.place?
        ((if d.important then [.raw " !important"] else []) ++ [.raw style.after]) = [] := by
      split <;> rfl
    have hlead : List.filterMap Mark.place? (if scope = 0 then [] else [.raw style.newline])
        = [] := by
      split <;> rfl
    rw [marksFrom, placesFrom, marks, List.filterMap_append, List.filterMap_append, hlead, hraw,
      hraw, List.filterMap_append, himportant, places_valueMarks, ih, List.append_nil,
      List.nil_append]

end Stylesheet.Declaration

end Shorthand
