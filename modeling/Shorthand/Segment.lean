import Shorthand.TabStop

/-!
# Output before it is formatted

What an abbreviation stands for is a list of segments: raw output such as brackets and line breaks,
literal text, and numbered tab stops.  Where they stand is decided without looking at how text and
tab stops are going to be written; that is up to the `Formatters`, which only ever see one text or
one tab stop at a time.

* `Segment.render` : the output under given formatters.
* `Segment.ofValue` : the segments of a value, with its fields numbered.
-/

set_option autoImplicit false

namespace Shorthand

/-- How tab stops and literal text are written. -/
structure Formatters where
  field : Nat → String → String := fun _ placeholder ↦ placeholder
  text : String → String := fun s ↦ s
  deriving Inhabited

/-- A piece of output. -/
inductive Segment where
  | raw (output : String)
  | text (literal : String)
  | stop (number : Nat) (placeholder : String)
  deriving DecidableEq, Inhabited

namespace Segment

/-- A piece of output, formatted. -/
def format (f : Formatters) : Segment → String
  | .raw output => output
  | .text literal => f.text literal
  | .stop number placeholder => f.field number placeholder

/-- The output under given formatters. -/
def render (f : Formatters) (segments : List Segment) : String :=
  String.join (segments.map (format f))

@[simp] theorem render_nil (f : Formatters) : render f [] = "" := rfl

theorem render_cons (f : Formatters) (s : Segment) (ss : List Segment) :
    render f (s :: ss) = format f s ++ render f ss := by
  simp [render, String.join_cons]

theorem render_append (f : Formatters) (a b : List Segment) :
    render f (a ++ b) = render f a ++ render f b := by
  induction a with
  | nil => simp
  | cons s a ih => rw [List.cons_append, render_cons, render_cons, ih, String.append_assoc]

/-- The segment of a part of a value, with its field numbered; `scopeOf` says which scope a field
is numbered in. -/
def ofPart (scopeOf : Field → Nat) (p : Part) (stops : TabStops) : Segment × TabStops :=
  match p with
  | .text literal => (.text literal, stops)
  | .field f =>
    let (number, stops) := stops.explicit f.index (scopeOf f)
    (.stop number f.placeholder, stops)

/-- The segments of a value, with its fields numbered. -/
def ofValue (scopeOf : Field → Nat) : Value → TabStops → List Segment × TabStops
  | [], stops => ([], stops)
  | p :: ps, stops =>
    let (first, stops) := ofPart scopeOf p stops
    let (rest, stops) := ofValue scopeOf ps stops
    (first :: rest, stops)

/-- An empty place for the user to fill. -/
def blank (stops : TabStops) : List Segment × TabStops :=
  let (number, stops) := stops.auto
  ([.stop number ""], stops)

end Segment

end Shorthand
