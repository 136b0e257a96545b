/-!
# Classes of characters given by ranges

A class of characters is a sorted list of ranges of code points, both ends included.  The tables
of this folder only list characters from U+0080 on: what a class holds of ASCII is short enough to
be said in the definition that uses the table, where a proof can see it.

* `Ranges.contains` : membership in a class.
* `Ranges.contains_iff` : a code point is in a class exactly when one of the ranges holds it.
-/

set_option autoImplicit false

namespace Shorthand.Text

/-- A class of code points: pairs of a first and a last member. -/
abbrev Ranges := List (Nat × Nat)

namespace Ranges

/-- Is the code point in one of the ranges? -/
def contains (ranges : Ranges) (point : Nat) : Bool :=
  ranges.any fun range ↦ range.1 ≤ point && point ≤ range.2

theorem contains_iff (ranges : Ranges) (point : Nat) :
    ranges.contains point = true ↔ ∃ range ∈ ranges, range.1 ≤ point ∧ point ≤ range.2 := by
  simp [contains, List.any_eq_true]

end Ranges

/-- A character below U+0080. -/
def isAscii (c : Char) : Bool := c.toNat < 0x80

end Shorthand.Text
