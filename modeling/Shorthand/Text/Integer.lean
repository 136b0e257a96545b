import Shorthand.Text.Blank
import Shorthand.Text.Digit

/-!
# Integers typed by a person

An integer argument of a command is an optional sign and decimal digits of any script, where single
underscores may stand between digits and blanks around the whole.
-/

set_option autoImplicit false

namespace Shorthand.Text

/-- Splits a row of digits at its underscores; every piece has to hold a digit. -/
def digitGroups (cs : List Char) : List (List Char) :=
  cs.splitOn '_'

/-- The number written by digits with single underscores between them. -/
def groupedNumeral? (cs : List Char) : Option Nat :=
  if (digitGroups cs).all (fun group ↦ !group.isEmpty && group.all isDecimal) then
    some (numeral ((digitGroups cs).flatten))
  else none

/-- A blank that may stand around an integer; the information separators may not. -/
def isIntegerMargin (c : Char) : Bool := isBlank c && !(0x1c ≤ c.toNat && c.toNat ≤ 0x1f)

/-- The integer that a text stands for. -/
def integer? (s : String) : Option Int :=
  match ((s.toList.dropWhile isIntegerMargin).reverse.dropWhile isIntegerMargin).reverse with
  | '-' :: digits => (groupedNumeral? digits).map fun n ↦ -(n : Int)
  | '+' :: digits => (groupedNumeral? digits).map Int.ofNat
  | digits => (groupedNumeral? digits).map Int.ofNat

end Shorthand.Text
