import Shorthand.Stylesheet.Keyword
import Shorthand.Table
import Shorthand.Text.Digit
import Shorthand.Text.Tiling
import Shorthand.Value

/-!
# Style values

An explicit value such as `10-20`, `-5p`, `1-s#0` or `a` is a row of numbers, colours and keywords
with dashes between them; two dashes are a separator and the sign of a negative number.  A number
without a unit gets one, a short colour is written out, and a shortened keyword is completed.

* `parseValue` : the value that a text stands for.
* `measure` : a number with its unit.
* `isZero_iff` : which numbers count as zero.
-/

set_option autoImplicit false

namespace Shorthand.Stylesheet

/-- What the values of a stylesheet are made of. -/
structure Vocabulary where
  /-- Keywords that every property takes. -/
  keywords : List String
  /-- The unit of a number without a point. -/
  intUnit : String
  /-- The unit of a number with a point. -/
  floatUnit : String
  /-- Short names of units. -/
  unitAliases : Table String
  /-- Properties whose numbers have no unit. -/
  unitless : List String
  deriving Inhabited

/-! ## Numbers -/

/-- The number that begins a text, without its sign: digits with or without a point after them and
a fraction, or a point and a fraction. -/
def magnitude (cs : List Char) : List Char :=
  let whole := cs.takeWhile Text.isDecimal
  match cs.dropWhile Text.isDecimal with
  | '.' :: rest =>
    let fraction := rest.takeWhile Text.isDecimal
    if whole.isEmpty && fraction.isEmpty then [] else whole ++ '.' :: fraction
  | _ => whole

/-- The number that begins a text; empty if there is none. -/
def number : List Char → List Char
  | '-' :: cs =>
    match magnitude cs with
    | [] => []
    | found => '-' :: found
  | cs => magnitude cs

/-- A character of a unit. -/
def isUnitChar (c : Char) : Bool := Text.isLetter c || c == '%'

/-- The digits of a number as one numeral, and how many of them stand after the point. -/
def decimalParts (number : List Char) : Nat × Nat :=
  let digits := number.filter Text.isDecimal
  let fraction := (number.dropWhile (· != '.')).filter Text.isDecimal
  (Text.numeral digits, fraction.length)

/-- The least positive number of double precision is `2 ^ -1074`; this is the inverse of its
half. -/
def smallestHalf : Nat := Nat.pow 2 1075

/-- Is a number zero in double precision?  What is not above half of the least positive number is
rounded to zero. -/
def isZero (number : List Char) : Bool :=
  let (digits, places) := decimalParts number
  digits * smallestHalf ≤ Nat.pow 10 places

theorem isZero_iff (number : List Char) :
    isZero number = true ↔
      (decimalParts number).1 * smallestHalf ≤ Nat.pow 10 (decimalParts number).2 := by
  simp [isZero]

/-- A number with its unit: a unit that was typed counts, short names standing for long ones; zero
and the numbers of some properties have none. -/
def measure (v : Vocabulary) (property : String) (number unit : List Char) : String :=
  let text := String.ofList number
  let unit := String.ofList unit
  if !unit.isEmpty then text ++ (v.unitAliases.get? unit).getD unit
  else if v.unitless.contains property || isZero number then text
  else if number.contains '.' then text ++ v.floatUnit
  else text ++ v.intUnit

/-! ## Colours -/

/-- A digit of a colour. -/
def isColorDigit (c : Char) : Bool :=
  ('0' ≤ c && c ≤ '9') || ('a' ≤ c && c ≤ 'f') || ('A' ≤ c && c ≤ 'F')

/-- A colour from its digits: one or two of them are written three times. -/
def color (digits : List Char) : String :=
  if digits.length ≤ 2 then "#" ++ String.ofList (digits ++ digits ++ digits)
  else "#" ++ String.ofList digits

/-! ## Values -/

/-- What begins a value, and the number of characters that it takes, without the separator. -/
def token (v : Vocabulary) (property : String) (keywords : List String) (cs : List Char) :
    String × Nat :=
  let found := number cs
  if !found.isEmpty then
    let unit := (cs.drop found.length).takeWhile isUnitChar
    (measure v property found unit, found.length + unit.length)
  else
    let digits := match cs with
      | '#' :: rest => rest.takeWhile isColorDigit
      | _ => []
    if !digits.isEmpty then (color digits, digits.length + 1)
    else
      let size := Keyword.size cs
      if size ≠ 0 then
        let typed := String.ofList (cs.take size)
        (((Keyword.find? typed keywords).or (Keyword.find? typed v.keywords)).getD typed, size)
      else
        let other := cs.takeWhile (· != '-')
        (String.ofList other, other.length)

/-- What begins a value, and the number of characters that it takes with the separator after it; a
separator with nothing before it counts for nothing. -/
def valueStep (v : Vocabulary) (property : String) (keywords : List String) (cs : List Char) :
    List String × Nat :=
  let (text, size) := token v property keywords cs
  if size = 0 then ([], 1)
  else
    match cs.drop size with
    | '-' :: _ => ([text], size + 1)
    | _ => ([text], size)

/-- The value that a text stands for, for a property with keywords of its own. -/
def parseValue (v : Vocabulary) (property : String) (keywords : List String) (s : String) : Value :=
  match Text.tile (valueStep v property keywords) 0 s.toList with
  | [] => []
  | parts => [.text (String.intercalate " " parts)]

end Shorthand.Stylesheet
