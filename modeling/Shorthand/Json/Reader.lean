import Shorthand.Json.Basic
import Shorthand.Text.Digit

/-!
# Reading JSON

`Json.read?` reads a text that is one JSON value with nothing but blanks around it.  The reader is
strict: no trailing commas, no plus sign, no bare fraction, no control character inside a string.
It goes beyond the standard in one point only, the constants `NaN`, `Infinity` and `-Infinity`,
which are kept as written like every number that is not an integer.

Of members with one name the last one counts, at the place of the first.  A half of a surrogate
pair that stands alone is read as the replacement character.

Every part of the reader takes the characters from where it starts and returns what it read with
the characters after it.  The nesting of values is followed by `value`, `items` and `members`; each
call of them but the first is preceded by a character that has been consumed, or is the one call
that follows such a call, so twice the length of the text bounds their number.
-/

set_option autoImplicit false

namespace Shorthand.Json

/-- A part of the reader: what it read, and the characters after it. -/
abbrev Reader (α : Type) := List Char → Option (α × List Char)

namespace Reader

/-- Blanks between the tokens of JSON. -/
def isGap (c : Char) : Bool := c == ' ' || c == '\t' || c == '\n' || c == '\r'

/-- The characters from the next token on. -/
def skipGap (cs : List Char) : List Char := cs.dropWhile isGap

/-- The characters after a given word, if they begin with it. -/
def word (w : String) (cs : List Char) : Option (List Char) :=
  if w.toList.isPrefixOf cs then some (cs.drop w.toList.length) else none

/-! ## Strings -/

/-- The value of a digit in base sixteen. -/
def hexValue? (c : Char) : Option Nat :=
  if '0' ≤ c ∧ c ≤ '9' then some (c.toNat - '0'.toNat)
  else if 'a' ≤ c ∧ c ≤ 'f' then some (c.toNat - 'a'.toNat + 10)
  else if 'A' ≤ c ∧ c ≤ 'F' then some (c.toNat - 'A'.toNat + 10)
  else none

/-- The unit written by the four digits of an escape. -/
def unit : Reader Nat
  | a :: b :: c :: d :: rest => do
    let a ← hexValue? a
    let b ← hexValue? b
    let c ← hexValue? c
    let d ← hexValue? d
    return (((a * 16 + b) * 16 + c) * 16 + d, rest)
  | _ => none

/-- The character that one unit stands for on its own. -/
def loneChar (u : Nat) : Char := if 0xd800 ≤ u ∧ u < 0xe000 then '\ufffd' else Char.ofNat u

/-- The character that follows `\u`: one unit, or both halves of a pair. -/
def escapedUnit : Reader Char := fun cs ↦ do
  let (high, rest) ← unit cs
  if 0xd800 ≤ high ∧ high < 0xdc00 then
    match rest with
    | '\\' :: 'u' :: after =>
      match unit after with
      | some (low, rest') =>
        if 0xdc00 ≤ low ∧ low < 0xe000 then
          return (Char.ofNat (0x10000 + (high - 0xd800) * 0x400 + (low - 0xdc00)), rest')
        else return (loneChar high, rest)
      | none => return (loneChar high, rest)
    | _ => return (loneChar high, rest)
  else return (loneChar high, rest)

/-- The character that a backslash and one more character stand for. -/
def escapedChar? : Char → Option Char
  | '"' => some '"'
  | '\\' => some '\\'
  | '/' => some '/'
  | 'b' => some '\x08'
  | 'f' => some '\x0c'
  | 'n' => some '\n'
  | 'r' => some '\r'
  | 't' => some '\t'
  | _ => none

/-- The characters of a string up to its closing quote.  `fuel` bounds their number. -/
def stringChars : Nat → Reader (List Char)
  | 0, _ => none
  | fuel + 1, cs =>
    match cs with
    | [] => none
    | '"' :: rest => some ([], rest)
    | '\\' :: 'u' :: rest => do
      let (c, rest) ← escapedUnit rest
      let (more, rest) ← stringChars fuel rest
      return (c :: more, rest)
    | '\\' :: e :: rest => do
      let c ← escapedChar? e
      let (more, rest) ← stringChars fuel rest
      return (c :: more, rest)
    | '\\' :: [] => none
    | c :: rest => do
      if c.toNat < 0x20 then none
      let (more, rest) ← stringChars fuel rest
      return (c :: more, rest)

/-- A string, from the character after its opening quote. -/
def stringBody : Reader String := fun cs ↦
  (stringChars (cs.length + 1) cs).map fun (chars, rest) ↦ (String.ofList chars, rest)

/-! ## Numbers -/

/-- The digits at the start, at least one. -/
def digits : Reader (List Char) := fun cs ↦
  match cs.takeWhile Char.isDigit with
  | [] => none
  | ds => some (ds, cs.dropWhile Char.isDigit)

/-- The integer part of a number: a lone zero, or digits that do not begin with one. -/
def integerPart : Reader (List Char)
  | '0' :: rest => some (['0'], rest)
  | cs => digits cs

/-- A fraction, if there is one. -/
def fraction : List Char → List Char × List Char
  | '.' :: rest =>
    match digits rest with
    | some (ds, rest') => ('.' :: ds, rest')
    | none => ([], '.' :: rest)
  | cs => ([], cs)

/-- The sign of an exponent, if there is one. -/
def exponentSign : List Char → List Char × List Char
  | '+' :: rest => (['+'], rest)
  | '-' :: rest => (['-'], rest)
  | cs => ([], cs)

/-- An exponent, if there is one. -/
def exponent : List Char → List Char × List Char
  | [] => ([], [])
  | e :: rest =>
    if e == 'e' || e == 'E' then
      let (sign, after) := exponentSign rest
      match digits after with
      | some (ds, rest') => (e :: sign ++ ds, rest')
      | none => ([], e :: rest)
    else ([], e :: rest)

/-- A number without its sign: an integer unless a fraction or an exponent follows. -/
def magnitude (negative : Bool) : Reader Json := fun cs ↦ do
  let (whole, rest) ← integerPart cs
  let (frac, rest) := fraction rest
  let (exp, rest) := exponent rest
  if frac.isEmpty && exp.isEmpty then
    let n : Int := Text.numeral whole
    return (.integer (if negative then -n else n), rest)
  else
    let sign := if negative then ['-'] else []
    return (.decimal (String.ofList (sign ++ whole ++ frac ++ exp)), rest)

/-! ## Values -/

/-- A value that holds no other. -/
def scalar : Reader Json := fun cs ↦
  match cs with
  | '"' :: rest => (stringBody rest).map fun (s, rest) ↦ (.string s, rest)
  | '-' :: rest =>
    match word "Infinity" rest with
    | some rest => some (.decimal "-Infinity", rest)
    | none => magnitude true rest
  | _ =>
    if let some rest := word "null" cs then some (.null, rest)
    else if let some rest := word "true" cs then some (.bool true, rest)
    else if let some rest := word "false" cs then some (.bool false, rest)
    else if let some rest := word "NaN" cs then some (.decimal "NaN", rest)
    else if let some rest := word "Infinity" cs then some (.decimal "Infinity", rest)
    else magnitude false cs

mutual

/-- A value, from its first character. -/
def value : Nat → Reader Json
  | 0, _ => none
  | fuel + 1, cs =>
    match cs with
    | '[' :: rest =>
      match skipGap rest with
      | ']' :: rest => some (.array [], rest)
      | rest => (items fuel rest).map fun (xs, rest) ↦ (.array xs, rest)
    | '{' :: rest =>
      match skipGap rest with
      | '}' :: rest => some (.object [], rest)
      | rest => (members fuel rest).map fun (ms, rest) ↦ (.object (Table.ofEntries ms), rest)
    | cs => scalar cs

/-- The items of an array, from the first character of one of them to the closing bracket. -/
def items : Nat → Reader (List Json)
  | 0, _ => none
  | fuel + 1, cs => do
    let (x, rest) ← value fuel cs
    match skipGap rest with
    | ']' :: rest => return ([x], rest)
    | ',' :: rest => do
      let (xs, rest) ← items fuel (skipGap rest)
      return (x :: xs, rest)
    | _ => none

/-- The members of an object, from the quote of one of their names to the closing brace. -/
def members : Nat → Reader (List (String × Json))
  | 0, _ => none
  | fuel + 1, cs =>
    match cs with
    | '"' :: rest => do
      let (name, rest) ← stringBody rest
      match skipGap rest with
      | ':' :: rest => do
        let (x, rest) ← value fuel (skipGap rest)
        match skipGap rest with
        | '}' :: rest => return ([(name, x)], rest)
        | ',' :: rest => do
          let (ms, rest) ← members fuel (skipGap rest)
          return ((name, x) :: ms, rest)
        | _ => none
      | _ => none
    | _ => none

end

end Reader

/-- The JSON value that a text is. -/
def read? (s : String) : Option Json :=
  let cs := s.toList
  match Reader.value (2 * cs.length + 1) (Reader.skipGap cs) with
  | some (x, rest) => if (Reader.skipGap rest).isEmpty then some x else none
  | none => none

end Shorthand.Json
