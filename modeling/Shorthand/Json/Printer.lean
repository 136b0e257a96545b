import Shorthand.Json.Basic
import Shorthand.Text.Quoted

/-!
# Writing JSON

Two ways to write a JSON value as text.  `Json.print` writes JSON in ASCII, where every other
character is an escape.  `Json.display` is for people to read in a message: constants are
capitalised, strings are shown as `Text.quoted` shows them, and blanks follow the separators.
-/

set_option autoImplicit false

namespace Shorthand.Json

/-! ## ASCII JSON -/

/-- The escape of one unit. -/
def unitEscape (u : Nat) : List Char := '\\' :: 'u' :: Text.hex 4 u

/-- A character inside a printed string. -/
def printChar (c : Char) : List Char :=
  if c == '"' || c == '\\' then ['\\', c]
  else if 0x20 ≤ c.toNat && c.toNat < 0x7f then [c]
  else if c.toNat < 0x10000 then unitEscape c.toNat
  else
    let n := c.toNat - 0x10000
    unitEscape (0xd800 + n / 0x400) ++ unitEscape (0xdc00 + n % 0x400)

/-- A string as ASCII JSON. -/
def printString (s : String) : String :=
  "\"" ++ String.ofList (s.toList.flatMap printChar) ++ "\""

mutual

/-- A value as ASCII JSON. -/
def print : Json → String
  | .null => "null"
  | .bool true => "true"
  | .bool false => "false"
  | .integer n => toString n
  | .decimal written => written
  | .string s => printString s
  | .array xs => "[" ++ String.intercalate "," (printItems xs) ++ "]"
  | .object ms => "\x7b" ++ String.intercalate "," (printMembers ms) ++ "\x7d"

/-- The items of an array as ASCII JSON. -/
def printItems : List Json → List String
  | [] => []
  | x :: xs => print x :: printItems xs

/-- The members of an object as ASCII JSON. -/
def printMembers : List (String × Json) → List String
  | [] => []
  | (name, x) :: ms => (printString name ++ ":" ++ print x) :: printMembers ms

end

/-! ## For people -/

mutual

/-- A value as a message shows it. -/
def display : Json → String
  | .null => "None"
  | .bool true => "True"
  | .bool false => "False"
  | .integer n => toString n
  | .decimal written => written
  | .string s => Text.quoted s
  | .array xs => "[" ++ String.intercalate ", " (displayItems xs) ++ "]"
  | .object ms => "\x7b" ++ String.intercalate ", " (displayMembers ms) ++ "\x7d"

/-- The items of an array as a message shows them. -/
def displayItems : List Json → List String
  | [] => []
  | x :: xs => display x :: displayItems xs

/-- The members of an object as a message shows them. -/
def displayMembers : List (String × Json) → List String
  | [] => []
  | (name, x) :: ms => (Text.quoted name ++ ": " ++ display x) :: displayMembers ms

end

end Shorthand.Json
