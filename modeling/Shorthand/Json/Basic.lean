import Shorthand.Table

/-!
# JSON values

The settings of an editor and the option values of the command line are JSON.  The members of an
object keep the order in which they were written, since the order in which options are named is
the order in which the unusable ones are reported.

Numbers come in two kinds.  One written without a fraction and without an exponent is an integer
of any size; the others (`decimal`) are never calculated with, so they are kept as written.
-/

set_option autoImplicit false

namespace Shorthand

/-- A JSON value. -/
inductive Json where
  | null
  | bool (value : Bool)
  | integer (value : Int)
  /-- A number with a fraction or an exponent, as written. -/
  | decimal (written : String)
  | string (value : String)
  | array (items : List Json)
  | object (members : List (String × Json))
  deriving Inhabited

namespace Json

/-- The value of a member of an object. -/
def member? (name : String) : Json → Option Json
  | .object members => Table.get? members name
  | _ => none

/-- The text that a value is, if it is one. -/
def string? : Json → Option String
  | .string s => some s
  | _ => none

/-- The members of an object, if the value is one. -/
def members? : Json → Option (Table Json)
  | .object members => some members
  | _ => none

/-- The texts of an array that holds nothing else. -/
def strings? : Json → Option (List String)
  | .array items => items.mapM string?
  | _ => none

/-- The texts under the names of an object that holds nothing else. -/
def stringMembers? : Json → Option (Table String)
  | .object members => members.mapM fun member ↦ (string? member.2).map (member.1, ·)
  | _ => none

/-- The values that stand for nothing: null, false, zero, and what is empty. -/
def isVoid : Json → Bool
  | .null => true
  | .bool value => !value
  | .integer value => value == 0
  | .decimal written =>
    (written.toList.takeWhile fun c ↦ c != 'e' && c != 'E').all fun c ↦
      c == '0' || c == '.' || c == '-'
  | .string value => value.isEmpty
  | .array items => items.isEmpty
  | .object members => members.isEmpty

end Json

end Shorthand
