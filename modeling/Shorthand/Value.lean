import Shorthand.Text.Digit
import Shorthand.Text.Tiling

/-!
# Values with tab stops

The text of an abbreviation or of a snippet may hold tab stops: places the editor takes the cursor
to, one after the other.  They are written `${1}`, or `${1:default}` with a placeholder.  A `Value`
is such a text taken apart into literal text and fields, so that numbering and escaping only ever
touch the literal text.

* `Value.parse` : takes a text apart.  What only looks like a field stays literal text, and a
  backslash keeps the character after it from starting a field; both stay in the text.
* `Value.print` : writes a value with its fields as markers again.
* `Value.plain` : the text with every field replaced by its placeholder.
-/

set_option autoImplicit false

namespace Shorthand

/-- A tab stop with an explicit index.  Fields of equal index and `scope` are mirrored: they are
one stop of the editor.  Scope 0 is what the user typed; every snippet instance has its own. -/
structure Field where
  index : Nat
  placeholder : String := ""
  scope : Nat := 0
  deriving DecidableEq, Inhabited

/-- A part of a value. -/
inductive Part where
  | text (literal : String)
  | field (field : Field)
  deriving DecidableEq, Inhabited

/-- Literal text and fields, in order. -/
abbrev Value := List Part

/-! ## Reading -/

/-- The text up to the brace that closes what is open, inner pairs of braces included; `depth`
pairs are open inside. -/
def placeholder? : Nat → List Char → Option (List Char)
  | _, [] => none
  | depth, c :: cs =>
    if c == '}' then
      match depth with
      | 0 => some []
      | depth + 1 => (placeholder? depth cs).map (c :: ·)
    else if c == '{' then (placeholder? (depth + 1) cs).map (c :: ·)
    else (placeholder? depth cs).map (c :: ·)

/-- The field that begins a text, and the number of characters that it takes. -/
def Field.read? : List Char → Option (Field × Nat)
  | '$' :: '{' :: cs =>
    let digits := cs.takeWhile Text.isDecimal
    if digits.isEmpty then none
    else
      match cs.dropWhile Text.isDecimal with
      | '}' :: _ => some (⟨Text.numeral digits, "", 0⟩, digits.length + 3)
      | ':' :: rest => (placeholder? 0 rest).map fun inner ↦
          (⟨Text.numeral digits, String.ofList inner, 0⟩, digits.length + inner.length + 4)
      | _ => none
  | _ => none

/-- A value before its literal characters are joined. -/
inductive Piece where
  | char (c : Char)
  | field (field : Field)
  deriving DecidableEq

/-- The piece or pieces that begin a text, and the number of characters that they take. -/
def Piece.read : List Char → List Piece × Nat
  | '\\' :: c :: _ => ([.char '\\', .char c], 2)
  | cs =>
    match Field.read? cs with
    | some (f, size) => ([.field f], size)
    | none => ((cs.take 1).map .char, 1)

namespace Value

/-- A literal part, unless there is no text. -/
def literal (cs : List Char) : Value := if cs.isEmpty then [] else [.text (String.ofList cs)]

/-- Joins the literal characters between the fields; `before` are those just read, backwards. -/
def ofPiecesFrom (before : List Char) : List Piece → Value
  | [] => literal before.reverse
  | .char c :: ps => ofPiecesFrom (c :: before) ps
  | .field f :: ps => literal before.reverse ++ .field f :: ofPiecesFrom [] ps

/-- The value made of pieces. -/
def ofPieces (ps : List Piece) : Value := ofPiecesFrom [] ps

/-- Takes a text apart into literal text and fields. -/
def parse (s : String) : Value := ofPieces (Text.tile Piece.read 0 s.toList)

/-! ## Writing -/

/-- The marker that writes a field. -/
def marker (f : Field) : String :=
  if f.placeholder.isEmpty then "$\x7b" ++ toString f.index ++ "\x7d"
  else "$\x7b" ++ toString f.index ++ ":" ++ f.placeholder ++ "\x7d"

/-- The text of a value, with its fields as markers. -/
def print (v : Value) : String :=
  String.join (v.map fun | .text s => s | .field f => marker f)

/-! ## Views -/

/-- The text of a value, with the placeholders of its fields. -/
def plain (v : Value) : String :=
  String.join (v.map fun | .text s => s | .field f => f.placeholder)

/-- The fields, in order. -/
def fields (v : Value) : List Field := v.filterMap fun | .text _ => none | .field f => some f

/-- Does a value hold a field? -/
def hasFields (v : Value) : Bool := v.any fun | .text _ => false | .field _ => true

theorem hasFields_iff (v : Value) : v.hasFields = true ↔ v.fields ≠ [] := by
  induction v with
  | nil => simp [hasFields, fields]
  | cons p v ih => cases p <;> simp_all [hasFields, fields]

/-! ## Rewriting -/

/-- Rewrites the literal text, part by part. -/
def mapText (f : String → String) (v : Value) : Value :=
  v.map fun | .text s => .text (f s) | .field g => .field g

/-- Rewrites the scope of every field. -/
def mapScope (f : Nat → Nat) (v : Value) : Value :=
  v.map fun | .text s => .text s | .field g => .field { g with scope := f g.scope }

theorem fields_mapText (f : String → String) (v : Value) : (v.mapText f).fields = v.fields := by
  induction v with
  | nil => rfl
  | cons p v ih => cases p <;> simp_all [mapText, fields]

end Value

end Shorthand
