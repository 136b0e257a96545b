import Shorthand.Text.Alphanumeric
import Shorthand.Text.Blank

/-!
# Finding the abbreviation before the cursor

The abbreviation that ends at the cursor is found by reading the line backwards from there.  Reading
goes on over letters, digits and the signs of the abbreviation language; what stands in square or
curly brackets may be anything.  It stops at a blank, at the end of an HTML tag, or at a character
that the grammar at hand does not take.  Operators that cannot begin an abbreviation are left out.

Since the line is read backwards, everything here works on the characters before a place, nearest
first.

* `Extraction.extract` : the abbreviation that ends at the cursor, and where it stands.
* `Extraction.reach` : how far back an abbreviation goes.
* `Extraction.endsTag` : whether a `>` at a place ends an HTML tag.
* `Extraction.reach_le` : reading never goes past the start of the line.
-/

set_option autoImplicit false

namespace Shorthand.Extraction

/-- What the grammar at hand says about the characters around an abbreviation. -/
structure Surroundings where
  /-- Brackets that may enclose a part of an abbreviation, each with the one that closes it. -/
  brackets : List (Char × Char)
  /-- Characters that no abbreviation goes back over. -/
  stops : List Char
  /-- Does a `>` that ends an HTML tag end the search? -/
  seesTags : Bool
  deriving Inhabited

namespace Surroundings

/-- Square, round and curly brackets; a `<` ends the search, and so does an HTML tag. -/
def markup : Surroundings := ⟨[('(', ')'), ('[', ']'), ('{', '}')], ['<'], true⟩

/-- Square and round brackets; curly ones and semicolons stand around declarations. -/
def stylesheet : Surroundings := ⟨[('(', ')'), ('[', ']')], [';', '{', '}'], false⟩

/-- A document about which nothing is known. -/
def plain : Surroundings := ⟨[('(', ')'), ('[', ']'), ('{', '}')], [], false⟩

/-- The bracket that closes another, if the other opens one. -/
def closing? (s : Surroundings) (c : Char) : Option Char := s.brackets.lookup c

/-- Does the character close a bracket? -/
def closes (s : Surroundings) (c : Char) : Bool := s.brackets.any (·.2 == c)

end Surroundings

/-! ## Characters -/

/-- Signs that may stand in an abbreviation. -/
def signs : List Char :=
  ['#', '.', '*', ':', '$', '-', '_', '!', '@', '%', '^', '+', '>', '/']

/-- A character that may stand in an abbreviation outside brackets. -/
def isAbbreviationChar (c : Char) : Bool := Text.isAlphanumeric c || signs.contains c

/-- Operators that cannot begin an abbreviation. -/
def leadingOperators : List Char := ['*', '+', '>', '^']

/-- Is there an odd number of backslashes directly before a place? -/
def isEscaped (before : List Char) : Bool := (before.takeWhile (· == '\\')).length % 2 == 1

/-- The number of characters back to the quote that matches a closing one, that quote included;
`passed` have been looked at. -/
def openingQuote (quote : Char) (passed : Nat) : List Char → Option Nat
  | [] => none
  | c :: before =>
    if c == quote && !isEscaped before then some (passed + 1)
    else openingQuote quote (passed + 1) before

/-! ## HTML tags -/

/-- A character of a tag name after its first letter. -/
def isTagNameChar (c : Char) : Bool := Text.isWord c || c == ':' || c == '-'

/-- Is this the inside of an HTML tag, from the character after the `<` to that before the `>`?  A
tag is an optional slash, a name, and then nothing, a slash, or a blank and anything else. -/
def isTagInside (inside : List Char) : Bool :=
  let named := match inside with
    | '/' :: rest => rest
    | rest => rest
  match named with
  | [] => false
  | c :: rest =>
    Text.isLetter c &&
      match rest.dropWhile isTagNameChar with
      | [] => true
      | ['/'] => true
      | d :: more => Text.isBlank d && !more.contains '>'

/-- Does a `>` at a place end an HTML tag, given the characters before it?  A line end right before
the `>` may be left out of account. -/
def endsTag (before : List Char) : Bool :=
  match before.dropWhile (· != '<') with
  | [] => false
  | _ :: _ =>
    let inside := before.takeWhile (· != '<')
    isTagInside inside.reverse ||
      match inside with
      | '\n' :: rest => isTagInside rest.reverse
      | _ => false

/-! ## Reading backwards -/

/-- What reading one character does: stop before it, or go on with the brackets that are then to be
opened, past this and `extra` more characters. -/
inductive Step where
  | stop
  | go (pending : List Char) (extra : Nat)
  deriving DecidableEq

/-- Reads the character `c` inside a square or curly bracket that `inner` closes.  Everything up to
the opening bracket belongs to it; a quoted attribute value is taken whole. -/
def stepInside (inner : Char) (pending : List Char) (c : Char) (before : List Char) : Step :=
  if c == inner then .go (c :: pending) 0
  else if (inner == ']' && c == '[') || (inner == '\x7d' && c == '\x7b') then .go pending.tail 0
  else if inner == ']' && (c == '\'' || c == '"') && !isEscaped before then
    match openingQuote c 0 before with
    | some extra => .go pending extra
    | none => .stop
  else .go pending 0

/-- Reads the character `c` outside square and curly brackets. -/
def stepOutside (s : Surroundings) (pending : List Char) (c : Char) (before : List Char) : Step :=
  if s.closes c then .go (c :: pending) 0
  else
    match s.closing? c with
    | some close =>
      match pending with
      | [] => .go [] 0
      | expected :: pending => if expected == close then .go pending 0 else .stop
    | none =>
      if s.stops.contains c || !isAbbreviationChar c then .stop
      else if s.seesTags && c == '>' && endsTag before then .stop
      else .go pending 0

/-- Reads the character `c`, given the closing brackets still to be opened, innermost first. -/
def step (s : Surroundings) (pending : List Char) (c : Char) (before : List Char) : Step :=
  match pending with
  | inner :: _ =>
    if inner == ']' || inner == '\x7d' then stepInside inner pending c before
    else stepOutside s pending c before
  | [] => stepOutside s pending c before

/-- How far back an abbreviation goes, and the closing brackets that are then still to be opened.
The next `skip` characters belong to it in any case. -/
def reach (s : Surroundings) : List Char → Nat → List Char → Nat × List Char
  | pending, _, [] => (0, pending)
  | pending, skip + 1, _ :: before =>
    let (size, pending) := reach s pending skip before
    (size + 1, pending)
  | pending, 0, c :: before =>
    match step s pending c before with
    | .stop => (0, pending)
    | .go pending extra =>
      let (size, pending) := reach s pending extra before
      (size + 1, pending)

/-- Reading never goes past the start of the line. -/
theorem reach_le (s : Surroundings) (pending : List Char) (skip : Nat) (before : List Char) :
    (reach s pending skip before).1 ≤ before.length := by
  induction before generalizing pending skip with
  | nil => cases skip <;> simp [reach]
  | cons c before ih =>
    cases skip with
    | zero =>
      rw [reach]
      split
      · exact Nat.zero_le _
      · exact Nat.succ_le_succ (ih _ _)
    | succ skip => exact Nat.succ_le_succ (ih _ _)

/-- An abbreviation and where it stands in its line. -/
structure Span where
  abbreviation : String
  start : Nat
  stop : Nat
  deriving DecidableEq, Inhabited

/-- The abbreviation at the end of the characters `cs`. -/
def extractEnd (s : Surroundings) (cs : List Char) : Option Span :=
  let (size, pending) := reach s [] 0 cs.reverse
  if !pending.isEmpty then none
  else
    let found := cs.drop (cs.length - size)
    let stripped := found.dropWhile leadingOperators.contains
    if Text.isBlankText stripped then none
    else some ⟨String.ofList stripped, cs.length - stripped.length, cs.length⟩

/-- The place of a cursor in a line: between its start and its end, by default at the end. -/
def cursor (line : String) (position : Option Int) : Nat :=
  match position with
  | none => line.length
  | some p => min line.length p.toNat

/-- The abbreviation that ends at the cursor. -/
def extract (s : Surroundings) (line : String) (position : Option Int) : Option Span :=
  extractEnd s (line.toList.take (cursor line position))

end Shorthand.Extraction
