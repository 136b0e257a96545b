import Shorthand.Failure
import Shorthand.Segment
import Shorthand.Stylesheet.Snippet
import Shorthand.Stylesheet.Value

/-!
# Declarations

A stylesheet abbreviation such as `m10+p5-10!` is a row of declarations with plus signs between
them.  Each is a shorthand, perhaps with a value after a colon or glued to it, and perhaps with an
exclamation mark at the end.  The shorthand is looked up among the snippets; an unknown one is kept
as the name of a property.

* `Declaration.parseAll` : the declarations of an abbreviation.
* `splitValue` : where a glued value begins.
* `lookup` : the snippet that a shorthand stands for.
* `Declaration.writeAll` : the output, one declaration a line.
-/

set_option autoImplicit false

namespace Shorthand.Stylesheet

/-- A property and its value; no value at all is left for the user to type. -/
structure Declaration where
  property : String
  value : Option Value := none
  important : Bool := false
  /-- Where in the abbreviation the declaration begins. -/
  offset : Nat := 0
  deriving DecidableEq, Inhabited

/-! ## Shorthands -/

/-- Does a value begin here?  It does at a digit, at `#`, and at a point or dash with a digit or a
point after it. -/
def beginsValue : List Char → Bool
  | [] => false
  | c :: cs =>
    Text.isDigit c || c == '#' ||
      ((c == '.' || c == '-') &&
        match cs with
        | [] => false
        | d :: _ => Text.isDigit d || d == '.')

/-- Splits a shorthand from the value that is glued to it. -/
def splitValue : List Char → List Char × List Char
  | [] => ([], [])
  | c :: cs =>
    if beginsValue (c :: cs) then ([], c :: cs)
    else
      let (name, value) := splitValue cs
      (c :: name, value)

/-- The two parts of a name cut in front of its last `n` characters, its last two, its last one:
the longest first part comes first and neither part is empty. -/
def cuts (name : List Char) : List (List Char × List Char) :=
  ((List.range' 1 (name.length - 1)).reverse).map fun i ↦ (name.take i, name.drop i)

/-- The snippet for a shorthand with a keyword glued to it, and the keyword. -/
def glued? (snippets : Table String) (v : Vocabulary) (cut : List Char × List Char) :
    Option (Snippet × String) := do
  let text ← snippets.get? (String.ofList cut.1)
  let snippet := Snippet.parse text
  let typed := String.ofList cut.2
  let keyword ← (Keyword.find? typed snippet.keywords).or (Keyword.find? typed v.keywords)
  return (snippet, keyword)

/-- The snippet for a shorthand, and the keyword glued to it: a key of the table, else a key once a
colon is put into it, else a key with a keyword after it. -/
def lookup (snippets : Table String) (v : Vocabulary) (name : String) :
    Option (Snippet × Option String) :=
  match snippets.get? name with
  | some text => some (Snippet.parse text, none)
  | none =>
    let cuts := cuts name.toList
    match cuts.findSome? fun cut ↦ snippets.get? (String.ofList (cut.1 ++ ':' :: cut.2)) with
    | some text => some (Snippet.parse text, none)
    | none => (cuts.findSome? (glued? snippets v)).map fun (snippet, keyword) ↦
        (snippet, some keyword)

/-! ## Reading -/

namespace Declaration

/-- The property and value that a shorthand and an explicit value stand for. -/
def ofShorthand (snippets : Table String) (v : Vocabulary) (name : String) (explicit : List Char) :
    String × Option Value :=
  match lookup snippets v name with
  | none =>
    (name,
      if explicit.isEmpty then none
      else some (parseValue v name [] (String.ofList explicit)))
  | some (snippet, keyword) =>
    (snippet.property,
      if !explicit.isEmpty then
        some (parseValue v snippet.property snippet.keywords (String.ofList explicit))
      else
        match keyword with
        | some keyword => some [.text keyword]
        | none => snippet.template)

/-- The declaration of one chunk that begins at an offset. -/
def parse (snippets : Table String) (v : Vocabulary) (chunk : List Char) (offset : Nat) :
    Except Fault Declaration :=
  let important := chunk.getLast? == some '!'
  let body := if important then chunk.dropLast else chunk
  if body.isEmpty then .error (.malformed .emptyDeclaration offset)
  else
    match snippets.get? (String.ofList body) with
    | some text =>
      let snippet := Snippet.parse text
      .ok ⟨snippet.property, snippet.template, important, offset⟩
    | none =>
      let (name, explicit) := match Snippet.splitColon body with
        | (name, some explicit) => (name, explicit)
        | (_, none) => splitValue body
      if name.isEmpty then .error (.malformed .noProperty offset)
      else
        let (property, value) := ofShorthand snippets v (String.ofList name) explicit
        .ok ⟨property, value, important, offset⟩

/-- The declarations of chunks, the first of which begins at an offset. -/
def parseChunks (snippets : Table String) (v : Vocabulary) :
    List (List Char) → Nat → Except Fault (List Declaration)
  | [], _ => .ok []
  | chunk :: chunks, offset => do
    let first ← parse snippets v chunk offset
    let rest ← parseChunks snippets v chunks (offset + chunk.length + 1)
    return first :: rest

/-- The declarations of an abbreviation. -/
def parseAll (snippets : Table String) (v : Vocabulary) (abbreviation : String) :
    Except Failure (List Declaration) :=
  Fault.located abbreviation <|
    if abbreviation.isEmpty then .error (.malformed .emptyAbbreviation 0)
    else parseChunks snippets v (abbreviation.toList.splitOn '+') 0

/-! ## Writing -/

/-- What the output looks like. -/
structure Style where
  newline : String
  /-- What stands between a property and its value. -/
  between : String
  /-- What stands after a value. -/
  after : String
  deriving Inhabited

/-- The segments of a value; the fields of every declaration are numbered apart, `scope` being the
number of the declaration. -/
def writeValue (scope : Nat) (value : Option Value) (stops : TabStops) :
    List Segment × TabStops :=
  match value.getD [] with
  | [] => Segment.blank stops
  | p :: ps => Segment.ofValue (fun _ ↦ scope) (p :: ps) stops

/-- The segments of a declaration. -/
def write (style : Style) (scope : Nat) (d : Declaration) (stops : TabStops) :
    List Segment × TabStops :=
  let (value, stops) := writeValue scope d.value stops
  let important := if d.important then [.raw " !important"] else []
  (.raw d.property :: .raw style.between :: value ++ important ++ [.raw style.after], stops)

/-- The segments of declarations, each after the first with a line break before it. -/
def writeFrom (style : Style) (scope : Nat) : List Declaration → TabStops → List Segment
  | [], _ => []
  | d :: ds, stops =>
    let (first, stops) := write style scope d stops
    let lead := if scope = 0 then [] else [.raw style.newline]
    lead ++ first ++ writeFrom style (scope + 1) ds stops

/-- The segments of declarations, one a line. -/
def writeAll (style : Style) (declarations : List Declaration) : List Segment :=
  writeFrom style 0 declarations {}

end Declaration

end Shorthand.Stylesheet
