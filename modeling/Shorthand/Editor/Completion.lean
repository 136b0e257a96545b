import Shorthand.Config.Option
import Shorthand.Editor.Document
import Shorthand.Editor.Report
import Shorthand.Editor.SnippetText
import Shorthand.Expansion

/-!
# Completions

The one completion on offer is the expansion of the abbreviation that ends at the cursor.  It
replaces the abbreviation and brings its tab stops with it.  An abbreviation that breaks its grammar
is reported and offers nothing.

* `Item` : what the editor offers to insert.
* `Item.ofExpansion` : the item that puts an expansion in the place of an abbreviation.
* `itemAt` : the item for a place in a line.
-/

set_option autoImplicit false

namespace Shorthand.Editor

/-- What is put in the place of a part of a line. -/
structure Edit where
  line : Int
  start : Nat
  stop : Nat
  newText : String
  deriving DecidableEq, Inhabited

/-- How the text of an item is to be read. -/
inductive TextFormat where
  /-- With tab stops. -/
  | snippet
  deriving DecidableEq, Inhabited

namespace TextFormat

/-- The number of a format. -/
def code : TextFormat → Nat
  | .snippet => 2

end TextFormat

/-- The kind of the items that carry tab stops. -/
def snippetKind : Int := 15

/-- What the editor offers to insert. -/
structure Item where
  label : String
  kind : Option Int := none
  detail : Option String := none
  documentation : Option String := none
  filterText : Option String := none
  format : Option TextFormat := none
  edit : Option Edit := none
  /-- What the client hands back with the item when it asks for more. -/
  carried : Option Json := none
  deriving Inhabited

/-- The items for a place. -/
structure Completions where
  /-- Should the editor ask again when more is typed? -/
  isIncomplete : Bool := false
  items : List Item := []
  deriving Inhabited

namespace Edit

/-- An edit as data. -/
def toJson (e : Edit) : Json :=
  let place (character : Nat) : Json :=
    .object [("line", .integer e.line), ("character", .integer character)]
  .object [
    ("range", .object [("start", place e.start), ("end", place e.stop)]),
    ("expansion", .string e.newText)]

end Edit

namespace Item

/-- The item that puts an expansion in the place of an abbreviation. -/
def ofExpansion (line : Int) (found : Extraction.Span) (expansion : String) : Item :=
  let edit : Edit := ⟨line, found.start, found.stop, expansion⟩
  { label := found.abbreviation
    kind := some snippetKind
    detail := some found.abbreviation
    documentation := some expansion
    filterText := some found.abbreviation
    format := some .snippet
    edit := some edit
    carried := some edit.toJson }

/-- An item whose text has tab stops says so. -/
def resolved (item : Item) : Item :=
  if item.kind = some snippetKind then { item with format := some .snippet } else item

end Item

/-- The configuration of completions in a document: the settings of the session, where the output
is written for an editor whatever they say about that. -/
def completionConfig (grammar : Grammar) (settings : Table Json) : Config :=
  let given : Table Setting := settings.map fun (name, value) ↦ (name, .json value)
  let given := given.put OptionName.field.name (.fieldFormatter formatters.field)
  let given := given.put OptionName.text.name (.textFormatter formatters.text)
  Config.ofSettings grammar given

/-- The item for a place in a line of a document, and what there is to report: the settings that
could not be used, and an abbreviation that breaks its grammar.  Any other failure is left to the
caller. -/
def itemAt (settings : Table Json) (language : Option String) (line : String) (place : Place) :
    List Report × Except Failure (Option Item) :=
  let grammar := grammarOf language
  match Extraction.extract (Expansion.surroundings grammar) line (some place.character) with
  | none => ([], .ok none)
  | some found =>
    let config := completionConfig grammar settings
    let rejected := config.rejected.map Report.rejectedOption
    match Expansion.expand config found.abbreviation with
    | .ok expansion => (rejected, .ok (some (Item.ofExpansion place.line found expansion)))
    | .error (.malformed error) =>
      (rejected ++ [.malformedAbbreviation place.line found.start found.stop found.abbreviation
        error], .ok none)
    | .error failure => (rejected, .error failure)

end Shorthand.Editor
