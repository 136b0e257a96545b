import Shorthand.Config.Basic
import Shorthand.Extraction
import Shorthand.Markup.Copies
import Shorthand.Markup.Numbering

/-!
# Expanding abbreviations

An abbreviation is read with the grammar of a configuration and written as that configuration says.
For markup this takes five steps: the raw tree, its snippets, its multipliers, the names of nameless
elements and the numbering of copies.

Abbreviations and numbers may have any size here: the limits of an interpreter, on the depth of
calls and on the digits of a number, are left out.

* `Expansion.markupTree` : the tree that a markup abbreviation stands for.
* `Expansion.segments` : the output before it is formatted.
* `Expansion.expand` : the output.
-/

set_option autoImplicit false

namespace Shorthand.Expansion

open Markup

/-- The tree that a markup abbreviation stands for. -/
def markupTree (c : Config) (abbreviation : String) : Except Failure (List Node) := do
  let tree ← Tree.parse abbreviation
  let tree ← Snippet.expandAll c.markupSnippets tree
  let tree ← Copies.unroll c.maxRepeat abbreviation tree
  Numbering.number (Node.nameAll none tree)

/-- The declarations that a stylesheet abbreviation stands for. -/
def declarations (c : Config) (abbreviation : String) :
    Except Failure (List Stylesheet.Declaration) :=
  Stylesheet.Declaration.parseAll c.stylesheetSnippets c.vocabulary abbreviation

/-- The output for an abbreviation before it is formatted. -/
def segments (c : Config) (abbreviation : String) : Except Failure (List Segment) :=
  match c.grammar with
  | .markup => do
    let tree ← markupTree c abbreviation
    Html.write c.htmlStyle tree
  | .stylesheet => do
    let found ← declarations c abbreviation
    return Stylesheet.Declaration.writeAll c.declarationStyle found

/-- The output for an abbreviation. -/
def expand (c : Config) (abbreviation : String) : Except Failure String :=
  (segments c abbreviation).map (Segment.render c.formatters)

/-- What surrounds the abbreviations of a grammar. -/
def surroundings : Grammar → Extraction.Surroundings
  | .markup => .markup
  | .stylesheet => .stylesheet

/-- What surrounds the abbreviations of a syntax type, given by its name; nothing is known about a
name that is no grammar's. -/
def surroundingsOf (type : String) : Extraction.Surroundings :=
  ((Grammar.ofName? type).map surroundings).getD .plain

end Shorthand.Expansion
