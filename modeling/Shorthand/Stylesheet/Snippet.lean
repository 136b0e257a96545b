import Shorthand.Stylesheet.Keyword
import Shorthand.Text.Blank
import Shorthand.Value

/-!
# Stylesheet snippets

A snippet of a stylesheet is the name of a property and a template for its value.  The template is
one of three things:

    display:block|none          keywords to choose from, the first being the default
    border:${1:1px} ${2:solid}  text with tab stops
    margin:                     nothing; the value is for the user to type

* `Snippet.parse` : takes a snippet apart.
* `Snippet.templateKeywords` : the words of a text with tab stops that can be chosen as well.
-/

set_option autoImplicit false

namespace Shorthand.Stylesheet

/-- A snippet, taken apart. -/
structure Snippet where
  property : String
  template : Option Value
  keywords : List String := []
  deriving DecidableEq, Inhabited

namespace Snippet

/-- Splits a text at its first colon, if it has one. -/
def splitColon (cs : List Char) : List Char × Option (List Char) :=
  match cs.dropWhile (· != ':') with
  | [] => (cs, none)
  | _ :: rest => (cs.takeWhile (· != ':'), some rest)

/-- Adds a name to others unless it is there. -/
def addNew (names : List String) (name : String) : List String :=
  if names.contains name then names else names ++ [name]

/-- The words of a template that are keywords, each once. -/
def templateKeywords (template : Value) : List String :=
  let words := template.flatMap fun
    | .text s => Text.words s
    | .field f => Text.words f.placeholder
  (words.filter fun word ↦ Keyword.isKeyword word.toList).foldl addNew []

/-- Does a text hold the beginning of a tab stop? -/
def hasMarker : List Char → Bool
  | '$' :: '\x7b' :: _ => true
  | _ :: cs => hasMarker cs
  | [] => false

/-- The alternatives of a template with bars. -/
def alternatives (template : List Char) : List String :=
  ((template.splitOn '|').map Text.trimChars |>.filter (!·.isEmpty)).map String.ofList

/-- Takes a snippet apart. -/
def parse (s : String) : Snippet :=
  let (name, rest) := splitColon s.toList
  let property := String.ofList (Text.trimChars name)
  let template := Text.trimChars (rest.getD [])
  if template.isEmpty then { property, template := none }
  else if template.contains '|' && !hasMarker template then
    match alternatives template with
    | [] => { property, template := none }
    | first :: others =>
      { property
        template := some [.field { index := 1, placeholder := first }]
        keywords := first :: others }
  else
    let value := Value.parse (String.ofList template)
    { property, template := some value, keywords := templateKeywords value }

end Snippet

end Shorthand.Stylesheet
