import Shorthand.Config.Basic
import Shorthand.Json.Basic
import Shorthand.Text.Blank
import Shorthand.Text.Quoted

/-!
# Options

The fields of a configuration are overridden by options, which go by the names that editors use for
them.  An option takes values of one kind; `OptionName.Target` says which, and
`OptionName.validate` makes such a value of a setting or complains.

A setting is a JSON value or a formatter.  Tables given as a setting are merged over the default
table; sets of names are kept sorted, so that equal sets are equal values.

* `OptionName` : the options.
* `OptionName.validate` : the value that a setting gives an option.
* `OptionName.apply` : a configuration with one option overridden.
-/

set_option autoImplicit false

namespace Shorthand

/-- What an option may be set to. -/
inductive Setting where
  | json (value : Json)
  | fieldFormatter (format : Nat → String → String)
  | textFormatter (format : String → String)
  deriving Inhabited

/-- The options. -/
inductive OptionName where
  | field
  | text
  | indent
  | newline
  | selfClosingStyle
  | selfClosingTags
  | inlineBreak
  | attributeQuotes
  | maxRepeat
  | markupSnippets
  | stylesheetSnippets
  | intUnit
  | floatUnit
  | unitAliases
  | unitless
  | keywords
  | between
  | after
  deriving DecidableEq, Inhabited

/-- What is wrong with a setting. -/
inductive Complaint where
  | notCallable
  | notString
  | hasBlank
  | notOneOf (choices : List String)
  | notCount
  | notPositive
  | notNames
  | notOrderedNames
  | notMapping
  | notStringMapping
  | unknownGrammar (name : String)
  deriving DecidableEq, Inhabited

/-- What is wrong with a setting, in words. -/
def Complaint.message : Complaint → String
  | .notCallable => "expected a callable"
  | .notString => "expected a string"
  | .hasBlank => "must not contain whitespace"
  | .notOneOf choices => "expected one of " ++ String.intercalate ", " choices
  | .notCount => "expected a non-negative integer"
  | .notPositive => "expected a positive integer"
  | .notNames => "expected a list of names"
  | .notOrderedNames => "expected an ordered list of names"
  | .notMapping => "expected a mapping"
  | .notStringMapping => "expected a mapping of strings"
  | .unknownGrammar name => "unknown syntax type " ++ Text.quoted name

/-- A setting that cannot be used. -/
structure ConfigError where
  option : String
  complaint : Complaint
  deriving DecidableEq, Inhabited

/-- The option and what is wrong with its setting. -/
def ConfigError.message (e : ConfigError) : String := e.option ++ ": " ++ e.complaint.message

/-! ## Kinds of values -/

namespace Setting

/-- The JSON value of a setting. -/
def json? : Setting → Option Json
  | .json value => some value
  | _ => none

/-- A setting that is a text. -/
def asString (s : Setting) : Except Complaint String :=
  match s with
  | .json (.string text) => .ok text
  | _ => .error .notString

/-- A setting that is a text without blanks. -/
def asWord (s : Setting) : Except Complaint String := do
  let text ← s.asString
  if text.toList.any Text.isBlank then .error .hasBlank else return text

/-- A setting that is one of the names of given values. -/
def asChoice {α : Type} (name : α → String) (choices : List α) (s : Setting) :
    Except Complaint α :=
  let complaint : Except Complaint α := .error (.notOneOf (choices.map name))
  match s with
  | .json (.string text) =>
    match choices.find? fun choice ↦ name choice == text with
    | some choice => .ok choice
    | none => complaint
  | _ => complaint

/-- A setting that is a number of things. -/
def asCount (s : Setting) : Except Complaint Nat :=
  match s with
  | .json (.integer (.ofNat n)) => .ok n
  | _ => .error .notCount

/-- A setting that is a positive number of things. -/
def asPositive (s : Setting) : Except Complaint Nat := do
  let n ← s.asCount
  if n = 0 then .error .notPositive else return n

/-- The distinct names of a list, in the order in which they first occur. -/
def distinct (names : List String) : List String :=
  names.foldl (fun known name ↦ if known.contains name then known else known ++ [name]) []

/-- A set of names, sorted. -/
def sorted (names : List String) : List String := (distinct names).mergeSort fun a b ↦ a ≤ b

/-- A setting that is a list of names whose order does not count. -/
def asNames (s : Setting) : Except Complaint (List String) :=
  match s.json?.bind Json.strings? with
  | some names => .ok (sorted names)
  | none => .error .notNames

/-- A setting that is a list of names whose order counts. -/
def asOrderedNames (s : Setting) : Except Complaint (List String) :=
  match s with
  | .json (.array items) =>
    match items.mapM Json.string? with
    | some names => .ok (distinct names)
    | none => .error .notNames
  | _ => .error .notOrderedNames

/-- A setting that is a table of texts, merged over a default table. -/
def asTable (base : Table String) (s : Setting) : Except Complaint (Table String) :=
  match s with
  | .json (.object members) =>
    match Json.stringMembers? (.object members) with
    | some later => .ok (base.merge later)
    | none => .error .notStringMapping
  | _ => .error .notMapping

end Setting

/-! ## Options -/

namespace OptionName

/-- All options. -/
def all : List OptionName := [
  .field, .text, .indent, .newline, .selfClosingStyle, .selfClosingTags, .inlineBreak,
  .attributeQuotes, .maxRepeat, .markupSnippets, .stylesheetSnippets, .intUnit, .floatUnit,
  .unitAliases, .unitless, .keywords, .between, .after]

/-- The name that an option goes by. -/
def name : OptionName → String
  | .field => "output.field"
  | .text => "output.text"
  | .indent => "output.indent"
  | .newline => "output.newline"
  | .selfClosingStyle => "output.selfClosingStyle"
  | .selfClosingTags => "output.selfClosingTags"
  | .inlineBreak => "output.inlineBreak"
  | .attributeQuotes => "output.attributeQuotes"
  | .maxRepeat => "markup.maxRepeat"
  | .markupSnippets => "markup.snippets"
  | .stylesheetSnippets => "stylesheet.snippets"
  | .intUnit => "stylesheet.intUnit"
  | .floatUnit => "stylesheet.floatUnit"
  | .unitAliases => "stylesheet.unitAliases"
  | .unitless => "stylesheet.unitless"
  | .keywords => "stylesheet.keywords"
  | .between => "stylesheet.between"
  | .after => "stylesheet.after"

/-- The option of a name. -/
def ofName? (s : String) : Option OptionName := all.find? fun o ↦ o.name == s

/-- Every option is found under its name. -/
theorem ofName?_name (o : OptionName) : ofName? o.name = some o := by
  cases o <;> decide

/-- The values that an option takes. -/
def Target : OptionName → Type
  | .field => Nat → String → String
  | .text => String → String
  | .indent | .newline | .between | .after | .intUnit | .floatUnit => String
  | .selfClosingStyle => SelfClosing
  | .attributeQuotes => Quotes
  | .selfClosingTags | .unitless | .keywords => List String
  | .inlineBreak | .maxRepeat => Nat
  | .markupSnippets | .stylesheetSnippets | .unitAliases => Table String

/-- The value that a setting gives an option. -/
def validate (o : OptionName) (s : Setting) : Except Complaint o.Target :=
  match o with
  | .field =>
    match s with
    | .fieldFormatter format => .ok format
    | _ => .error .notCallable
  | .text =>
    match s with
    | .textFormatter format => .ok format
    | _ => .error .notCallable
  | .indent => s.asString
  | .newline => s.asString
  | .between => s.asString
  | .after => s.asString
  | .intUnit => s.asWord
  | .floatUnit => s.asWord
  | .selfClosingStyle => s.asChoice SelfClosing.name [.html, .xhtml, .xml]
  | .attributeQuotes => s.asChoice Quotes.name [.double, .single]
  | .selfClosingTags => s.asNames
  | .unitless => s.asNames
  | .keywords => s.asOrderedNames
  | .inlineBreak => s.asCount
  | .maxRepeat => s.asPositive
  | .markupSnippets => s.asTable Markup.defaultSnippets
  | .stylesheetSnippets => s.asTable Stylesheet.defaultSnippets
  | .unitAliases => s.asTable ({} : Config).unitAliases

/-- A configuration with one option overridden. -/
def apply (o : OptionName) (value : o.Target) (c : Config) : Config :=
  match o with
  | .field => { c with formatters := { c.formatters with field := value } }
  | .text => { c with formatters := { c.formatters with text := value } }
  | .indent => { c with indent := value }
  | .newline => { c with newline := value }
  | .selfClosingStyle => { c with selfClosing := value }
  | .selfClosingTags => { c with voidTags := value }
  | .inlineBreak => { c with inlineBreak := value }
  | .attributeQuotes => { c with quotes := value }
  | .maxRepeat => { c with maxRepeat := value }
  | .markupSnippets => { c with markupSnippets := value }
  | .stylesheetSnippets => { c with stylesheetSnippets := value }
  | .intUnit => { c with intUnit := value }
  | .floatUnit => { c with floatUnit := value }
  | .unitAliases => { c with unitAliases := value }
  | .unitless => { c with unitless := value }
  | .keywords => { c with keywords := value }
  | .between => { c with between := value }
  | .after => { c with after := value }

end OptionName

/-! ## Resolving -/

namespace Config

/-- A configuration with one named setting taken into account: a setting that cannot be used leaves
it as it is but for the list of such names. -/
def override (c : Config) (name : String) (s : Setting) : Config :=
  match OptionName.ofName? name with
  | none => { c with rejected := c.rejected ++ [name] }
  | some option =>
    match option.validate s with
    | .ok value => option.apply value c
    | .error _ => { c with rejected := c.rejected ++ [name] }

/-- The configuration for a grammar with settings taken into account, in order. -/
def ofSettings (grammar : Grammar) (settings : Table Setting) : Config :=
  settings.foldl (fun c setting ↦ c.override setting.1 setting.2) { grammar }

/-- The configuration for the name of a grammar; an unknown name is an error. -/
def resolve (grammar : String) (settings : Table Setting) : Except ConfigError Config :=
  match Grammar.ofName? grammar with
  | some grammar => .ok (ofSettings grammar settings)
  | none => .error ⟨"type", .unknownGrammar grammar⟩

end Config

end Shorthand
