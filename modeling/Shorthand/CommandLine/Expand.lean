import Shorthand.CommandLine.Argument
import Shorthand.Config.Option
import Shorthand.Expansion
import Shorthand.Json.Reader
import Shorthand.Text.Integer

/-!
# The command that expands a line

The command takes a line and expands the abbreviation that ends in a given column of it, or at its
end.  The output goes to the standard output; what could not be used, and why there is no output,
goes to the standard error.

A column or an option that is left blank breaks the command down when it is used.

* `Expand.call` : what the arguments ask for.
* `Expand.run` : what the command then does.
* `readSetting` : the name and the value of an option in one argument.
-/

set_option autoImplicit false

namespace Shorthand.CommandLine

/-! ## Options in one argument -/

/-- A text that does not name an option and its value. -/
structure MalformedSetting where
  text : String
  deriving DecidableEq, Inhabited

/-- What is wrong with the text. -/
def MalformedSetting.message (m : MalformedSetting) : String :=
  "expected name=value, got " ++ Text.quoted m.text

/-- The name and the value of an option in one argument: a value that is no JSON is a text. -/
def readSetting (s : String) : Except MalformedSetting (String × Json) :=
  match splitAtEquals s with
  | (name, some value) =>
    if name.isEmpty then .error ⟨s⟩ else .ok (name, (Json.read? value).getD (.string value))
  | (_, none) => .error ⟨s⟩

namespace Expand

/-! ## Arguments -/

/-- Where the abbreviation ends. -/
inductive Column where
  | lineEnd
  | number (n : Int)
  | blank
  deriving DecidableEq, Inhabited

/-- What the options of the command say. -/
structure Settings where
  grammar : Grammar := .markup
  column : Column := .lineEnd
  /-- Options of the configuration, in the order in which they were given; none for a blank. -/
  options : List (Option (String × Json)) := []
  deriving Inhabited

/-- The settings with one more option of the configuration. -/
def Settings.addOption (s : Settings) (option : Option (String × Json)) : Settings :=
  { s with options := s.options ++ [option] }

/-- What the command is asked for. -/
structure Request where
  line : String
  settings : Settings
  deriving Inhabited

/-- The options of the command. -/
def known : Table (OptionForm Settings) := [
  ("--stylesheet", .flag fun s ↦ { s with grammar := .stylesheet }),
  ("--column", .valued fun value s ↦
    match value with
    | none => some { s with column := .blank }
    | some value => (Text.integer? value).map fun n ↦ { s with column := .number n }),
  ("--option", .valued fun value s ↦
    match value with
    | none => some (s.addOption none)
    | some value => (readSetting value).toOption.map fun option ↦ s.addOption (some option))]

/-- The command takes one line. -/
def request (settings : Settings) : List String → Except Refusal Request
  | [] => .error .noOperand
  | [line] => .ok ⟨line, settings⟩
  | _ :: rest => .error (.leftOver rest)

/-- What the arguments ask for. -/
def call (arguments : List String) : Call Request := read known {} request arguments

/-! ## Running -/

/-- What a command leaves behind. -/
structure Output where
  code : Nat
  standardOutput : String := ""
  standardError : String := ""
  deriving DecidableEq, Inhabited

/-- What keeps the command from leaving anything behind. -/
inductive Breakdown where
  | expansion (failure : Failure)
  | blankColumn
  /-- The first blank among the options of the configuration, counted from 0. -/
  | blankOption (place : Nat)
  deriving DecidableEq, Inhabited

/-- The name under which a breakdown is reported. -/
def Breakdown.kind : Breakdown → String
  | .expansion failure => failure.kind
  | .blankColumn => "TypeError"
  | .blankOption _ => "ValueError"

/-- What is wrong. -/
def Breakdown.message : Breakdown → String
  | .expansion failure => failure.message
  | .blankColumn => "'>' not supported between instances of 'list' and 'int'"
  | .blankOption place =>
    "dictionary update sequence element #" ++ toString place ++ " has length 0; 2 is required"

/-- The column in a line where the abbreviation ends, if it is not the end of the line. -/
def Column.position : Column → Except Breakdown (Option Int)
  | .lineEnd => .ok none
  | .number n => .ok (some n)
  | .blank => .error .blankColumn

/-- The options of the configuration if none of them is blank. -/
def Settings.filledOptions (s : Settings) : Except Breakdown (List (String × Json)) :=
  match s.options.findIdx? Option.isNone with
  | some place => .error (.blankOption place)
  | none => .ok (s.options.filterMap id)

/-- Texts as lines. -/
def lines (texts : List String) : String := String.join (texts.map (· ++ "\n"))

/-- What the command does for a request.  An abbreviation that breaks its grammar is an ordinary
outcome; any other failure is not. -/
def run (r : Request) : Except Breakdown Output := do
  let s := r.settings
  let column ← s.column.position
  match Extraction.extract (Expansion.surroundings s.grammar) r.line column with
  | none => return { code := 1, standardError := lines ["No abbreviation found"] }
  | some found =>
    let options ← s.filledOptions
    let given := (Table.ofEntries options).map fun (name, value) ↦ (name, Setting.json value)
    let config := Config.ofSettings s.grammar given
    let rejected := config.rejected.map ("Ignoring invalid option: " ++ ·)
    match Expansion.expand config found.abbreviation with
    | .ok output =>
      return { code := 0, standardOutput := lines [output], standardError := lines rejected }
    | .error (.malformed error) =>
      return { code := 1, standardError := lines (rejected ++ ["Error: " ++ error.report]) }
    | .error failure => throw (.expansion failure)

end Expand

end Shorthand.CommandLine
