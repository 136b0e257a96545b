import Shorthand.Failure
import Shorthand.Json.Printer

/-!
# What a session tells the client

Besides its answers a session sends messages: reports for the log, a request for the settings, and
the wish to be told about changes of the settings.

* `Report` : what is reported, with `Report.severity` and `Report.text`.
* `Message` : a message to the client.
-/

set_option autoImplicit false

namespace Shorthand.Editor

/-- How grave a report is. -/
inductive Severity where
  | error
  | warning
  | info
  deriving DecidableEq, Inhabited

/-- The name of a severity. -/
def Severity.name : Severity → String
  | .error => "Error"
  | .warning => "Warning"
  | .info => "Info"

/-- Something for the log. -/
inductive Report where
  | ready
  | loaded (options : Nat)
  | malformedSettings (given : Json)
  /-- The client did not let itself be asked for its settings.  The reason is what was raised, by
  its kind and in its own words. -/
  | notLoaded (reason : String)
  /-- The client will not tell about changes of its settings, in its own words. -/
  | notRegistered (reason : String)
  | rejectedOption (name : String)
  /-- The abbreviation found between two places of a line breaks its grammar. -/
  | malformedAbbreviation (line : Int) (start stop : Nat) (abbreviation : String)
    (error : ParseError)
  /-- Nothing could be made of the abbreviation at the cursor. -/
  | notExpanded (failure : Failure)
  /-- A provider could not complete. -/
  | notCompleted (provider reason : String)
  /-- A provider could not fill in an item. -/
  | notResolved (provider reason : String)
  deriving Inhabited

namespace Report

/-- How grave a report is: what the user can mend is a warning. -/
def severity : Report → Severity
  | .ready | .loaded _ => .info
  | .malformedSettings _ | .notRegistered _ | .rejectedOption _
  | .malformedAbbreviation .. => .warning
  | .notLoaded _ | .notExpanded _ | .notCompleted .. | .notResolved .. => .error

/-- The report in words. -/
def text : Report → String
  | .ready => "Emmet language server initialized"
  | .loaded options => "Loaded " ++ toString options ++ " emmet options"
  | .malformedSettings given => "Ignoring malformed emmet settings: " ++ given.display
  | .notLoaded reason => "Failed to load configuration: " ++ reason
  | .notRegistered reason => "Could not register for configuration changes: " ++ reason
  | .rejectedOption name => "Ignoring invalid emmet option: " ++ name
  | .malformedAbbreviation line start stop abbreviation error =>
    "Cannot expand " ++ Text.quoted abbreviation ++ " [" ++ toString line ++ ":" ++
      toString start ++ "-" ++ toString stop ++ "]: " ++ error.message
  | .notExpanded failure =>
    "Abbreviation expansion failed: " ++ failure.kind ++ ": " ++ failure.message
  | .notCompleted provider reason => "Completion error in " ++ provider ++ ": " ++ reason
  | .notResolved provider reason => "Completion resolve error in " ++ provider ++ ": " ++ reason

end Report

/-- A message to the client. -/
inductive Message where
  | report (report : Report)
  /-- Asks for the settings of a section. -/
  | askSettings (sections : String)
  /-- Asks to be told, under an identifier, whenever a method is called for. -/
  | register (identifier method : String)
  deriving Inhabited

/-- The section of the client's settings that is meant for expansion. -/
def settingsSection : String := "emmet"

/-- Asks for the settings. -/
def Message.askForSettings : Message := .askSettings settingsSection

/-- Asks to be told about changes of the settings. -/
def Message.askForChanges : Message :=
  .register "emmetls-did-change-configuration" "workspace/didChangeConfiguration"

end Shorthand.Editor
