import Shorthand.CommandLine.Argument
import Shorthand.Text.Integer

/-!
# The command that serves an editor

The server talks to its editor over the standard streams, or over a network address, whose parts
may be left blank.

* `Serve.call` : what the arguments ask for.
* `Serve.notice` : what is said on the standard error before the server starts.
-/

set_option autoImplicit false

namespace Shorthand.CommandLine.Serve

/-- How the server is reached. -/
inductive Transport where
  | streams
  | network (host : Option String) (port : Option Int)
  deriving DecidableEq, Inhabited

/-- What the options of the command say. -/
structure Settings where
  isNetwork : Bool := false
  host : Option String := some "127.0.0.1"
  port : Option Int := some 2087
  deriving DecidableEq, Inhabited

/-- How the server is reached under some settings. -/
def Settings.transport (s : Settings) : Transport :=
  if s.isNetwork then .network s.host s.port else .streams

/-- The options of the command. -/
def known : Table (OptionForm Settings) := [
  ("--tcp", .flag fun s ↦ { s with isNetwork := true }),
  ("--host", .valued fun value s ↦ some { s with host := value }),
  ("--port", .valued fun value s ↦
    match value with
    | none => some { s with port := none }
    | some value => (Text.integer? value).map fun port ↦ { s with port := some port })]

/-- The command takes no operands. -/
def request (settings : Settings) : List String → Except Refusal Transport
  | [] => .ok settings.transport
  | operands => .error (.leftOver operands)

/-- What the arguments ask for. -/
def call (arguments : List String) : Call Transport := read known {} request arguments

/-- What is said on the standard error before the server starts: with debugging asked for by any
text but the empty one, that there is no debugger to wait for. -/
def notice : Option String → String
  | none | some "" => ""
  | some _ =>
    "🔧 EMMET Server starting in DEBUG mode\n" ++
    "📡 Waiting for debugger to attach on port 5678...\n" ++
    "❌ debugpy not available - install with: pip install -e '.[dev]'\n"

end Shorthand.CommandLine.Serve
