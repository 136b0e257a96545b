import Shorthand.CommandLine.Expand

/-!
# The program

Expands the abbreviation at the end of a line that is given on the command line.
-/

set_option autoImplicit false

namespace Shorthand

/-- How the program is called. -/
def usage : String :=
  "usage: expand [-h] [--stylesheet] [--column COLUMN] [--option NAME=VALUE] line"

end Shorthand

open Shorthand CommandLine in
/-- Writes what the command leaves behind, and ends with its code. -/
def main (arguments : List String) : IO UInt32 := do
  match Expand.call arguments with
  | .help =>
    IO.println usage
    return 0
  | .refused _ =>
    IO.eprintln usage
    return 2
  | .accepted request =>
    match Expand.run request with
    | .ok output =>
      IO.print output.standardOutput
      IO.eprint output.standardError
      return UInt32.ofNat output.code
    | .error failure =>
      IO.eprintln (failure.kind ++ ": " ++ failure.message)
      return 1
