import Shorthand.Table
import Shorthand.Text.Digit

/-!
# Arguments of a command

A command is called with arguments.  Those that begin with two dashes name an option, in full or by
a beginning that no other option shares; the value of an option is attached with an equals sign or
is the next argument, and a separator attached in its place leaves it blank.  One letter calls for
help.  Everything else is an operand: a text that begins with no dash, a lone dash, a negative
number, and a text with a blank that names no option.  After the separator `--` there are operands
only.

The arguments are first told apart (`Word.ofArguments`) and then taken in order
(`Arguments.collect`).  A call for help ends the taking, but an option that could mean several is
refused before anything is taken.

* `read` : what the arguments of a command come to.
* `Word.ofArguments_separator` : after the separator there are operands only.
* `Arguments.collect_operands` : operands are taken as they come.
-/

set_option autoImplicit false

namespace Shorthand.CommandLine

/-- What an option does to the settings of a command. -/
inductive OptionForm (α : Type) where
  | flag (set : α → α)
  /-- Takes a value, which may be blank or unfit. -/
  | valued (set : Option String → α → Option α)
  | help

/-- Why arguments are refused. -/
inductive Refusal where
  /-- An option is named by a beginning that several share. -/
  | ambiguous (argument : String)
  /-- A value is attached to an option that takes none. -/
  | unwantedValue (value : String)
  | noValue
  | unfitValue (value : String)
  /-- Arguments that nobody takes. -/
  | leftOver (arguments : List String)
  | noOperand
  deriving DecidableEq, Inhabited

/-- An argument told apart. -/
inductive Word (α : Type) where
  | operand (text : String)
  | separator
  /-- An option, with the value attached to it. -/
  | option (form : OptionForm α) (attached : Option String)
  | unknown (text : String)

/-! ## Telling arguments apart -/

/-- A text up to its first equals sign, and the text after that. -/
def splitAtEquals (s : String) : String × Option String :=
  let cs := s.toList
  match cs.dropWhile (· != '=') with
  | [] => (s, none)
  | _ :: value => (String.ofList (cs.takeWhile (· != '=')), some (String.ofList value))

/-- Are these the characters of a number without its sign?  A line feed may end it. -/
def isNumeral (cs : List Char) : Bool :=
  let cs := if cs.getLast? == some '\n' then cs.dropLast else cs
  match cs.dropWhile Text.isDecimal with
  | [] => !cs.isEmpty
  | '.' :: places => !places.isEmpty && places.all Text.isDecimal
  | _ => false

variable {α : Type}

namespace Word

/-- An argument that names no option. -/
def ofNameless (s : String) : Word α := if s.toList.contains ' ' then .operand s else .unknown s

/-- An argument that begins with two dashes. -/
def ofLong (known : Table (OptionForm α)) (s : String) : Except Refusal (Word α) :=
  let (name, attached) := splitAtEquals s
  match known.get? name with
  | some form => .ok (.option form attached)
  | none =>
    match known.filter fun entry ↦ name.toList.isPrefixOf entry.1.toList with
    | [] => .ok (ofNameless s)
    | [(_, form)] => .ok (.option form attached)
    | _ => .error (.ambiguous s)

/-- The call for help by one letter, which may be repeated; anything else after it, less an equals
sign in front, is a value. -/
def ofHelp (rest : List Char) : Word α :=
  let tail := match rest with
    | '=' :: tail => tail
    | _ => rest
  if rest.isEmpty || (!tail.isEmpty && tail.all (· == 'h')) then .option .help none
  else .option .help (some (String.ofList tail))

/-- An argument before the separator. -/
def ofArgument (known : Table (OptionForm α)) (s : String) : Except Refusal (Word α) :=
  match s.toList with
  | '-' :: '-' :: _ => ofLong known s
  | '-' :: 'h' :: rest => .ok (ofHelp rest)
  | '-' :: c :: rest => .ok (if isNumeral (c :: rest) then .operand s else ofNameless s)
  | _ => .ok (.operand s)

/-- The arguments told apart. -/
def ofArguments (known : Table (OptionForm α)) : List String → Except Refusal (List (Word α))
  | [] => .ok []
  | s :: rest =>
    if s = "--" then .ok (.separator :: rest.map .operand)
    else do
      let word ← ofArgument known s
      let words ← ofArguments known rest
      return word :: words

/-- After the separator there are operands only. -/
@[simp] theorem ofArguments_separator (known : Table (OptionForm α)) (rest : List String) :
    ofArguments known ("--" :: rest) = .ok (.separator :: rest.map .operand) := by
  simp [ofArguments]

end Word

/-! ## Taking them in order -/

/-- The arguments taken so far. -/
structure Arguments (α : Type) where
  settings : α
  operands : List String := []
  leftOver : List String := []

namespace Arguments

/-- One more operand. -/
def addOperand (a : Arguments α) (s : String) : Arguments α :=
  { a with operands := a.operands ++ [s] }

/-- One more argument that nobody takes. -/
def addLeftOver (a : Arguments α) (s : String) : Arguments α :=
  { a with leftOver := a.leftOver ++ [s] }

/-- The arguments after an option was given a value; a separator is a blank one. -/
def setValue (a : Arguments α) (set : Option String → α → Option α) (value : String) :
    Except Refusal (Arguments α) :=
  match set (if value = "--" then none else some value) a.settings with
  | some settings => .ok { a with settings }
  | none => .error (.unfitValue value)

/-- Takes the words in order; the result is none if one of them calls for help.  A separator goes
with an operand beside it. -/
def collect : Arguments α → List (Word α) → Except Refusal (Option (Arguments α))
  | a, [] => .ok (some a)
  | a, .operand s :: .separator :: words => collect (a.addOperand s) words
  | a, .separator :: .operand s :: words => collect (a.addOperand s) words
  | a, .operand s :: words => collect (a.addOperand s) words
  | a, .separator :: words => collect (a.addLeftOver "--") words
  | a, .unknown s :: words => collect (a.addLeftOver s) words
  | _, .option .help none :: _ => .ok none
  | _, .option .help (some value) :: _ => .error (.unwantedValue value)
  | a, .option (.flag set) none :: words => collect { a with settings := set a.settings } words
  | _, .option (.flag _) (some value) :: _ => .error (.unwantedValue value)
  | a, .option (.valued set) (some value) :: words =>
    match a.setValue set value with
    | .ok a => collect a words
    | .error refusal => .error refusal
  | a, .option (.valued set) none :: .operand value :: words =>
    match a.setValue set value with
    | .ok a => collect a words
    | .error refusal => .error refusal
  | _, .option (.valued _) none :: _ => .error .noValue

/-- Operands are taken as they come. -/
theorem collect_operands (a : Arguments α) (ss : List String) :
    collect a (ss.map .operand) = .ok (some { a with operands := a.operands ++ ss }) := by
  induction ss generalizing a with
  | nil => simp [collect]
  | cons s ss ih =>
    have hstep : collect a (Word.operand s :: ss.map .operand) =
        collect (a.addOperand s) (ss.map .operand) := by
      cases ss <;> simp [collect]
    rw [List.map_cons, hstep, ih]
    simp [addOperand]

end Arguments

/-! ## Commands -/

/-- What a call of a command comes to. -/
inductive Call (β : Type) where
  | help
  | refused (refusal : Refusal)
  | accepted (request : β)
  deriving Inhabited

/-- The code with which a command ends that does nothing else. -/
def Call.code? {β : Type} : Call β → Option Nat
  | .help => some 0
  | .refused _ => some 2
  | .accepted _ => none

/-- What a call comes to if the command knows some options, starts from some settings, and makes a
request of the settings and the operands. -/
def read {β : Type} (known : Table (OptionForm α)) (settings : α)
    (request : α → List String → Except Refusal β) (arguments : List String) : Call β :=
  match Word.ofArguments (known.put "--help" .help) arguments with
  | .error refusal => .refused refusal
  | .ok words =>
    match Arguments.collect { settings } words with
    | .error refusal => .refused refusal
    | .ok none => .help
    | .ok (some a) =>
      if a.leftOver.isEmpty then
        match request a.settings a.operands with
        | .ok request => .accepted request
        | .error refusal => .refused refusal
      else .refused (.leftOver a.leftOver)

end Shorthand.CommandLine
