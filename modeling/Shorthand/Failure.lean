import Shorthand.Text.Quoted

/-!
# What can go wrong with an abbreviation

An abbreviation that breaks its grammar is refused with a `ParseError`: the cause, the offset where
the trouble was found, and the text that was being read, which is a snippet's when a snippet is to
blame.  Two other failures are kept apart from these since they name no place: a repeat count that
holds digits without a place in a numeral, and a pass that meets a group it does not expect.

* `Fault` : a failure that does not know yet in which text it happened.
* `ParseError.message`, `ParseError.report` : the wording, bare and with the place.
* `Failure.kind`, `Failure.message` : how a failure is named and worded.
-/

set_option autoImplicit false

namespace Shorthand

/-- Why an abbreviation is refused. -/
inductive Cause where
  /-- A character that begins no token. -/
  | strayCharacter
  | openQuote
  | openAttributes
  | openText
  | emptyAbbreviation
  /-- A token where none of its kind may stand. -/
  | strayToken
  | textWithChildren
  | noRightOperand
  | noLeftOperand
  | openGroup
  | emptyGroup
  | noId
  | noClass
  | noCount
  | zeroCount
  | noAttributeName
  | openAttributeValue
  | tooManyCopies
  | emptyDeclaration
  | noProperty
  deriving DecidableEq, Inhabited

/-- An abbreviation that breaks its grammar. -/
structure ParseError where
  cause : Cause
  /-- Where in `abbreviation` the trouble was found. -/
  offset : Nat
  /-- The text that was being read. -/
  abbreviation : String
  deriving DecidableEq, Inhabited

namespace ParseError

/-- The character at the place of the trouble, as a message shows it. -/
def culprit (e : ParseError) : String :=
  Text.quoted (String.ofList ((e.abbreviation.toList.drop e.offset).take 1))

/-- What is wrong, without the place. -/
def message (e : ParseError) : String :=
  match e.cause with
  | .strayCharacter => "Unexpected character " ++ e.culprit
  | .openQuote => "Unclosed quote in attributes"
  | .openAttributes => "Unclosed attribute set"
  | .openText => "Unclosed text"
  | .emptyAbbreviation => "Empty abbreviation"
  | .strayToken => "Unexpected " ++ e.culprit
  | .textWithChildren => "Text cannot have children"
  | .noRightOperand => "Operator " ++ e.culprit ++ " has no right-hand operand"
  | .noLeftOperand => "Operator " ++ e.culprit ++ " has no left-hand operand"
  | .openGroup => "Unclosed group"
  | .emptyGroup => "Empty group"
  | .noId => "Expected id"
  | .noClass => "Expected class name"
  | .noCount => "Missing repeat count"
  | .zeroCount => "Repeat count must be positive"
  | .noAttributeName => "Expected attribute name"
  | .openAttributeValue => "Unclosed attribute value"
  | .tooManyCopies => "Repeat count too large"
  | .emptyDeclaration => "Empty declaration"
  | .noProperty => "Missing property name"

/-- What is wrong and where; the text is left out when there is none. -/
def report (e : ParseError) : String :=
  let place := e.message ++ " at " ++ toString e.offset
  if e.abbreviation.isEmpty then place else place ++ " in " ++ Text.quoted e.abbreviation

end ParseError

/-- A failure that does not know yet in which text it happened. -/
inductive Fault where
  | malformed (cause : Cause) (offset : Nat)
  /-- A repeat count with a digit that has no place in a numeral. -/
  | unreadableCount (digits : String)
  deriving DecidableEq, Inhabited

/-- What can go wrong with an abbreviation. -/
inductive Failure where
  | malformed (error : ParseError)
  /-- A repeat count with a digit that has no place in a numeral. -/
  | unreadableCount (digits : String)
  /-- A group was left when the `$` signs were numbered. -/
  | groupInNumbering
  /-- A group was left when the output was written. -/
  | groupInOutput
  deriving DecidableEq, Inhabited

/-- The failure that a fault is, once the text is known. -/
def Fault.inText (abbreviation : String) : Fault → Failure
  | .malformed cause offset => .malformed ⟨cause, offset, abbreviation⟩
  | .unreadableCount digits => .unreadableCount digits

/-- Names the text in which a part of the reader ran. -/
def Fault.located {α : Type} (abbreviation : String) : Except Fault α → Except Failure α :=
  Except.mapError (Fault.inText abbreviation)

namespace Failure

/-- The name under which a failure is reported. -/
def kind : Failure → String
  | .malformed _ => "ParseError"
  | .unreadableCount _ => "ValueError"
  | .groupInNumbering | .groupInOutput => "TypeError"

/-- A quoted text as far as a message shows it: not more than 200 characters, quotes included. -/
def excerpt (s : String) : String := String.ofList ((Text.quoted s).toList.take 200)

/-- What is wrong, without the place. -/
def message : Failure → String
  | .malformed e => e.message
  | .unreadableCount digits => "invalid literal for int() with base 10: " ++ excerpt digits
  | .groupInNumbering => "numbering runs on unrolled trees only"
  | .groupInOutput => "groups must be unrolled before output"

end Failure

end Shorthand
