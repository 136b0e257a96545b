import Shorthand.Markup.AttributeSet
import Shorthand.Markup.Token

/-!
# The tree of a markup abbreviation

An abbreviation is a row of items, each an element, a text or a group in parentheses, with operators
between them.  The operators say at which *level* the next item hangs: `>` one below the item before
it, `+` at the same level, every `^` one level up but never above the top.  Reading gives the items
with their levels (`statements`); `nest` then hangs each item of level `d + 1` under the latest item
of level `d`.

* `Tree.parse` : the raw tree of an abbreviation, with its groups and multipliers.
* `Tree.statements` : the items of a row, with their levels.
* `Tree.nest` : the tree that items with levels stand for.

Reading recurses with the number of tokens as its bound, since every item takes at least one token.
Groups may be nested to any depth; the limit of an interpreter on the depth of calls is left out.
-/

set_option autoImplicit false

namespace Shorthand.Markup.Tree

/-! ## From levels to a tree -/

/-- Rewrites the last node of a list. -/
def mapLast (f : Node → Node) : List Node → List Node
  | [] => []
  | [n] => [f n]
  | n :: m :: ns => n :: mapLast f (m :: ns)

/-- Hangs a node at a level: at level 0 after the others, deeper under the last of them. -/
def attach : Nat → Node → List Node → List Node
  | 0, node, nodes => nodes ++ [node]
  | level + 1, node, nodes =>
    mapLast (fun last ↦ last.withChildren (attach level node last.children)) nodes

/-- The nodes that a row of items with levels stands for. -/
def nest (items : List (Nat × Node)) : List Node :=
  items.foldl (fun nodes item ↦ attach item.1 item.2 nodes) []

/-! ## Elements -/

/-- What the reader has still to read. -/
abbrev Tokens := List Token

/-- Where the next token begins, or where the abbreviation stops. -/
def here (stop : Nat) : Tokens → Nat
  | [] => stop
  | token :: _ => token.offset

/-- Reads the modifiers of an element: ids, classes, attribute sets and texts. -/
def modifiers (stop : Nat) : Element → Tokens → Except Fault (Element × Tokens)
  | e, ⟨.hash, _⟩ :: ⟨.literal text, _⟩ :: rest =>
    modifiers stop { e with id := some (Value.parse text) } rest
  | _, ⟨.hash, _⟩ :: rest => .error (.malformed .noId (here stop rest))
  | e, ⟨.dot, _⟩ :: ⟨.literal text, _⟩ :: rest =>
    modifiers stop (e.addClass (Value.parse text)) rest
  | _, ⟨.dot, _⟩ :: rest => .error (.malformed .noClass (here stop rest))
  | e, ⟨.attributes inner, offset⟩ :: rest => do
    let attributes ← AttributeSet.read (offset + 1) inner
    modifiers stop (attributes.foldl Element.fold e) rest
  | e, ⟨.text inner, _⟩ :: rest => modifiers stop (e.addText (Value.parse inner)) rest
  | e, rest => .ok (e, rest)

/-- A token that begins an element. -/
def startsElement : Lexeme → Bool
  | .literal _ | .hash | .dot | .attributes _ | .text _ => true
  | _ => false

/-- The multiplier that digits at an offset stand for. -/
def multiplier (digits : String) (offset : Nat) : Except Fault Multiplier :=
  if digits.isEmpty then .error (.malformed .noCount offset)
  else
    match Text.numeral? digits.toList with
    | none => .error (.unreadableCount digits)
    | some 0 => .error (.malformed .zeroCount offset)
    | some count => .ok { count }

/-- Reads one of the marks that may follow the modifiers: a multiplier, of which there is one, or
the slash of a tag that closes itself. -/
def mark (e : Element) (times : Option Multiplier) :
    Tokens → Except Fault (Element × Option Multiplier × Tokens)
  | ⟨.times digits, offset⟩ :: rest =>
    if times.isNone then do
      let times ← multiplier digits offset
      return (e, some times, rest)
    else .ok (e, times, ⟨.times digits, offset⟩ :: rest)
  | ⟨.close, _⟩ :: rest => .ok ({ e with selfClosing := true }, times, rest)
  | rest => .ok (e, times, rest)

/-- The node that an element is: one with nothing but text is a text. -/
def nodeOf (e : Element) (times : Option Multiplier) : Node :=
  match e.text with
  | some text => if e.isBare then .text text times e.offset else .element e times []
  | none => .element e times []

/-- Reads what follows the name of an element: its modifiers and at most two marks. -/
def finish (stop : Nat) (e : Element) (tokens : Tokens) : Except Fault (Node × Tokens) := do
  let (e, rest) ← modifiers stop e tokens
  let (e, times, rest) ← mark e none rest
  let (e, times, rest) ← mark e times rest
  return (nodeOf e times, rest)

/-- Reads an element or a text. -/
def element (stop : Nat) : Tokens → Except Fault (Node × Tokens)
  | [] => .error (.malformed .strayToken stop)
  | ⟨.literal name, offset⟩ :: rest => finish stop { name := some name, offset } rest
  | ⟨lexeme, offset⟩ :: rest =>
    if startsElement lexeme then finish stop { offset } (⟨lexeme, offset⟩ :: rest)
    else .error (.malformed .strayToken offset)

/-! ## Rows of items -/

/-- Is the token an operator? -/
def isOperator : Lexeme → Bool
  | .child | .sibling | .climb => true
  | _ => false

/-- Does a row of items end here? -/
def atEnd : Tokens → Bool
  | [] => true
  | ⟨.groupClose, _⟩ :: _ => true
  | _ => false

/-- Passes over the climbs that begin the tokens, and counts them. -/
def climbs : Tokens → Nat × Tokens
  | ⟨.climb, _⟩ :: rest =>
    let (count, rest) := climbs rest
    (count + 1, rest)
  | rest => (0, rest)

/-- Reads the operator after an item at a level: the level of the next item. -/
def operator (node : Node) (level : Nat) : Tokens → Except Fault (Nat × Tokens)
  | ⟨.child, offset⟩ :: rest =>
    if node.isText then .error (.malformed .textWithChildren offset) else .ok (level + 1, rest)
  | ⟨.sibling, _⟩ :: rest => .ok (level, rest)
  | ⟨.climb, _⟩ :: rest =>
    let (count, rest) := climbs rest
    .ok (level - (count + 1), rest)
  | ⟨_, offset⟩ :: _ => .error (.malformed .strayToken offset)
  | [] => .ok (level, [])

/-- Is there an operand after an operator? -/
def hasOperand : Tokens → Bool
  | [] => false
  | token :: _ => token.lexeme != .groupClose && !isOperator token.lexeme

/-- Reads one item; `inside` reads the row of items of a group. -/
def item (stop : Nat) (inside : Tokens → Except Fault (List (Nat × Node) × Tokens)) :
    Tokens → Except Fault (Node × Tokens)
  | ⟨.groupOpen, offset⟩ :: rest => do
    let (items, rest) ← inside rest
    match rest with
    | ⟨.groupClose, _⟩ :: rest =>
      if items.isEmpty then .error (.malformed .emptyGroup offset)
      else
        match rest with
        | ⟨.times digits, at_⟩ :: rest => do
          let times ← multiplier digits at_
          return (.group (nest items) (some times) offset, rest)
        | rest => return (.group (nest items) none offset, rest)
    | _ => .error (.malformed .openGroup offset)
  | ⟨lexeme, offset⟩ :: rest =>
    if isOperator lexeme then .error (.malformed .noLeftOperand offset)
    else element stop (⟨lexeme, offset⟩ :: rest)
  | [] => .error (.malformed .strayToken stop)

/-- Reads a row of items, the first at a given level, up to the end of the tokens or to the closing
parenthesis of the group around it.  `fuel` bounds the number of tokens. -/
def statements (stop : Nat) :
    Nat → Nat → Tokens → Except Fault (List (Nat × Node) × Tokens)
  | 0, _, tokens => .error (.malformed .strayToken (here stop tokens))
  | fuel + 1, level, tokens =>
    if atEnd tokens then .ok ([], tokens)
    else do
      let (node, rest) ← item stop (statements stop fuel 0) tokens
      if atEnd rest then return ([(level, node)], rest)
      else
        let (next, after) ← operator node level rest
        if hasOperand after then
          let (items, rest) ← statements stop fuel next after
          return ((level, node) :: items, rest)
        else .error (.malformed .noRightOperand (here stop rest))

/-- The raw tree of the tokens of an abbreviation that stops at a given offset. -/
def ofTokens (stop : Nat) (tokens : Tokens) : Except Fault (List Node) :=
  if tokens.isEmpty then .error (.malformed .emptyAbbreviation 0)
  else do
    let (items, rest) ← statements stop (tokens.length + 1) 0 tokens
    match rest with
    | [] => return nest items
    | token :: _ => .error (.malformed .strayToken token.offset)

/-- The raw tree of an abbreviation, with its groups and multipliers. -/
def parse (abbreviation : String) : Except Failure (List Node) :=
  Fault.located abbreviation do
    let tokens ← Token.ofText abbreviation
    ofTokens abbreviation.length tokens

end Shorthand.Markup.Tree
