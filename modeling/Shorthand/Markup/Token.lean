import Shorthand.Failure
import Shorthand.Text.Blank
import Shorthand.Text.Digit
import Shorthand.Text.Tiling

/-!
# Tokens of a markup abbreviation

A markup abbreviation like `ul#nav>li.item$*3>a[href]{Link}` is cut into literals, the signs that
introduce modifiers, operators and bracketed chunks.  The inside of an attribute set is kept as
written and taken apart later; the inside of a text has its backslashes resolved, except those
before a dollar sign, which numbering has to see.

* `Token.scan` : the token that begins a text.
* `Token.ofText` : the tokens of an abbreviation; they tile it.
* `literalChars_size_le`, `textChars_size_le` : a chunk takes no more characters than there are.
-/

set_option autoImplicit false

namespace Shorthand.Markup

/-- What a token is. -/
inductive Lexeme where
  /-- A tag name, an id or a class name. -/
  | literal (text : String)
  | hash
  | dot
  /-- An attribute set, with what stands between the brackets. -/
  | attributes (inner : String)
  /-- A text, with what stands between the braces. -/
  | text (inner : String)
  | groupOpen
  | groupClose
  | child
  | sibling
  | climb
  /-- A multiplier, with its digits; there may be none. -/
  | times (digits : String)
  | close
  deriving DecidableEq, Inhabited

/-- A token and where it begins. -/
structure Token where
  lexeme : Lexeme
  offset : Nat
  deriving DecidableEq, Inhabited

/-! ## Characters -/

/-- Characters that end a literal. -/
def delimiters : List Char :=
  ['#', '.', '[', ']', '{', '}', '(', ')', '*', '>', '+', '^', '/', '=', '\'', '"']

/-- A character that a literal may hold without a backslash. -/
def isLiteralChar (c : Char) : Bool := !delimiters.contains c && !Text.isBlank c

/-- The token that a character is on its own. -/
def Lexeme.ofChar? : Char → Option Lexeme
  | '#' => some .hash
  | '.' => some .dot
  | '(' => some .groupOpen
  | ')' => some .groupClose
  | '>' => some .child
  | '+' => some .sibling
  | '^' => some .climb
  | '/' => some .close
  | _ => none

/-- What a backslash and the character after it stand for: that character, but a dollar sign keeps
its backslash for the numbering. -/
def unescaped (c : Char) : List Char := if c == '$' then ['\\', '$'] else [c]

@[simp] theorem unescaped_dollar : unescaped '$' = ['\\', '$'] := rfl

theorem unescaped_of_ne {c : Char} (h : c ≠ '$') : unescaped c = [c] := by
  simp [unescaped, h]

/-! ## Chunks -/

/-- The literal that begins a text, and the number of characters that it takes. -/
def literalChars : List Char → List Char × Nat
  | [] => ([], 0)
  | [c] => if isLiteralChar c then ([c], 1) else ([], 0)
  | c :: d :: cs =>
    if c == '\\' then
      let (out, size) := literalChars cs
      (unescaped d ++ out, size + 2)
    else if isLiteralChar c then
      let (out, size) := literalChars (d :: cs)
      (c :: out, size + 1)
    else ([], 0)

/-- A text from the character after its opening brace: what it stands for, and the number of
characters that it takes with its closing brace; `depth` pairs of braces are open inside. -/
def textChars : Nat → List Char → Option (List Char × Nat)
  | _, [] => none
  | depth, c :: cs =>
    if c == '\\' then
      match cs with
      | [] => none
      | d :: cs => (textChars depth cs).map fun (out, size) ↦ (unescaped d ++ out, size + 2)
    else if c == '}' then
      match depth with
      | 0 => some ([], 1)
      | depth + 1 => (textChars depth cs).map fun (out, size) ↦ (c :: out, size + 1)
    else
      (textChars (if c == '{' then depth + 1 else depth) cs).map fun (out, size) ↦
        (c :: out, size + 1)

theorem textChars_pair (depth : Nat) (c : Char) (cs : List Char) :
    textChars depth ('\\' :: c :: cs)
      = (textChars depth cs).map fun r ↦ (unescaped c ++ r.1, r.2 + 2) := by
  rw [textChars.eq_def]
  rfl

theorem textChars_close_zero (cs : List Char) : textChars 0 ('\x7d' :: cs) = some ([], 1) := by
  rw [textChars.eq_def]
  rfl

theorem textChars_close_succ (depth : Nat) (cs : List Char) :
    textChars (depth + 1) ('\x7d' :: cs)
      = (textChars depth cs).map fun r ↦ ('\x7d' :: r.1, r.2 + 1) := by
  rw [textChars.eq_def]
  rfl

theorem textChars_open (depth : Nat) (cs : List Char) :
    textChars depth ('\x7b' :: cs)
      = (textChars (depth + 1) cs).map fun r ↦ ('\x7b' :: r.1, r.2 + 1) := by
  rw [textChars.eq_def]
  rfl

theorem textChars_other (depth : Nat) {c : Char} (h : c ≠ '\\' ∧ c ≠ '\x7b' ∧ c ≠ '\x7d')
    (cs : List Char) :
    textChars depth (c :: cs) = (textChars depth cs).map fun r ↦ (c :: r.1, r.2 + 1) := by
  rw [textChars.eq_def]
  simp [h.1, h.2.1, h.2.2]

/-- The inside of an attribute set, from the character after its opening bracket; `quote` is the
quote that is open.  A bracket between quotes or after a backslash does not close the set. -/
def attributeChars : Option Char → List Char → Except Cause (List Char)
  | quote, [] => .error (if quote.isSome then .openQuote else .openAttributes)
  | quote, c :: cs =>
    if c == '\\' then
      match cs with
      | [] => .error (if quote.isSome then .openQuote else .openAttributes)
      | d :: cs => (attributeChars quote cs).map fun inner ↦ c :: d :: inner
    else
      match quote with
      | some q => (attributeChars (if c == q then none else some q) cs).map (c :: ·)
      | none =>
        if c == ']' then .ok []
        else
          (attributeChars (if c == '\'' || c == '"' then some c else none) cs).map (c :: ·)

/-! ## Tokens -/

/-- The token that begins a text at an offset, and the number of characters that it takes. -/
def Token.scan (pos : Nat) : List Char → Except Fault (List Token × Nat)
  | [] => .ok ([], 1)
  | c :: cs =>
    match Lexeme.ofChar? c with
    | some lexeme => .ok ([⟨lexeme, pos⟩], 1)
    | none =>
      if c == '*' then
        let digits := cs.takeWhile Text.isDigit
        .ok ([⟨.times (String.ofList digits), pos⟩], digits.length + 1)
      else if c == '[' then
        match attributeChars none cs with
        | .ok inner => .ok ([⟨.attributes (String.ofList inner), pos⟩], inner.length + 2)
        | .error cause => .error (.malformed cause pos)
      else if c == '{' then
        match textChars 0 cs with
        | some (out, size) => .ok ([⟨.text (String.ofList out), pos⟩], size + 1)
        | none => .error (.malformed .openText pos)
      else if isLiteralChar c then
        let (out, size) := literalChars (c :: cs)
        .ok ([⟨.literal (String.ofList out), pos⟩], size)
      else .error (.malformed .strayCharacter pos)

/-- The tokens of an abbreviation. -/
def Token.ofText (s : String) : Except Fault (List Token) :=
  Text.tileFrom Token.scan 0 0 s.toList

/-! ## Sizes -/

/-- A literal takes no more characters than there are. -/
theorem literalChars_size_le (cs : List Char) : (literalChars cs).2 ≤ cs.length := by
  fun_induction literalChars cs with
  | case1 => simp
  | case2 => simp
  | case3 => simp
  | case4 c d cs _ out size h ih => simp_all
  | case5 c d cs _ _ out size h ih => simp_all
  | case6 => simp

/-- A text takes no more characters than there are. -/
theorem textChars_size_le {depth : Nat} {cs out : List Char} {size : Nat}
    (h : textChars depth cs = some (out, size)) : size ≤ cs.length := by
  fun_induction textChars depth cs generalizing out size with
  | case1 => simp at h
  | case2 => simp at h
  | case3 depth c _ d cs ih =>
    obtain ⟨⟨o, n⟩, hn, he⟩ := Option.map_eq_some_iff.1 h
    obtain ⟨rfl, rfl⟩ := Prod.mk.inj he
    have := ih hn
    simp only [List.length_cons]
    omega
  | case4 =>
    obtain ⟨rfl, rfl⟩ := Prod.mk.inj (Option.some.inj h)
    simp
  | case5 c cs _ _ depth ih =>
    obtain ⟨⟨o, n⟩, hn, he⟩ := Option.map_eq_some_iff.1 h
    obtain ⟨rfl, rfl⟩ := Prod.mk.inj he
    have := ih hn
    simp only [List.length_cons]
    omega
  | case6 depth c cs _ _ ih =>
    obtain ⟨⟨o, n⟩, hn, he⟩ := Option.map_eq_some_iff.1 h
    obtain ⟨rfl, rfl⟩ := Prod.mk.inj he
    have := ih hn
    simp only [List.length_cons]
    omega

end Shorthand.Markup
