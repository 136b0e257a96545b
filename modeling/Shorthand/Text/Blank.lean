import Shorthand.Text.Ranges

/-!
# White space

`isBlank` is white space of every script, with the four information separators U+001C to U+001F
and without the zero-width space.

* `isBlank_of_isWhitespace` : what core calls white space is blank.
* `words` : the maximal blank-free pieces of a text.
* `trim`, `isBlankText` : a text without the blanks around it, and a text of nothing else.
-/

set_option autoImplicit false

namespace Shorthand.Text

/-- White space outside ASCII. -/
def blankRanges : Ranges := [
  (0x85, 0x85), (0xa0, 0xa0), (0x1680, 0x1680), (0x2000, 0x200a), (0x2028, 0x2029),
  (0x202f, 0x202f), (0x205f, 0x205f), (0x3000, 0x3000)]

/-- White space. -/
def isBlank (c : Char) : Bool :=
  if isAscii c then c == ' ' || (9 ≤ c.toNat && c.toNat ≤ 13) || (0x1c ≤ c.toNat && c.toNat ≤ 0x1f)
  else blankRanges.contains c.toNat

/-- What core calls white space is blank. -/
theorem isBlank_of_isWhitespace {c : Char} (h : c.isWhitespace = true) : isBlank c = true := by
  simp only [Char.isWhitespace, Bool.or_eq_true, decide_eq_true_eq] at h
  rcases h with (((h | h) | h) | h) <;> subst h <;> decide

/-- The maximal blank-free pieces of a text: `word` is the piece being read, backwards. -/
def wordsFrom (word : List Char) : List Char → List (List Char)
  | [] => if word.isEmpty then [] else [word.reverse]
  | c :: cs =>
    if isBlank c then
      if word.isEmpty then wordsFrom [] cs else word.reverse :: wordsFrom [] cs
    else wordsFrom (c :: word) cs

/-- The maximal blank-free pieces of a text. -/
def words (s : String) : List String := (wordsFrom [] s.toList).map String.ofList

/-- A text without the blanks at its ends. -/
def trimChars (cs : List Char) : List Char :=
  ((cs.dropWhile isBlank).reverse.dropWhile isBlank).reverse

/-- A text without the blanks at its ends. -/
def trim (s : String) : String := String.ofList (trimChars s.toList)

/-- A text of nothing but blanks; the empty text is one. -/
def isBlankText (cs : List Char) : Bool := cs.all isBlank

end Shorthand.Text
