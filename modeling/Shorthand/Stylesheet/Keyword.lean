import Shorthand.Text.Alphanumeric
import Shorthand.Text.LowerCase

/-!
# Keywords of style values

A keyword is a row of words with dashes between them, such as `inline-block`; every word begins with
an ASCII letter.  In an abbreviation a keyword may be cut short: to the initials of its words, or to
its first letters.

* `Keyword.size` : the number of characters of the keyword that begins a text.
* `Keyword.find?` : the keyword that a shortened one stands for.
-/

set_option autoImplicit false

namespace Shorthand.Stylesheet.Keyword

/-- The number of characters that carry a keyword on. -/
def tailSize : List Char → Nat
  | [] => 0
  | c :: cs =>
    if Text.isWord c then tailSize cs + 1
    else
      match c, cs with
      | '-', d :: ds => if Text.isLetter d then tailSize ds + 2 else 0
      | _, _ => 0

/-- The number of characters of the keyword that begins a text; 0 if there is none. -/
def size : List Char → Nat
  | [] => 0
  | c :: cs => if Text.isLetter c then tailSize cs + 1 else 0

/-- Is the text a keyword and nothing else? -/
def isKeyword (cs : List Char) : Bool := !cs.isEmpty && size cs == cs.length

theorem tailSize_le (cs : List Char) : tailSize cs ≤ cs.length := by
  fun_induction tailSize cs with
  | case1 => simp
  | case2 c cs _ ih => simpa using ih
  | case3 d ds _ _ ih => simpa using ih
  | case4 => simp
  | case5 => simp

theorem size_le (cs : List Char) : size cs ≤ cs.length := by
  cases cs with
  | nil => simp [size]
  | cons c cs =>
    rw [size]
    split
    · simpa using tailSize_le cs
    · simp

/-- The initials of the words of a keyword. -/
def initials (keyword : String) : List Char :=
  (keyword.toList.splitOn '-').filterMap List.head?

/-- The keyword among candidates that a shortened one stands for: the keyword itself, else the first
one with these initials, else the first one that begins with it.  The case of what was typed does
not matter; the candidates are taken as they are. -/
def find? (typed : String) (candidates : List String) : Option String :=
  let typed := (Text.lower typed).toList
  (candidates.find? fun c ↦ c.toList == typed).or
    ((candidates.find? fun c ↦ initials c == typed).or
      (candidates.find? fun c ↦ typed.isPrefixOf c.toList))

/-- Only candidates are found. -/
theorem mem_of_find? {typed keyword : String} {candidates : List String}
    (h : find? typed candidates = some keyword) : keyword ∈ candidates := by
  rw [find?, Option.or_eq_some_iff, Option.or_eq_some_iff] at h
  rcases h with h | ⟨-, h | ⟨-, h⟩⟩ <;> exact List.mem_of_find?_eq_some h

end Shorthand.Stylesheet.Keyword
