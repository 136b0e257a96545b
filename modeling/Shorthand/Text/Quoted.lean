import Shorthand.Text.Printable

/-!
# Text shown in a message

A message shows a piece of text between quotes, so that its ends and its odd characters can be
seen.  Single quotes are used unless the text holds a single quote and no double one.  Inside, a
backslash and the quote in use get a backslash before them, line ends and tabs are written `\n`,
`\r` and `\t`, and any other character that is not printable is written by its code point.

* `quoted_of_plain` : a plain text is shown as it is, between single quotes.
-/

set_option autoImplicit false

namespace Shorthand.Text

/-- The digits of a number in base sixteen, at least `width` of them. -/
def hex (width n : Nat) : List Char :=
  let digits := Nat.toDigits 16 n
  List.replicate (width - digits.length) '0' ++ digits

/-- How one character is shown between a given quote. -/
def shownChar (quote c : Char) : List Char :=
  if c == quote || c == '\\' then ['\\', c]
  else if c == '\n' then ['\\', 'n']
  else if c == '\r' then ['\\', 'r']
  else if c == '\t' then ['\\', 't']
  else if isPrintable c then [c]
  else if c.toNat < 0x100 then '\\' :: 'x' :: hex 2 c.toNat
  else if c.toNat < 0x10000 then '\\' :: 'u' :: hex 4 c.toNat
  else '\\' :: 'U' :: hex 8 c.toNat

/-- The quote that a text is shown between. -/
def quoteFor (cs : List Char) : Char :=
  if cs.contains '\'' && !cs.contains '"' then '"' else '\''

/-- A text as a message shows it. -/
def quoted (s : String) : String :=
  let quote := quoteFor s.toList
  String.ofList (quote :: s.toList.flatMap (shownChar quote) ++ [quote])

/-- Shows as itself between single quotes. -/
def IsPlain (c : Char) : Prop := isPrintable c = true ∧ c ≠ '\'' ∧ c ≠ '\\'

theorem shownChar_of_plain {c : Char} (h : IsPlain c) : shownChar '\'' c = [c] := by
  obtain ⟨hp, hq, hb⟩ := h
  have hn : c ≠ '\n' := by rintro rfl; exact absurd hp (by decide)
  have hr : c ≠ '\r' := by rintro rfl; exact absurd hp (by decide)
  have ht : c ≠ '\t' := by rintro rfl; exact absurd hp (by decide)
  simp [shownChar, hp, hq, hb, hn, hr, ht]

/-- A plain text is shown as it is, between single quotes. -/
theorem quoted_of_plain {s : String} (h : ∀ c ∈ s.toList, IsPlain c) :
    quoted s = "'" ++ s ++ "'" := by
  have hq : quoteFor s.toList = '\'' := by
    have : '\'' ∉ s.toList := fun hm ↦ (h _ hm).2.1 rfl
    simp [quoteFor, this]
  have hb : s.toList.flatMap (shownChar '\'') = s.toList := by
    have : ∀ cs : List Char, (∀ c ∈ cs, IsPlain c) → cs.flatMap (shownChar '\'') = cs := by
      intro cs hcs
      induction cs with
      | nil => rfl
      | cons c cs ih =>
        rw [List.flatMap_cons, shownChar_of_plain (hcs c (by simp)),
          ih fun d hd ↦ hcs d (by simp [hd])]
        rfl
    exact this _ h
  simp only [quoted, hq, hb]
  apply String.ext
  simp

end Shorthand.Text
