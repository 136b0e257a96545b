import Shorthand.Segment

/-!
# Text with tab stops for an editor

An editor inserts a completion as text with tab stops.  A tab stop is written `${1}`, or `${1:text}`
with a placeholder; in plain text the backslash, the dollar sign and the closing brace are escaped
by a backslash, so that they are not taken for a part of a tab stop.

* `Editor.escape`, `Editor.tabStop` : how plain text and tab stops are written.
* `Editor.formatters` : both together.
* `Editor.escape_append` : escaping goes character by character.
-/

set_option autoImplicit false

namespace Shorthand.Editor

/-- A character that has a meaning in text with tab stops. -/
def isActive (c : Char) : Bool := c == '\\' || c == '$' || c == '\x7d'

/-- A character of plain text. -/
def escapeChar (c : Char) : List Char := if isActive c then ['\\', c] else [c]

/-- Plain text, as it stands among tab stops. -/
def escape (s : String) : String := String.ofList (s.toList.flatMap escapeChar)

/-- A tab stop; an empty placeholder is left out. -/
def tabStop (index : Nat) (placeholder : String) : String :=
  if placeholder.isEmpty then "$\x7b" ++ toString index ++ "\x7d"
  else "$\x7b" ++ toString index ++ ":" ++ placeholder ++ "\x7d"

/-- How output is written for an editor. -/
def formatters : Formatters where
  field := tabStop
  text := escape

theorem escape_append (s t : String) : escape (s ++ t) = escape s ++ escape t := by
  simp [escape]

/-- Text without active characters is written as it is. -/
theorem escape_of_inactive {s : String} (h : ∀ c ∈ s.toList, isActive c = false) :
    escape s = s := by
  have hc : s.toList.flatMap escapeChar = s.toList := by
    generalize s.toList = cs at h
    induction cs with
    | nil => rfl
    | cons c cs ih =>
      rw [List.flatMap_cons, ih fun d hd ↦ h d (by simp [hd])]
      simp [escapeChar, h c (by simp)]
  rw [escape, hc, String.ofList_toList]

end Shorthand.Editor
