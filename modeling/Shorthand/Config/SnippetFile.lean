import Shorthand.Json.Basic
import Shorthand.Text.Quoted

/-!
# Snippet files

A table of snippets is kept in a file `<name>.yml`, whose contents are an object that maps names to
snippet texts.  A file that holds nothing is an empty table; anything else is refused with the name
of the file, at the first entry that is no text.

* `SnippetFile.load` : the table in a file.
* `SnippetFile.load_eq_ok_iff` : which files are accepted, and what table they hold.
-/

set_option autoImplicit false

namespace Shorthand.SnippetFile

/-- What is wrong with a snippet file. -/
inductive Flaw where
  /-- The contents are no object. -/
  | noMapping
  /-- The entry of this name is no text. -/
  | noText (entry : String)
  deriving DecidableEq, Inhabited

/-- What is wrong with the file of a name, in words. -/
def Flaw.message (name : String) : Flaw → String
  | .noMapping => name ++ ".yml: expected a mapping"
  | .noText entry => name ++ ".yml: value of " ++ Text.quoted entry ++ " is not a string"

/-- The texts under the names of an object. -/
def texts : Table Json → Except Flaw (Table String)
  | [] => .ok []
  | (entry, value) :: rest =>
    match value.string? with
    | some text => (texts rest).map ((entry, text) :: ·)
    | none => .error (.noText entry)

/-- The table that a file with these contents holds. -/
def load (contents : Json) : Except Flaw (Table String) :=
  if contents.isVoid then .ok []
  else
    match contents.members? with
    | some members => texts members
    | none => .error .noMapping

theorem texts_eq_ok_iff (members : Table Json) (t : Table String) :
    texts members = .ok t ↔ members = t.map fun (entry, text) ↦ (entry, .string text) := by
  induction members generalizing t with
  | nil => cases t <;> simp [texts]
  | cons member members ih =>
    obtain ⟨entry, value⟩ := member
    rw [texts]
    cases hv : value.string? with
    | none => cases t <;> cases value <;> simp_all [Json.string?]
    | some text =>
      obtain rfl : value = .string text := by cases value <;> simp_all [Json.string?]
      cases t with
      | nil => cases hr : texts members <;> simp [Except.map]
      | cons first t =>
        obtain ⟨name, held⟩ := first
        have hrest := ih t
        cases hr : texts members <;> simp_all [Except.map, and_assoc]

/-- A file is accepted if it holds nothing, or an object of texts, which then is the table. -/
theorem load_eq_ok_iff (contents : Json) (t : Table String) :
    load contents = .ok t ↔
      (contents.isVoid = true ∧ t = []) ∨
        (contents.isVoid = false ∧
          contents = .object (t.map fun (entry, text) ↦ (entry, .string text))) := by
  rw [load]
  cases hv : contents.isVoid with
  | true => simp [eq_comm]
  | false =>
    cases contents <;> simp [Json.members?, texts_eq_ok_iff]

end Shorthand.SnippetFile
