import Shorthand.Markup.Node
import Shorthand.Failure
import Shorthand.Text.Digit
import Shorthand.Text.Tiling

/-!
# Numbering copies

A run of `$` in the literal text of a copy stands for the number of the copy, with at least as many
digits as the run has signs.

    $        1, 2, 3
    $$$      001, 002, 003
    $@-      3, 2, 1
    $@5      5, 6, 7
    $@-5     7, 6, 5
    \$       a dollar sign

* `Numbering.text` : a text with its runs replaced.
* `Numbering.number` : an unrolled tree with all its literal text numbered, each node by the
  multiplier that it remembers.

An attribute that is shown on several elements is numbered once on each of them, one after the
other, and every place shows what came out last.
-/

set_option autoImplicit false

namespace Shorthand.Markup.Numbering

/-- A number in at least `width` characters: zeros go between the sign and the digits. -/
def padded (width : Nat) (n : Int) : List Char :=
  let digits := Nat.toDigits 10 n.natAbs
  if n < 0 then '-' :: (List.replicate (width - 1 - digits.length) '0' ++ digits)
  else List.replicate (width - digits.length) '0' ++ digits

/-- What follows a run of `$`: whether to count down, where to start, and the number of characters
that this takes. -/
def suffix : List Char → Bool × List Char × Nat
  | '@' :: '-' :: cs =>
    let digits := cs.takeWhile Text.isDecimal
    (true, digits, digits.length + 2)
  | '@' :: cs =>
    let digits := cs.takeWhile Text.isDecimal
    (false, digits, digits.length + 1)
  | _ => (false, [], 0)

/-- The number of copy `index` of `count` when counting starts at `start`. -/
def position (count index : Int) (down : Bool) (start : Int) : Int :=
  if down then count - index + start else index + start - 1

/-- What the characters that begin a text stand for in copy `index` of `count`, and how many
characters these are. -/
def step (count index : Int) : List Char → List Char × Nat
  | '\\' :: '$' :: _ => (['$'], 2)
  | '$' :: cs =>
    let width := (cs.takeWhile (· == '$')).length + 1
    let (down, digits, size) := suffix (cs.dropWhile (· == '$'))
    let start : Int := if digits.isEmpty then 1 else Text.numeral digits
    (padded width (position count index down start), width + size)
  | cs => (cs.take 1, 1)

/-- A text with its runs of `$` replaced by the number of copy `index` of `count`. -/
def text (count index : Int) (s : String) : String :=
  String.ofList (Text.tile (step count index) 0 s.toList)

/-! ## What is not numbered -/

theorem tile_escaped (count index : Int) (cs : List Char) :
    Text.tile (step count index) 0 ('\\' :: '$' :: cs)
      = '$' :: Text.tile (step count index) 0 cs := by
  rw [Text.tile_cons]
  rfl

theorem tile_backslash (count index : Int) {cs : List Char} (h : cs.head? ≠ some '$') :
    Text.tile (step count index) 0 ('\\' :: cs)
      = '\\' :: Text.tile (step count index) 0 cs := by
  rw [Text.tile_cons, step.eq_def]
  cases cs with
  | nil => rfl
  | cons c cs => simp [show c ≠ '$' by simpa using h]

theorem tile_plain (count index : Int) {c : Char} (h1 : c ≠ '\\') (h2 : c ≠ '$')
    (cs : List Char) :
    Text.tile (step count index) 0 (c :: cs) = c :: Text.tile (step count index) 0 cs := by
  rw [Text.tile_cons, step.eq_def]
  simp [h1, h2]

/-- What holds no `$` stays as it is, unless a backslash at its end escapes the sign after it. -/
theorem tile_append_of_no_dollar (count index : Int) {before rest : List Char}
    (hbefore : '$' ∉ before) (hlast : before.getLast? = some '\\' → rest.head? ≠ some '$') :
    Text.tile (step count index) 0 (before ++ rest)
      = before ++ Text.tile (step count index) 0 rest := by
  induction before with
  | nil => rfl
  | cons c before ih =>
    obtain ⟨hc, hmore⟩ := not_or.1 (mt List.mem_cons.2 hbefore)
    have hlater : before.getLast? = some '\\' → rest.head? ≠ some '$' := by
      intro hl
      refine hlast ?_
      rw [List.getLast?_cons, hl]
      rfl
    rw [List.cons_append, List.cons_append, ← ih hmore hlater]
    by_cases hb : c = '\\'
    · subst hb
      refine tile_backslash count index ?_
      cases before with
      | nil => exact hlast rfl
      | cons d before => simpa [eq_comm] using fun h : d = '$' ↦ hmore (by simp [h])
    · exact tile_plain count index hb (Ne.symm hc) _

theorem tile_of_no_dollar (count index : Int) {cs : List Char} (h : '$' ∉ cs) :
    Text.tile (step count index) 0 cs = cs := by
  have hnil : cs.getLast? = some '\\' → [].head? ≠ some '$' := fun _ ↦ nofun
  have htile := tile_append_of_no_dollar count index h hnil
  rwa [List.append_nil, Text.tile_nil, List.append_nil] at htile

/-- A text without `$` stays as it is. -/
theorem text_of_no_dollar (count index : Int) (s : String) (h : '$' ∉ s.toList) :
    text count index s = s := by
  rw [text, tile_of_no_dollar count index h, String.ofList_toList]

/-! ## Trees -/

/-- What a multiplier makes of a text; a node without one counts as the only copy. -/
def textBy (times : Option Multiplier) (s : String) : String :=
  match times with
  | none => text 1 1 s
  | some m => text m.count m.index s

/-- Numbers an attribute: its name and the literal parts of its value. -/
def attributeBy (times : Option Multiplier) (a : Attribute) : Attribute :=
  { a with name := textBy times a.name, value := a.value.mapText (textBy times) }

/-- What numbering does at a node. -/
def visitor (times : Option Multiplier) : Visitor Shown where
  name := textBy times
  value v shown := (v.mapText (textBy times), shown)
  attr a shown :=
    let a := attributeBy times (a.current shown)
    (a, a.note shown)

/-- An unrolled tree with its literal text numbered. -/
def number (nodes : List Node) : Except Failure (List Node) :=
  if Node.anyGroup nodes then .error .groupInNumbering
  else
    let (nodes, shown) := Node.visitAll visitor nodes []
    .ok (Node.settle shown nodes)

end Shorthand.Markup.Numbering
