import Shorthand.Proofs.Fields
import Shorthand.Proofs.Spelling

/-!
# Field markers

A marker begins with a dollar sign and a brace, but whether these begin one depends on the whole
rest of the text, since a placeholder goes up to the brace that closes it.  Of that rest only
digits, colons and braces count.  A part that has its braces in pairs, and does not begin with any
of these, can be replaced by another one: the rest closes what is open as it did before.

* `placeholder?_append`, `nesting_of_placeholder?` : a placeholder has its braces in pairs.
* `Field.Writes` : a marker as it may be written; `Field.read?_eq_some_iff`.
* `Field.Alike` : texts that differ in what does not count; `Field.Alike.isSome_read?`.
-/

set_option autoImplicit false

namespace Shorthand

open Markup (nesting nesting_nil nesting_open nesting_close nesting_close_zero nesting_other
  nesting_append)

/-! ## Braces -/

/-- How many braces are open after a text, when `depth` are open before it. -/
def braces (depth : Nat) (cs : List Char) : Option Nat :=
  nesting (· == '\x7b') (· == '\x7d') depth cs

/-- A text with its braces in pairs is passed over in looking for the brace that closes a
placeholder. -/
theorem placeholder?_append {depth e : Nat} {w : List Char} (h : braces depth w = some e)
    (rest : List Char) :
    placeholder? depth (w ++ rest) = (placeholder? e rest).map (w ++ ·) := by
  induction w generalizing depth with
  | nil =>
    rw [braces, nesting_nil, Option.some.injEq] at h
    subst h
    simp
  | cons c w ih =>
    have hmap : ∀ o : Option (List Char), (o.map (w ++ ·)).map (c :: ·) = o.map (c :: w ++ ·) :=
      fun o ↦ by cases o <;> rfl
    rw [List.cons_append, placeholder?.eq_def, ← hmap]
    dsimp only
    by_cases hclose : c = '\x7d'
    · subst hclose
      cases depth with
      | zero =>
        rw [braces, nesting_close_zero (by decide) (by decide)] at h
        cases h
      | succ depth =>
        rw [braces, nesting_close (by decide) (by decide)] at h
        rw [← ih h]
        rfl
    · have hclose' : (c == '\x7d') = false := by simpa using hclose
      by_cases hopen : c = '\x7b'
      · subst hopen
        rw [braces, nesting_open (by decide)] at h
        rw [← ih h]
        rfl
      · have hopen' : (c == '\x7b') = false := by simpa using hopen
        rw [braces, nesting_other (by simpa using hopen) (by simpa using hclose)] at h
        rw [hclose', hopen', ← ih h]
        rfl

/-- A placeholder has its braces in pairs, and the brace after it closes it. -/
theorem nesting_of_placeholder? {depth : Nat} {cs inner : List Char}
    (h : placeholder? depth cs = some inner) :
    braces depth inner = some 0 ∧ ∃ rest, cs = inner ++ '\x7d' :: rest := by
  induction cs generalizing depth inner with
  | nil => cases h
  | cons c cs ih =>
    rw [placeholder?.eq_def] at h
    dsimp only at h
    split at h
    · next hclose =>
      obtain rfl : c = '\x7d' := by simpa using hclose
      cases depth with
      | zero =>
        cases h
        exact ⟨nesting_nil, cs, rfl⟩
      | succ depth =>
        obtain ⟨inner, hinner, rfl⟩ := Option.map_eq_some_iff.1 h
        obtain ⟨hbraces, rest, rfl⟩ := ih hinner
        exact ⟨(nesting_close (by decide) (by decide) _).trans hbraces, rest, rfl⟩
    · next hclose =>
      split at h
      · next hopen =>
        obtain rfl : c = '\x7b' := by simpa using hopen
        obtain ⟨inner, hinner, rfl⟩ := Option.map_eq_some_iff.1 h
        obtain ⟨hbraces, rest, rfl⟩ := ih hinner
        exact ⟨(nesting_open (by decide) _).trans hbraces, rest, rfl⟩
      · next hopen =>
        obtain ⟨inner, hinner, rfl⟩ := Option.map_eq_some_iff.1 h
        obtain ⟨hbraces, rest, rfl⟩ := ih hinner
        exact ⟨(nesting_other (by simpa using hopen) (by simpa using hclose) _).trans hbraces, rest,
          rfl⟩

/-- Pairs of braces are pairs inside others as well. -/
theorem braces_add {depth e : Nat} {w : List Char} (h : braces depth w = some e) (k : Nat) :
    braces (depth + k) w = some (e + k) := by
  induction w generalizing depth with
  | nil =>
    rw [braces, nesting_nil, Option.some.injEq] at h
    rw [braces, nesting_nil, h]
  | cons c w ih =>
    by_cases hclose : c = '\x7d'
    · subst hclose
      cases depth with
      | zero =>
        rw [braces, nesting_close_zero (by decide) (by decide)] at h
        cases h
      | succ depth =>
        rw [braces, nesting_close (by decide) (by decide)] at h
        rw [Nat.succ_add, braces, nesting_close (by decide) (by decide)]
        exact ih h
    · by_cases hopen : c = '\x7b'
      · subst hopen
        rw [braces, nesting_open (by decide)] at h ⊢
        rw [Nat.add_right_comm]
        exact ih h
      · rw [braces, nesting_other (by simpa using hopen) (by simpa using hclose)] at h ⊢
        exact ih h

theorem braces_of_forall {w : List Char} (h : ∀ c ∈ w, c ≠ '\x7b' ∧ c ≠ '\x7d') (depth : Nat) :
    braces depth w = some depth := by
  induction w with
  | nil => exact nesting_nil
  | cons c w ih =>
    obtain ⟨⟨hopen, hclose⟩, hw⟩ := List.forall_mem_cons.1 h
    exact (nesting_other (by simpa using hopen) (by simpa using hclose) _).trans (ih hw)

/-! ## Markers -/

section

variable {digits : List Char}

theorem Field.read?_index (hne : digits ≠ []) (h : ∀ c ∈ digits, Text.isDecimal c = true)
    (rest : List Char) :
    Field.read? ('$' :: '\x7b' :: (digits ++ '\x7d' :: rest))
      = some (⟨Text.numeral digits, "", 0⟩, digits.length + 3) := by
  have hend : ∀ c ∈ ('\x7d' :: rest).head?, Text.isDecimal c = false := fun c hc ↦ by
    obtain rfl : '\x7d' = c := Option.some.inj hc
    decide
  rw [Field.read?, Text.takeWhile_append_of_stop h hend, Text.dropWhile_append_of_stop h hend]
  simp only [List.isEmpty_iff, hne, if_false]

theorem Field.read?_placeholder (hne : digits ≠ []) (h : ∀ c ∈ digits, Text.isDecimal c = true)
    (rest : List Char) :
    Field.read? ('$' :: '\x7b' :: (digits ++ ':' :: rest))
      = (placeholder? 0 rest).map fun inner ↦ (⟨Text.numeral digits, String.ofList inner, 0⟩,
          digits.length + inner.length + 4) := by
  have hend : ∀ c ∈ (':' :: rest).head?, Text.isDecimal c = false := fun c hc ↦ by
    obtain rfl : ':' = c := Option.some.inj hc
    decide
  rw [Field.read?, Text.takeWhile_append_of_stop h hend, Text.dropWhile_append_of_stop h hend]
  simp only [List.isEmpty_iff, hne, if_false]

/-- A marker of a field, as it may be written. -/
inductive Field.Writes : List Char → Field → Prop where
  | index {digits : List Char} (hne : digits ≠ []) (h : ∀ c ∈ digits, Text.isDecimal c = true) :
      Field.Writes ('$' :: '\x7b' :: (digits ++ ['\x7d'])) ⟨Text.numeral digits, "", 0⟩
  | placeholder {digits inner : List Char} (hne : digits ≠ [])
      (h : ∀ c ∈ digits, Text.isDecimal c = true) (hinner : braces 0 inner = some 0) :
      Field.Writes ('$' :: '\x7b' :: (digits ++ ':' :: (inner ++ ['\x7d'])))
        ⟨Text.numeral digits, String.ofList inner, 0⟩

end

namespace Field.Writes

variable {w : List Char} {f : Field}

theorem read? (h : Field.Writes w f) (rest : List Char) :
    Field.read? (w ++ rest) = some (f, w.length) := by
  cases h with
  | @index digits hne hdigits =>
    have hread := Field.read?_index hne hdigits rest
    simpa using hread
  | @placeholder digits inner hne hdigits hinner =>
    have hclose : placeholder? 0 (inner ++ '\x7d' :: rest) = some inner := by
      rw [placeholder?_append hinner]
      simp [placeholder?]
    have hread := Field.read?_placeholder hne hdigits (inner ++ '\x7d' :: rest)
    rw [hclose, Option.map_some] at hread
    simpa [Nat.add_assoc] using hread

end Field.Writes

/-- A field is read exactly where a marker is written. -/
theorem Field.read?_eq_some_iff {cs : List Char} {f : Field} {size : Nat} :
    Field.read? cs = some (f, size) ↔
      ∃ w rest, cs = w ++ rest ∧ Field.Writes w f ∧ size = w.length := by
  refine ⟨fun h ↦ ?_, ?_⟩
  swap
  · rintro ⟨w, rest, rfl, hw, rfl⟩
    exact hw.read? rest
  rw [Field.read?.eq_def] at h
  split at h
  · next cs =>
    have hdigits : ∀ c ∈ cs.takeWhile Text.isDecimal, Text.isDecimal c = true :=
      List.all_eq_true.1 List.all_takeWhile
    have hsplit : cs.takeWhile Text.isDecimal ++ cs.dropWhile Text.isDecimal = cs :=
      List.takeWhile_append_dropWhile
    generalize cs.takeWhile Text.isDecimal = digits at h hdigits hsplit
    generalize cs.dropWhile Text.isDecimal = more at h hsplit
    subst hsplit
    dsimp only at h
    split at h
    · cases h
    next hempty =>
      have hne : digits ≠ [] := by simpa using hempty
      split at h
      · next rest =>
        cases h
        exact ⟨_, rest, by simp, .index hne hdigits, by simp⟩
      · next rest =>
        obtain ⟨inner, hinner, hf⟩ := Option.map_eq_some_iff.1 h
        cases hf
        obtain ⟨hbraces, rest, rfl⟩ := nesting_of_placeholder? hinner
        exact ⟨_, rest, by simp, .placeholder hne hdigits hbraces, by simp; omega⟩
      · cases h
  · cases h

namespace Field.Writes

variable {w w' : List Char} {f g : Field}

theorem exists_cons (h : Field.Writes w f) : ∃ v, w = '$' :: '\x7b' :: v := by
  cases h with
  | index => exact ⟨_, rfl⟩
  | placeholder => exact ⟨_, rfl⟩

theorem ne_nil (h : Field.Writes w f) : w ≠ [] := by
  obtain ⟨v, rfl⟩ := h.exists_cons
  exact List.cons_ne_nil _ _

/-- No marker is the beginning of another one. -/
theorem unique (h : Field.Writes w f) {rest rest' : List Char} (h' : Field.Writes w' g)
    (heq : w ++ rest = w' ++ rest') : f = g ∧ w = w' := by
  have hread := h'.read? rest'
  rw [← heq, h.read?, Option.some.injEq, Prod.mk.injEq] at hread
  exact ⟨hread.1, (List.append_inj heq hread.2).1⟩

theorem pieceRead (h : Field.Writes w f) (rest : List Char) :
    Piece.read (w ++ rest) = ([.field f], w.length) := by
  have hread := h.read? rest
  obtain ⟨v, rfl⟩ := h.exists_cons
  exact Piece.read_field (by decide) hread

theorem braces_placeholder (h : Field.Writes w f) : braces 0 f.placeholder.toList = some 0 := by
  cases h with
  | index => rfl
  | placeholder _ _ hinner => rwa [String.toList_ofList]

/-- A marker has its braces in pairs. -/
theorem braces_eq (h : Field.Writes w f) (depth : Nat) : braces depth w = some depth := by
  have hbrace : ∀ c : Char, Text.isDecimal c = true → c ≠ '\x7b' ∧ c ≠ '\x7d' := fun c hc ↦
    ⟨fun heq ↦ absurd hc (heq ▸ by decide), fun heq ↦ absurd hc (heq ▸ by decide)⟩
  suffices hzero : braces 0 w = some 0 by simpa using braces_add hzero depth
  cases h with
  | @index digits _ hdigits =>
    have hindex := braces_of_forall (fun c hc ↦ hbrace c (hdigits c hc)) 1
    rw [braces, nesting_other (by decide) (by decide), nesting_open (by decide), nesting_append,
      ← braces, hindex]
    rfl
  | @placeholder digits inner _ hdigits hinner =>
    have hindex := braces_of_forall (fun c hc ↦ hbrace c (hdigits c hc)) 1
    have hone : braces 1 inner = some 1 := braces_add hinner 1
    rw [braces, nesting_other (by decide) (by decide), nesting_open (by decide), nesting_append,
      ← braces, hindex, Option.bind_some, nesting_other (by decide) (by decide), nesting_append,
      ← braces, hone]
    rfl

end Field.Writes

/-! ## Texts that differ in what does not count -/

/-- A text that has its braces in pairs and does not begin as the rest of a marker may. -/
structure Field.Neutral (w : List Char) : Prop where
  head : ∃ c v, w = c :: v ∧ Text.isDecimal c = false ∧ c ≠ '\x7b' ∧ c ≠ '\x7d' ∧ c ≠ ':'
  braces_eq : ∀ depth, braces depth w = some depth

theorem Field.Writes.neutral {w : List Char} {f : Field} (h : Field.Writes w f) :
    Field.Neutral w where
  head := by
    obtain ⟨v, rfl⟩ := h.exists_cons
    exact ⟨'$', _, rfl, by decide⟩
  braces_eq := h.braces_eq

/-- Two texts that are the same but for neutral parts. -/
inductive Field.Alike : List Char → List Char → Prop where
  | nil : Field.Alike [] []
  | last {w : List Char} (hw : Field.Neutral w) : Field.Alike [] w
  | char (c : Char) {cs ds : List Char} (h : Field.Alike cs ds) : Field.Alike (c :: cs) (c :: ds)
  | part {w w' : List Char} (hw : Field.Neutral w) (hw' : Field.Neutral w')
      {cs ds : List Char} (h : Field.Alike cs ds) : Field.Alike (w ++ cs) (w' ++ ds)

namespace Field.Alike

variable {cs ds : List Char}

theorem isSome_placeholder? (h : Field.Alike cs ds) (depth : Nat) :
    (placeholder? depth cs).isSome = (placeholder? depth ds).isSome := by
  induction h generalizing depth with
  | nil => rfl
  | @last w hw =>
    have hnone := placeholder?_append (hw.braces_eq depth) []
    rw [List.append_nil] at hnone
    rw [hnone, Option.isSome_map]
  | char c _ ih =>
    rw [placeholder?.eq_def, placeholder?.eq_def depth]
    by_cases hclose : c = '\x7d'
    · cases depth <;> simp [hclose, ih]
    · by_cases hopen : c = '\x7b' <;> simp [hclose, hopen, ih]
  | part hw hw' _ ih =>
    rw [placeholder?_append (hw.braces_eq depth), placeholder?_append (hw'.braces_eq depth),
      Option.isSome_map, Option.isSome_map, ih]

theorem digits (h : Field.Alike cs ds) :
    cs.takeWhile Text.isDecimal = ds.takeWhile Text.isDecimal
    ∧ Field.Alike (cs.dropWhile Text.isDecimal) (ds.dropWhile Text.isDecimal) := by
  induction h with
  | nil => exact ⟨rfl, .nil⟩
  | last hw =>
    have hlast := last hw
    obtain ⟨c, v, rfl, hc, -⟩ := hw.head
    simpa [List.takeWhile_cons, List.dropWhile_cons, hc] using hlast
  | char c h ih =>
    simp only [List.takeWhile_cons, List.dropWhile_cons]
    split
    · exact ⟨congrArg _ ih.1, ih.2⟩
    · exact ⟨rfl, .char c h⟩
  | part hw hw' h =>
    have hparts := h.part hw hw'
    obtain ⟨c, v, rfl, hc, -⟩ := hw.head
    obtain ⟨c', v', rfl, hc', -⟩ := hw'.head
    simpa [List.takeWhile_cons, List.dropWhile_cons, hc, hc'] using hparts

/-- Neutral parts do not matter to whether a dollar sign before them begins a marker. -/
theorem isSome_read? (h : Field.Alike cs ds) :
    (Field.read? ('$' :: cs)).isSome = (Field.read? ('$' :: ds)).isSome := by
  have hnone : ∀ {w : List Char}, Field.Neutral w →
      ∀ cs, Field.read? ('$' :: (w ++ cs)) = none := by
    intro w hw cs
    obtain ⟨c, v, rfl, -, hopen, -⟩ := hw.head
    simp [Field.read?, hopen]
  cases h with
  | nil => rfl
  | last hw =>
    have hlast := hnone hw []
    rw [List.append_nil] at hlast
    rw [hlast]
    rfl
  | part hw hw' => rw [hnone hw, hnone hw']
  | @char c cs ds h =>
    by_cases hopen : c = '\x7b'
    swap
    · simp [Field.read?, hopen]
    subst hopen
    obtain ⟨htake, hdrop⟩ := h.digits
    rw [Field.read?, Field.read?, htake]
    split
    · rfl
    generalize cs.dropWhile Text.isDecimal = cs' at hdrop ⊢
    generalize ds.dropWhile Text.isDecimal = ds' at hdrop ⊢
    cases hdrop with
    | nil => rfl
    | last hw =>
      obtain ⟨c, v, rfl, -, -, hclose, hcolon⟩ := hw.head
      simp [hclose, hcolon]
    | part hw hw' =>
      obtain ⟨c, v, rfl, -, -, hclose, hcolon⟩ := hw.head
      obtain ⟨c', v', rfl, -, -, hclose', hcolon'⟩ := hw'.head
      simp [hclose, hcolon, hclose', hcolon']
    | char c h =>
      by_cases hclose : c = '\x7d'
      · subst hclose
        rfl
      · by_cases hcolon : c = ':'
        · subst hcolon
          simp [h.isSome_placeholder?]
        · simp [hclose, hcolon]

end Field.Alike

end Shorthand
