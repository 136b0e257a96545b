import Shorthand.Value
import Shorthand.Markup.Copies

/-!
# Fields of a value that was read

Reading a text gives its fields in order, between literal parts.  All of them are in scope 0, where
the fields of the user are; only a snippet moves fields to another scope, and copies leave scope 0
alone.

* `Value.mem_ofPieces` : the fields of a value are those of the pieces that it was made of.
* `Value.read?_of_mem_parse` : the fields of a text are read where they begin.
* `Value.scope_of_mem_parse` : what was read is in scope 0.
* `Renaming.moveValue_of_unscoped` : a value without snippet fields is not moved.
-/

set_option autoImplicit false

namespace Shorthand

theorem Value.mem_fields {f : Field} {v : Value} : f ∈ v.fields ↔ .field f ∈ v := by
  rw [Value.fields, List.mem_filterMap]
  constructor
  · rintro ⟨p, hp, hf⟩
    cases p with
    | text s => simp at hf
    | field g => simpa [← Option.some.inj hf] using hp
  · intro h
    exact ⟨.field f, h, rfl⟩

/-- The fields of a value are those of its pieces. -/
theorem Value.mem_ofPieces {f : Field} {ps : List Piece} :
    .field f ∈ Value.ofPieces ps ↔ .field f ∈ ps := by
  have hlit : ∀ cs, Part.field f ∉ Value.literal cs := by
    intro cs
    rw [Value.literal]
    split <;> simp
  suffices h : ∀ before, .field f ∈ Value.ofPiecesFrom before ps ↔ .field f ∈ ps from h []
  induction ps with
  | nil => intro before; simp [Value.ofPiecesFrom, hlit]
  | cons p ps ih =>
    intro before
    cases p with
    | char c => simp [Value.ofPiecesFrom, ih]
    | field g => simp [Value.ofPiecesFrom, ih, hlit]

/-- Characters alone are one literal part. -/
theorem Value.ofPieces_map_char (cs : List Char) :
    Value.ofPieces (cs.map .char) = Value.literal cs := by
  suffices h : ∀ before, Value.ofPiecesFrom before (cs.map .char)
      = Value.literal (before.reverse ++ cs) from h []
  induction cs with
  | nil => intro before; simp [Value.ofPiecesFrom]
  | cons c cs ih => intro before; simp [Value.ofPiecesFrom, ih]

theorem Field.scope_of_read? {cs : List Char} {f : Field} {size : Nat}
    (h : Field.read? cs = some (f, size)) : f.scope = 0 := by
  rw [Field.read?.eq_def] at h
  split at h
  · simp only at h
    split at h
    · simp at h
    · split at h
      · simp only [Option.some.injEq, Prod.mk.injEq] at h
        rw [← h.1]
      · obtain ⟨inner, -, hf⟩ := Option.map_eq_some_iff.1 h
        rw [← (Prod.mk.inj hf).1]
      · simp at h
  · simp at h

/-- Only a dollar sign begins a field. -/
theorem Field.read?_eq_none {c : Char} (h : c ≠ '$') (cs : List Char) :
    Field.read? (c :: cs) = none := by
  rw [Field.read?.eq_def]
  split
  · rename_i heq
    exact absurd (List.cons.inj heq).1 h
  · rfl

namespace Piece

theorem read_pair (c : Char) (cs : List Char) :
    read ('\\' :: c :: cs) = ([.char '\\', .char c], 2) := rfl

theorem read_char {c : Char} {cs : List Char} (h : c ≠ '\\')
    (hf : Field.read? (c :: cs) = none) : read (c :: cs) = ([.char c], 1) := by
  rw [read.eq_def]
  split
  · rename_i heq
    exact absurd (List.cons.inj heq).1 h
  · rw [hf]
    rfl

theorem read_field {c : Char} {cs : List Char} {f : Field} {size : Nat} (h : c ≠ '\\')
    (hf : Field.read? (c :: cs) = some (f, size)) : read (c :: cs) = ([.field f], size) := by
  rw [read.eq_def]
  split
  · rename_i heq
    exact absurd (List.cons.inj heq).1 h
  · rw [hf]

theorem tile_pair (c : Char) (cs : List Char) :
    Text.tile read 0 ('\\' :: c :: cs) = .char '\\' :: .char c :: Text.tile read 0 cs := by
  rw [Text.tile_cons, read_pair]
  rfl

theorem tile_char {c : Char} {cs : List Char} (h : c ≠ '\\')
    (hf : Field.read? (c :: cs) = none) :
    Text.tile read 0 (c :: cs) = .char c :: Text.tile read 0 cs := by
  rw [Text.tile_cons, read_char h hf]
  rfl

end Piece

/-- A field among pieces was read. -/
theorem Piece.read?_of_mem_read {cs : List Char} {f : Field} (h : .field f ∈ (Piece.read cs).1) :
    ∃ size, Field.read? cs = some (f, size) := by
  rw [Piece.read.eq_def] at h
  split at h
  · simp at h
  · split at h
    · next g size hg =>
      obtain rfl := Piece.field.inj (List.mem_singleton.1 h)
      exact ⟨size, hg⟩
    · obtain ⟨c, -, hc⟩ := List.mem_map.1 h
      simp at hc

/-- The fields of a text are read where they begin. -/
theorem Value.read?_of_mem_parse {s : String} {f : Field} (h : f ∈ (Value.parse s).fields) :
    ∃ cs size, cs <:+ s.toList ∧ Field.read? cs = some (f, size) := by
  obtain ⟨cs, hsuffix, hcs⟩ := Text.mem_tile (Value.mem_ofPieces.1 (Value.mem_fields.1 h))
  obtain ⟨size, hf⟩ := Piece.read?_of_mem_read hcs
  exact ⟨cs, size, hsuffix, hf⟩

/-- What the user typed is in scope 0. -/
theorem Value.scope_of_mem_parse {s : String} {f : Field} (h : f ∈ (Value.parse s).fields) :
    f.scope = 0 := by
  obtain ⟨_, _, -, hf⟩ := Value.read?_of_mem_parse h
  exact Field.scope_of_read? hf

namespace Markup

/-- A value without snippet fields stays where it is. -/
theorem Renaming.moveValue_of_unscoped {v : Value} (h : ∀ f ∈ v.fields, f.scope = 0)
    (r : Renaming) : r.moveValue v = (v, r) := by
  induction v with
  | nil => rfl
  | cons p v ih =>
    have hv : ∀ f ∈ Value.fields v, f.scope = 0 := fun f hf ↦
      h f (Value.mem_fields.2 (List.mem_cons_of_mem p (Value.mem_fields.1 hf)))
    have ih := ih hv
    rw [moveValue] at ih ⊢
    cases p with
    | text s => rw [walk_cons, ih]
    | field f =>
      have hf : f.scope = 0 := h f (Value.mem_fields.2 List.mem_cons_self)
      simp only [walk_cons, hf, if_true, ih]

end Markup

end Shorthand
