/-!
# Cutting a text into pieces

Tokens, tab stops inside a text, numbering markers and style values are all read the same way: at
the first character not yet read, a *step* reads one piece and says how many characters it takes.
The pieces tile the text.  `tile` does this for a step that always succeeds, `tileFrom` for one
that may fail and wants to know where it is.

Both recurse on the text itself.  The number of characters still to be passed over travels along,
so that no piece, however long, needs a measure; `tile_eq_drop` and `tileFrom_eq_drop` say that
passing over is dropping.
-/

set_option autoImplicit false

namespace Shorthand.Text

variable {α ε : Type}

/-- The outputs of the pieces of a text, after the next `skip` characters have been passed over. -/
def tile (step : List Char → List α × Nat) : Nat → List Char → List α
  | _, [] => []
  | skip + 1, _ :: cs => tile step skip cs
  | 0, c :: cs =>
    let (out, size) := step (c :: cs)
    out ++ tile step (size - 1) cs

@[simp] theorem tile_nil (step : List Char → List α × Nat) (skip : Nat) :
    tile step skip [] = [] := by
  cases skip <;> rfl

/-- Passing over characters is dropping them. -/
theorem tile_eq_drop (step : List Char → List α × Nat) (skip : Nat) (cs : List Char) :
    tile step skip cs = tile step 0 (cs.drop skip) := by
  induction cs generalizing skip with
  | nil => simp
  | cons c cs ih =>
    cases skip with
    | zero => rfl
    | succ skip => rw [tile, List.drop_succ_cons, ih]

/-- A piece is read, and the rest is cut where the piece ends. -/
theorem tile_cons (step : List Char → List α × Nat) (c : Char) (cs : List Char) :
    tile step 0 (c :: cs) =
      (step (c :: cs)).1 ++ tile step 0 (cs.drop ((step (c :: cs)).2 - 1)) := by
  rw [tile, ← tile_eq_drop]

/-- What is read from a piece stands before what is read from the rest. -/
theorem tile_piece {α : Type} {step : List Char → List α × Nat} {piece rest : List Char}
    {out : List α} (hne : piece ≠ []) (h : step (piece ++ rest) = (out, piece.length)) :
    tile step 0 (piece ++ rest) = out ++ tile step 0 rest := by
  obtain ⟨c, cs, rfl⟩ := List.exists_cons_of_ne_nil hne
  rw [List.cons_append] at h ⊢
  rw [tile_cons, h, List.length_cons, Nat.add_sub_cancel, List.drop_left]

/-- What comes out of a text comes out of one of its pieces. -/
theorem mem_tile {step : List Char → List α × Nat} {skip : Nat} {cs : List Char}
    {a : α} (h : a ∈ tile step skip cs) : ∃ ds, ds <:+ cs ∧ a ∈ (step ds).1 := by
  induction cs generalizing skip with
  | nil => simp at h
  | cons c cs ih =>
    have hlater : ∀ {skip : Nat}, a ∈ tile step skip cs → ∃ ds, ds <:+ c :: cs ∧ a ∈ (step ds).1 :=
      fun h ↦ (ih h).imp fun _ ⟨hsuffix, hds⟩ ↦ ⟨hsuffix.trans (List.suffix_cons c cs), hds⟩
    cases skip with
    | succ skip => exact hlater h
    | zero =>
      rw [tile] at h
      rcases List.mem_append.1 h with h | h
      · exact ⟨c :: cs, List.suffix_refl _, h⟩
      · exact hlater h

/-- The outputs of the pieces of a text that begins at offset `pos`, after the next `skip`
characters have been passed over.  The first piece that cannot be read decides the error. -/
def tileFrom (step : Nat → List Char → Except ε (List α × Nat)) :
    Nat → Nat → List Char → Except ε (List α)
  | _, _, [] => .ok []
  | pos, skip + 1, _ :: cs => tileFrom step (pos + 1) skip cs
  | pos, 0, c :: cs => do
    let (out, size) ← step pos (c :: cs)
    let rest ← tileFrom step (pos + 1) (size - 1) cs
    return out ++ rest

@[simp] theorem tileFrom_nil (step : Nat → List Char → Except ε (List α × Nat)) (pos skip : Nat) :
    tileFrom step pos skip [] = .ok [] := by
  cases skip <;> rfl

/-- Passing over characters is dropping them. -/
theorem tileFrom_eq_drop (step : Nat → List Char → Except ε (List α × Nat)) (pos skip : Nat)
    (cs : List Char) :
    tileFrom step pos skip cs = tileFrom step (pos + skip) 0 (cs.drop skip) := by
  induction cs generalizing pos skip with
  | nil => simp
  | cons c cs ih =>
    cases skip with
    | zero => rfl
    | succ skip => rw [tileFrom, List.drop_succ_cons, ih, Nat.add_right_comm, Nat.add_assoc]

/-- A piece is read, and the rest is cut where it ends. -/
theorem tileFrom_piece {step : Nat → List Char → Except ε (List α × Nat)} {pos : Nat}
    {piece rest : List Char} {out : List α} (hp : piece ≠ [])
    (h : step pos (piece ++ rest) = .ok (out, piece.length)) :
    tileFrom step pos 0 (piece ++ rest)
      = (tileFrom step (pos + piece.length) 0 rest).map (out ++ ·) := by
  obtain ⟨c, cs, rfl⟩ := List.exists_cons_of_ne_nil hp
  rw [List.cons_append] at h ⊢
  rw [tileFrom, h]
  have hdrop : tileFrom step (pos + 1) ((c :: cs).length - 1) (cs ++ rest)
      = tileFrom step (pos + (c :: cs).length) 0 rest := by
    rw [tileFrom_eq_drop, List.length_cons, Nat.add_sub_cancel, List.drop_left]
    congr 1
    omega
  simp only [bind, Except.bind]
  rw [hdrop]
  cases tileFrom step (pos + (c :: cs).length) 0 rest <;> rfl

/-! ## Runs of characters -/

/-- The characters of a class end where the next one is not in it. -/
theorem takeWhile_append_of_stop {p : Char → Bool} {cs rest : List Char}
    (hcs : ∀ c ∈ cs, p c = true) (hrest : ∀ c ∈ rest.head?, p c = false) :
    (cs ++ rest).takeWhile p = cs := by
  rw [List.takeWhile_append_of_pos hcs]
  cases rest with
  | nil => exact List.append_nil cs
  | cons c rest => simp [hrest c rfl]

theorem dropWhile_append_of_stop {p : Char → Bool} {cs rest : List Char}
    (hcs : ∀ c ∈ cs, p c = true) (hrest : ∀ c ∈ rest.head?, p c = false) :
    (cs ++ rest).dropWhile p = rest := by
  rw [List.dropWhile_append_of_pos hcs]
  cases rest with
  | nil => rfl
  | cons c rest => simp [hrest c rfl]

end Shorthand.Text
