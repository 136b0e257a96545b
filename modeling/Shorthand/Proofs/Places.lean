import Shorthand.Proofs.Spelling

/-!
# Where tokens stand

The tokens of a text stand one after the other inside it, each as long as its spelling.

* `Token.sorted_of_ofText` : the places of tokens increase strictly.
* `Token.lt_of_ofText` : every token stands inside the text.
* `Token.attributes_le_of_ofText` : so does an attribute set with its brackets.
-/

set_option autoImplicit false

namespace Shorthand.Markup

/-- Tokens stand between the beginning and the end of what they spell. -/
theorem Spells.within {pos : Nat} {spelled : List (Token × List Char)} {cs : List Char}
    (h : Spells pos spelled cs) :
    ∀ p ∈ spelled, pos ≤ p.1.offset ∧ p.1.offset + p.2.length ≤ pos + cs.length := by
  induction h with
  | nil => simp
  | @cons pos lexeme spelling rest more first _ ih =>
    refine List.forall_mem_cons.2 ⟨⟨Nat.le_refl _, ?_⟩, fun p hp ↦ ?_⟩
    · simp
    · have := ih p hp
      rw [List.length_append]
      omega

/-- What a spelled token is begins with its spelling. -/
theorem Spells.begins {pos : Nat} {spelled : List (Token × List Char)} {cs : List Char}
    (h : Spells pos spelled cs) : ∀ p ∈ spelled, ∃ rest, Begins p.1.lexeme p.2 rest := by
  induction h with
  | nil => simp
  | cons first _ ih => exact List.forall_mem_cons.2 ⟨⟨_, first⟩, ih⟩

theorem Spells.sorted {pos : Nat} {spelled : List (Token × List Char)} {cs : List Char}
    (h : Spells pos spelled cs) : (spelled.map fun p ↦ p.1.offset).Pairwise (· < ·) := by
  induction h with
  | nil => exact .nil
  | @cons pos lexeme spelling rest more first others ih =>
    refine List.pairwise_cons.2 ⟨?_, ih⟩
    rw [List.forall_mem_map]
    intro p hp
    have hle := (others.within p hp).1
    have hpos := first.length_pos
    exact Nat.lt_of_lt_of_le (Nat.lt_add_of_pos_right hpos) hle

namespace Token

variable {s : String} {tokens : List Token}

/-- The places of the tokens of a text increase strictly. -/
theorem sorted_of_ofText (h : ofText s = .ok tokens) :
    (tokens.map Token.offset).Pairwise (· < ·) := by
  obtain ⟨spelled, hspelled, rfl⟩ := exists_spells h
  rw [List.map_map]
  exact hspelled.sorted

/-- Every token of a text stands inside it. -/
theorem lt_of_ofText (h : ofText s = .ok tokens) {t : Token} (ht : t ∈ tokens) :
    t.offset < s.length := by
  obtain ⟨spelled, hspelled, rfl⟩ := exists_spells h
  obtain ⟨p, hp, rfl⟩ := List.mem_map.1 ht
  obtain ⟨rest, hbegins⟩ := hspelled.begins p hp
  have hle := (hspelled.within p hp).2
  have hpos := hbegins.length_pos
  rw [String.length_toList] at hle
  omega

/-- An attribute set of a text stands inside it with its brackets. -/
theorem attributes_le_of_ofText (h : ofText s = .ok tokens) {inner : String} {place : Nat}
    (ht : ⟨.attributes inner, place⟩ ∈ tokens) : place + inner.length + 2 ≤ s.length := by
  obtain ⟨spelled, hspelled, rfl⟩ := exists_spells h
  obtain ⟨p, hp, hpt⟩ := List.mem_map.1 ht
  obtain ⟨rest, hbegins⟩ := hspelled.begins p hp
  have hle := (hspelled.within p hp).2
  rw [hpt, String.length_toList] at hle
  rw [hpt] at hbegins
  have hlength : p.2.length = inner.length + 2 := by
    generalize p.2 = spelling at hbegins
    cases hbegins with
    | sign _ hsign => exact absurd hsign (by unfold Lexeme.ofChar?; split <;> simp)
    | attributes => simp
  rw [hlength] at hle
  simp only at hle
  omega

end Token

end Shorthand.Markup
