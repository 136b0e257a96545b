import Shorthand.Expansion
import Shorthand.Proofs.Acceptance
import Shorthand.Proofs.Demands
import Shorthand.Proofs.Literals
import Shorthand.Proofs.TextsRead

/-!
# How expansion fails

Markup is refused for one of two reasons: a text that is read for it breaks the grammar, or its
multipliers ask for too many copies of a node.  What comes after that, numbering and writing, never
fails, since no group is left.  A stylesheet abbreviation is refused for breaking its grammar.

There is one failure that is no refusal.  A count with a digit that has no value, such as a
superscript, is passed on by the reader of tokens and then has no number.  It happens exactly if
this is where the first text that is not accepted cannot be read.

* `Expansion.markupTree_eq_error_iff` : how the tree of a markup abbreviation fails.
* `Snippet.StumblesFirst` : the first text that is not accepted has a count without a value.
* `Expansion.expand_returns_or_refuses_iff` : in all other cases expansion returns or refuses.
-/

set_option autoImplicit false

namespace Shorthand

namespace Markup

namespace Snippet

/-- The first of the texts that are read, among those that are not accepted, has a count without a
value where it cannot be read on. -/
def StumblesFirst (table : Table String) (abbreviation digits : String) : Prop :=
  ∃ before text after tokens, textsRead table abbreviation = before ++ text :: after ∧
    (∀ t ∈ before, Tree.Accepts t) ∧ Token.ofText text = .ok tokens ∧ Tree.Stumbles tokens digits

theorem refusal?_eq_none_iff {t : String} : refusal? t = none ↔ Tree.Accepts t := by
  rw [refusal?, Tree.Accepts]
  cases Tree.parse t <;> simp [failure?]

theorem refusal?_eq_unreadable_iff {t digits : String} :
    refusal? t = some (.unreadableCount digits) ↔
      ∃ tokens, Token.ofText t = .ok tokens ∧ Tree.Stumbles tokens digits := by
  rw [refusal?, failure?_eq_some_iff, Tree.parse, located_eq_error_iff]
  constructor
  · rintro ⟨fault, h, hfault⟩
    obtain rfl : fault = .unreadableCount digits := by
      cases fault with
      | malformed => cases hfault
      | unreadableCount => cases hfault; rfl
    rcases bind_eq_error_iff.1 h with h | ⟨tokens, htokens, h⟩
    · exact (Token.within_of_ofText h).elim
    · exact ⟨tokens, htokens, Tree.ofTokens_eq_unreadable_iff.1 h⟩
  · rintro ⟨tokens, htokens, h⟩
    exact ⟨_, bind_eq_error_iff.2 (.inr ⟨tokens, htokens, Tree.ofTokens_eq_unreadable_iff.2 h⟩),
      rfl⟩

theorem findSome?_refusal?_eq_unreadable_iff {table : Table String} {s digits : String} :
    (textsRead table s).findSome? refusal? = some (.unreadableCount digits) ↔
      StumblesFirst table s digits := by
  simp only [List.findSome?_eq_some_iff, refusal?_eq_unreadable_iff, refusal?_eq_none_iff]
  constructor
  · rintro ⟨before, text, after, htexts, ⟨tokens, htokens, h⟩, hbefore⟩
    exact ⟨before, text, after, tokens, htexts, hbefore, htokens, h⟩
  · rintro ⟨before, text, after, tokens, htexts, hbefore, htokens, h⟩
    exact ⟨before, text, after, htexts, ⟨tokens, htokens, h⟩, hbefore⟩

/-- A text is refused for its grammar, or for a count without a value. -/
theorem refusal?_kinds {t : String} {failure : Failure} (h : refusal? t = some failure) :
    (∃ e, failure = .malformed e) ∨ ∃ digits, failure = .unreadableCount digits := by
  obtain ⟨fault, -, rfl⟩ := located_eq_error_iff.1 (failure?_eq_some_iff.1 h)
  cases fault with
  | malformed cause place => exact .inl ⟨_, rfl⟩
  | unreadableCount digits => exact .inr ⟨digits, rfl⟩

end Snippet

theorem Numbering.failure_number {nodes : List Node} (h : Node.anyGroup nodes = false) :
    failure? (number nodes) = none := by
  rw [number, h]
  rfl

/-- Numbering makes no groups. -/
theorem Numbering.anyGroup_of_number {nodes out : List Node} (h : number nodes = .ok out) :
    Node.anyGroup out = false := by
  unfold number at h
  split at h
  · cases h
  next hgroup =>
    cases h
    rw [Node.anyGroup_settle, Node.anyGroup_visitAll]
    exact eq_false_of_ne_true hgroup

end Markup

namespace Stylesheet.Declaration

/-- Declarations fail for their grammar only. -/
theorem malformed_of_parseAll {snippets : Table String} {v : Vocabulary} {abbreviation : String}
    {failure : Failure} (h : parseAll snippets v abbreviation = .error failure) :
    ∃ e, failure = .malformed e := by
  have hparse : ∀ {chunk : List Char} {offset : Nat} {fault : Fault},
      parse snippets v chunk offset = .error fault →
        ∃ cause place, fault = .malformed cause place := by
    intro chunk offset fault h
    unfold parse at h
    dsimp only at h
    generalize (if chunk.getLast? == some '!' then chunk.dropLast else chunk) = body at h
    split at h
    · cases h
      exact ⟨_, _, rfl⟩
    split at h
    · cases h
    -- The value stands after a colon or is glued to the name; either way the name may be missing.
    split at h <;> split at h <;> cases h
    all_goals exact ⟨_, _, rfl⟩
  have hchunks : ∀ {chunks : List (List Char)} {offset : Nat} {fault : Fault},
      parseChunks snippets v chunks offset = .error fault →
        ∃ cause place, fault = .malformed cause place := by
    intro chunks
    induction chunks with
    | nil =>
      intro offset fault h
      cases h
    | cons chunk chunks ih =>
      intro offset fault h
      rcases bind_eq_error_iff.1 h with h | ⟨_, -, h⟩
      · exact hparse h
      · rcases bind_eq_error_iff.1 h with h | ⟨_, -, h⟩
        · exact ih h
        · cases h
  obtain ⟨fault, hread, rfl⟩ := located_eq_error_iff.1 h
  split at hread
  · cases hread
    exact ⟨_, rfl⟩
  · obtain ⟨cause, place, rfl⟩ := hchunks hread
    exact ⟨_, rfl⟩

end Stylesheet.Declaration

namespace Expansion

open Markup

/-- The tree of a markup abbreviation with its snippets expanded. -/
def expanded (c : Config) (abbreviation : String) : Except Failure (List Node) :=
  Tree.parse abbreviation >>= Snippet.expandAll c.markupSnippets

/-- **How the tree of a markup abbreviation fails:** as the first text that cannot be read, or else
at the first node with too many copies. -/
theorem markupTree_eq_error_iff {c : Config} {s : String} {failure : Failure} :
    markupTree c s = .error failure ↔
      (Snippet.textsRead c.markupSnippets s).findSome? Snippet.refusal? = some failure ∨
        ∃ tree d, expanded c s = .ok tree ∧
          Copies.tooMany? c.maxRepeat (Node.allDemands 1 tree) = some d ∧
          failure = .malformed ⟨.tooManyCopies, d.1, s⟩ := by
  have hmarkup : markupTree c s = expanded c s >>= fun tree ↦
      Copies.unroll c.maxRepeat s tree >>= fun tree ↦
        Numbering.number (Node.nameAll none tree) := by
    simp only [markupTree, expanded, bind_assoc]
  -- No group is left when multipliers are carried out, so numbering never fails.
  have hnumber : ∀ tree, failure? (Copies.unroll c.maxRepeat s tree >>= fun tree ↦
      Numbering.number (Node.nameAll none tree)) = failure? (Copies.unroll c.maxRepeat s tree) :=
    fun tree ↦ failure?_bind_of_ok fun out hout ↦ Numbering.failure_number
      ((Node.anyGroup_nameAll none out).trans (Copies.anyGroup_of_unroll hout))
  rw [hmarkup, bind_eq_error_iff, ← Snippet.failure_expanded, failure?_eq_some_iff]
  refine or_congr Iff.rfl (exists_congr fun tree ↦ ?_)
  rw [← failure?_eq_some_iff, hnumber, Copies.failure_unroll, Option.map_eq_some_iff,
    ← exists_and_left]
  simp only [eq_comm (a := failure)]

/-- Writing never fails. -/
theorem failure_expand_markup {c : Config} (hc : c.grammar = .markup) (s : String) :
    failure? (expand c s) = failure? (markupTree c s) := by
  rw [expand, failure?_map, segments, hc]
  refine failure?_bind_of_ok fun tree htree ↦ ?_
  obtain ⟨_, -, h⟩ := bind_eq_ok_iff.1 htree
  obtain ⟨_, -, h⟩ := bind_eq_ok_iff.1 h
  obtain ⟨_, -, h⟩ := bind_eq_ok_iff.1 h
  rw [Html.write, Numbering.anyGroup_of_number h]
  rfl

/-- **Expansion returns or refuses.**  It fails in another way only for markup, and there exactly if
the first text that is not accepted has a count without a value where it cannot be read on. -/
theorem expand_returns_or_refuses_iff (c : Config) (s : String) :
    (∀ digits, expand c s = .error (.unreadableCount digits) ↔
        c.grammar = .markup ∧ Snippet.StumblesFirst c.markupSnippets s digits) ∧
      (((∃ out, expand c s = .ok out) ∨ ∃ e, expand c s = .error (.malformed e)) ↔
        ¬ (c.grammar = .markup ∧ ∃ digits, Snippet.StumblesFirst c.markupSnippets s digits)) := by
  have hkinds : ∀ failure, expand c s = .error failure → (∃ e, failure = .malformed e) ∨
      ∃ digits, failure = .unreadableCount digits := by
    intro failure h
    cases hc : c.grammar with
    | markup =>
      rw [← failure?_eq_some_iff, failure_expand_markup hc, failure?_eq_some_iff,
        markupTree_eq_error_iff] at h
      rcases h with h | ⟨_, _, -, -, rfl⟩
      · obtain ⟨t, -, ht⟩ := List.exists_of_findSome?_eq_some h
        exact Snippet.refusal?_kinds ht
      · exact .inl ⟨_, rfl⟩
    | stylesheet =>
      rw [expand, segments, hc] at h
      rcases bind_eq_error_iff.1 (map_eq_error_iff.1 h) with h | ⟨_, -, h⟩
      · exact .inl (Stylesheet.Declaration.malformed_of_parseAll h)
      · cases h
  have hunreadable : ∀ digits, expand c s = .error (.unreadableCount digits) ↔
      c.grammar = .markup ∧ Snippet.StumblesFirst c.markupSnippets s digits := by
    intro digits
    cases hc : c.grammar with
    | markup =>
      rw [← failure?_eq_some_iff, failure_expand_markup hc, failure?_eq_some_iff,
        markupTree_eq_error_iff, Snippet.findSome?_refusal?_eq_unreadable_iff]
      simp
    | stylesheet =>
      rw [expand, segments, hc]
      refine iff_of_false (fun h ↦ ?_) fun h ↦ by cases h.1
      rcases bind_eq_error_iff.1 (map_eq_error_iff.1 h) with h | ⟨_, -, h⟩
      · obtain ⟨e, he⟩ := Stylesheet.Declaration.malformed_of_parseAll h
        cases he
      · cases h
  refine ⟨hunreadable, ?_⟩
  rw [← exists_and_left]
  simp only [← hunreadable]
  cases h : expand c s with
  | ok out => simp
  | error failure =>
    rcases hkinds failure h with ⟨e, rfl⟩ | ⟨digits, rfl⟩ <;> simp

/-- **A superscript is a digit without a value,** and a count of it is no refusal. -/
theorem superscript_count :
    expand {} "li*²" = .error (.unreadableCount "²") ∧
      ¬ ((∃ out, expand {} "li*²" = .ok out) ∨ ∃ e, expand {} "li*²" = .error (.malformed e)) := by
  have h : expand {} "li*²" = .error (.unreadableCount "²") := by decide +kernel
  rw [h]
  simp

end Expansion

end Shorthand
