import Mathlib.Data.List.Forall2
import Shorthand.Proofs.Places

/-!
# Tokens cut out of their text

The offsets of the tokens cut a text into slices, one a token, and nothing is left over.  A slice is
all that its token depends on: read alone, it gives that token and no other.

That is not how tokens are found.  A literal goes on as long as it can, the digits of a multiplier
likewise, and a text or an attribute set looks for the bracket that closes it; each of these scans
has the rest of the abbreviation before it.  But none makes use of more than it takes: cut off where
it ended, it comes out the same.

* `literalChars_take`, `textChars_take`, `attributeChars_take` : a scan cut off where it ended.
* `literalChars_stop` : what stands behind a literal.
* `Begins.alone` : a spelling spells its lexeme without anything behind it.
* `Token.tiles` : the slices of the tokens of a text, and what they are read as.
-/

set_option autoImplicit false

namespace Shorthand

/-- A text cut at some offsets: the slices from each offset to the next, and from the last one to
the end. -/
def Text.slices (cs : List Char) : List Nat → List (List Char)
  | [] => []
  | [start] => [cs.drop start]
  | start :: stop :: offsets => (cs.take stop).drop start :: Text.slices cs (stop :: offsets)

namespace Markup

/-- A literal, whatever its text. -/
def Token.IsLiteral (t : Token) : Prop := ∃ text, t.lexeme = .literal text

/-! ## Scans that are cut off -/

theorem literalChars_cons {c : Char} (hb : c ≠ '\\') (hc : isLiteralChar c = true)
    (cs : List Char) :
    literalChars (c :: cs) = (c :: (literalChars cs).1, (literalChars cs).2 + 1) := by
  cases cs with
  | nil => simp [literalChars, hc]
  | cons d cs => simp [literalChars, hc, hb]

theorem literalChars_take (cs : List Char) :
    literalChars (cs.take (literalChars cs).2) = literalChars cs := by
  fun_induction literalChars cs with
  | case1 => rfl
  | case2 c hc => simp [literalChars, hc]
  | case3 c hc => rfl
  | case4 c d cs hc out size hcs ih =>
    rw [hcs] at ih
    obtain rfl := eq_of_beq hc
    simp [literalChars, ih]
  | case5 c d cs hb hc out size hcs ih =>
    rw [hcs] at ih
    rw [List.take_succ_cons, literalChars_cons (by simpa using hb) hc, ih]
  | case6 c d cs hb hc => rfl

/-- A literal ends before a character that it may not hold. -/
theorem literalChars_stop (cs : List Char) :
    ∀ c ∈ (cs.drop (literalChars cs).2).head?, isLiteralChar c = false := by
  fun_induction literalChars cs with
  | case1 => simp
  | case2 c hc => simp
  | case3 c hc => simpa using hc
  | case4 c d cs hc out size hcs ih =>
    rw [hcs] at ih
    simpa using ih
  | case5 c d cs hb hc out size hcs ih =>
    rw [hcs] at ih
    simpa using ih
  | case6 c d cs hb hc => simpa using hc

theorem textChars_take {depth : Nat} {cs out : List Char} {size : Nat}
    (h : textChars depth cs = some (out, size)) :
    textChars depth (cs.take size) = some (out, size) := by
  fun_induction textChars depth cs generalizing out size with
  | case1 => cases h
  | case2 => cases h
  | case3 depth c hc d cs ih =>
    obtain ⟨⟨o, n⟩, hn, he⟩ := Option.map_eq_some_iff.1 h
    obtain ⟨rfl, rfl⟩ := Prod.mk.inj he
    obtain rfl := eq_of_beq hc
    rw [List.take_succ_cons, List.take_succ_cons, textChars_pair, ih hn]
    rfl
  | case4 c cs _ hc =>
    obtain rfl := eq_of_beq hc
    obtain ⟨rfl, rfl⟩ := Prod.mk.inj (Option.some.inj h)
    rfl
  | case5 c cs _ hc depth ih =>
    obtain ⟨⟨o, n⟩, hn, he⟩ := Option.map_eq_some_iff.1 h
    obtain ⟨rfl, rfl⟩ := Prod.mk.inj he
    obtain rfl := eq_of_beq hc
    rw [List.take_succ_cons, textChars_close_succ, ih hn]
    rfl
  | case6 depth c cs hb hc ih =>
    obtain ⟨⟨o, n⟩, hn, he⟩ := Option.map_eq_some_iff.1 h
    obtain ⟨rfl, rfl⟩ := Prod.mk.inj he
    rw [List.take_succ_cons, textChars.eq_def]
    simp only [hb, hc, Bool.false_eq_true, if_false, ih hn]
    rfl

theorem attributeChars_take {quote : Option Char} {cs inner : List Char}
    (h : attributeChars quote cs = .ok inner) :
    attributeChars quote (cs.take (inner.length + 1)) = .ok inner := by
  fun_induction attributeChars quote cs generalizing inner with
  | case1 => simp at h
  | case2 => simp at h
  | case3 quote c hc d cs ih =>
    obtain ⟨i, hi, rfl⟩ := map_eq_ok_iff.1 h
    rw [List.length_cons, List.length_cons, List.take_succ_cons, List.take_succ_cons,
      attributeChars.eq_def]
    simp only [hc, if_true, ih hi]
    rfl
  | case4 c cs hc q ih =>
    obtain ⟨i, hi, rfl⟩ := map_eq_ok_iff.1 h
    rw [List.length_cons, List.take_succ_cons, attributeChars.eq_def]
    simp only [hc, if_false, Bool.false_eq_true, ih hi]
    rfl
  | case5 c cs hc hclose =>
    obtain rfl := Except.ok.inj h
    rw [List.take_succ_cons, attributeChars.eq_def]
    simp only [hc, hclose, if_true, if_false, Bool.false_eq_true]
  | case6 c cs hc hclose ih =>
    obtain ⟨i, hi, rfl⟩ := map_eq_ok_iff.1 h
    rw [List.length_cons, List.take_succ_cons, attributeChars.eq_def]
    simp only [hc, hclose, if_false, Bool.false_eq_true, ih hi]
    rfl

/-! ## Spellings -/

section

variable {lexeme : Lexeme} {spelling rest : List Char}

/-- A spelling does not depend on what is written after it. -/
theorem Begins.alone (h : Begins lexeme spelling rest) : Begins lexeme spelling [] := by
  cases h with
  | sign rest h => exact .sign [] h
  | @times digits rest h =>
    refine .times ?_
    have hdigits : ∀ c ∈ digits, Text.isDigit c = true := by
      rw [← h]
      exact List.all_eq_true.1 List.all_takeWhile
    rw [List.takeWhile_append_of_pos hdigits, List.takeWhile_nil, List.append_nil]
  | attributes h =>
    have htake := attributeChars_take h
    rw [List.take_length_add_append 1] at htake
    exact .attributes htake
  | text h =>
    have htake := textChars_take h
    rw [List.take_length_add_append 1] at htake
    exact .text htake
  | @literal c cs rest out hc h =>
    have htake := literalChars_take (c :: cs ++ rest)
    rw [h, List.take_left] at htake
    exact .literal hc (by rwa [List.append_nil])

theorem Begins.exists_literal {text : String} (h : Begins (.literal text) spelling rest) :
    (∃ c cs, spelling = c :: cs ∧ isLiteralChar c = true)
    ∧ (literalChars (spelling ++ rest)).2 = spelling.length := by
  cases h with
  | sign _ hsign =>
    unfold Lexeme.ofChar? at hsign
    split at hsign <;> cases hsign
  | literal hc h => exact ⟨⟨_, _, rfl, hc⟩, congrArg Prod.snd h⟩

/-- Two literals are not written one after the other: they would be one. -/
theorem Begins.not_literal {text text' : String} {spelling' rest' : List Char}
    (h : Begins (.literal text) spelling (spelling' ++ rest')) :
    ¬ Begins (.literal text') spelling' rest' := by
  intro h'
  obtain ⟨-, hsize⟩ := h.exists_literal
  obtain ⟨⟨c, cs, rfl, hc⟩, -⟩ := h'.exists_literal
  -- the second one begins with a character at which the first one would have gone on
  have hstop := literalChars_stop (spelling ++ (c :: cs ++ rest'))
  rw [hsize, List.drop_left] at hstop
  exact absurd hc (by simp [hstop c rfl])

end

namespace Spells

variable {pos : Nat} {spelled : List (Token × List Char)} {cs : List Char}

theorem head? (h : Spells pos spelled cs) (hne : cs ≠ []) :
    (spelled.map Prod.fst).head?.map Token.offset = some pos := by
  cases h with
  | nil => exact absurd rfl hne
  | cons => rfl

theorem flatten (h : Spells pos spelled cs) : (spelled.map Prod.snd).flatten = cs := by
  induction h with
  | nil => rfl
  | cons first _ ih => rw [List.map_cons, List.flatten_cons, ih]

/-- The offsets of the tokens cut out their spellings. -/
theorem slices (h : Spells pos spelled cs) {before : List Char} (hpos : before.length = pos) :
    Text.slices (before ++ cs) (spelled.map fun p ↦ p.1.offset) = spelled.map Prod.snd := by
  induction h generalizing before with
  | nil => rfl
  | @cons pos lexeme spelling rest more first others ih =>
    -- for the tokens after it, this spelling belongs to what is written before them
    subst hpos
    have hlength : (before ++ spelling).length = before.length + spelling.length :=
      List.length_append
    have ih := ih hlength
    rw [List.append_assoc] at ih
    cases others with
    | nil => simp [Text.slices]
    | @cons _ _ spelling' rest' more' second others =>
      have hcut : ((before ++ (spelling ++ (spelling' ++ rest'))).take
          (before.length + spelling.length)).drop before.length = spelling := by
        rw [← hlength, ← List.append_assoc, List.take_left, List.drop_left]
      exact congrArg₂ List.cons hcut ih

/-- Every spelling is read alone as its token. -/
theorem alone (h : Spells pos spelled cs) :
    ∀ p ∈ spelled, Token.ofText (String.ofList p.2) = .ok [{ p.1 with offset := 0 }] := by
  intro p hp
  obtain ⟨rest, hbegins⟩ := h.begins p hp
  have hspells : Spells 0 [({ p.1 with offset := 0 }, p.2)] (p.2 ++ []) :=
    .cons hbegins.alone (.nil _)
  rw [List.append_nil] at hspells
  rw [Token.ofText, String.toList_ofList]
  exact hspells.tokens

theorem isChain (h : Spells pos spelled cs) :
    (spelled.map Prod.fst).IsChain fun t u ↦ ¬ (t.IsLiteral ∧ u.IsLiteral) := by
  induction h with
  | nil => exact .nil
  | @cons pos lexeme spelling rest more first others ih =>
    cases others with
    | nil => exact .singleton _
    | cons second others =>
      refine .cons_cons ?_ ih
      rintro ⟨⟨text, rfl⟩, text', rfl⟩
      exact first.not_literal second

end Spells

/-- **The tokens of a text tile it.**  The first one begins where the text does, and their offsets
increase; the slices between them are not empty and make up the text; each is read alone as its
token, now at offset 0; and no two literals stand side by side. -/
theorem Token.tiles {s : String} {tokens : List Token} (h : Token.ofText s = .ok tokens) :
    (s ≠ "" → tokens.head?.map Token.offset = some 0)
    ∧ (tokens.map Token.offset).Pairwise (· < ·)
    ∧ [] ∉ Text.slices s.toList (tokens.map Token.offset)
    ∧ (Text.slices s.toList (tokens.map Token.offset)).flatten = s.toList
    ∧ List.Forall₂ (fun t slice ↦ Token.ofText (String.ofList slice) = .ok [{ t with offset := 0 }])
        tokens (Text.slices s.toList (tokens.map Token.offset))
    ∧ tokens.IsChain (fun t u ↦ ¬ (t.IsLiteral ∧ u.IsLiteral)) := by
  have hsorted := Token.sorted_of_ofText h
  obtain ⟨spelled, hspells, rfl⟩ := Token.exists_spells h
  have hslices : Text.slices s.toList ((spelled.map Prod.fst).map Token.offset)
      = spelled.map Prod.snd := by
    rw [List.map_map]
    exact hspells.slices (List.length_nil : ([] : List Char).length = 0)
  rw [hslices]
  refine ⟨fun hs ↦ ?_, hsorted, fun hnil ↦ ?_, hspells.flatten, ?_, hspells.isChain⟩
  · exact hspells.head? (fun hnil ↦ hs (String.toList_eq_nil_iff.1 hnil))
  · obtain ⟨p, hp, hnil⟩ := List.mem_map.1 hnil
    obtain ⟨rest, hbegins⟩ := hspells.begins p hp
    exact hbegins.ne_nil hnil
  · rw [List.forall₂_map_left_iff, List.forall₂_map_right_iff, List.forall₂_same]
    exact hspells.alone

/-- Escapes, quotes and nested braces: each slice is read alone. -/
theorem Token.tiles_nested :
    let s := "a\\>b[c=\"]\" d=\\]]\x7bx\x7b\\\x7d\x7dy\x7d*12"
    let tokens : List Token := [⟨.literal "a>b", 0⟩, ⟨.attributes "c=\"]\" d=\\]", 4⟩,
      ⟨.text "x\x7b\x7d\x7dy", 16⟩, ⟨.times "12", 24⟩]
    Token.ofText s = .ok tokens
    ∧ Text.slices s.toList (tokens.map Token.offset) =
        ["a\\>b".toList, "[c=\"]\" d=\\]]".toList, "\x7bx\x7b\\\x7d\x7dy\x7d".toList,
          "*12".toList]
    ∧ List.Forall₂ (fun t slice ↦ Token.ofText (String.ofList slice) = .ok [{ t with offset := 0 }])
        tokens (Text.slices s.toList (tokens.map Token.offset)) := by
  intro s tokens
  have htokens : Token.ofText s = .ok tokens := by decide +kernel
  exact ⟨htokens, by decide +kernel, (Token.tiles htokens).2.2.2.2.1⟩

end Markup

end Shorthand
