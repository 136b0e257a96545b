import Shorthand.Markup.Tree
import Shorthand.Proofs.Success
import Mathlib.Data.List.Basic

/-!
# How tokens are written

A token forgets how it was written: a text has lost its backslashes.  Where an abbreviation is read
a second time, backwards or as a part of a longer one, what counts is the spelling.

* `Begins` : a spelling of a lexeme, given what is written after it; one rule for each kind.
* `Token.scan_eq_ok_iff` : scanning finds exactly these.
* `Spells` : tokens, one after the other, spell a text.
* `Token.spelled` : the tokens of an abbreviation with their spellings.
* `depthAfter_of_parse` : the parentheses of an abbreviation pair up.
-/

set_option autoImplicit false

namespace Shorthand.Markup

/-! ## Chunks -/

/-- A text ends with its closing brace. -/
theorem exists_raw_of_textChars {depth : Nat} {cs out : List Char} {size : Nat}
    (h : textChars depth cs = some (out, size)) :
    ∃ raw rest, cs = raw ++ '\x7d' :: rest ∧ size = raw.length + 1 := by
  fun_induction textChars depth cs generalizing out size with
  | case1 => simp at h
  | case2 => simp at h
  | case3 depth c hc d cs ih =>
    obtain ⟨⟨o, n⟩, hn, he⟩ := Option.map_eq_some_iff.1 h
    obtain ⟨raw, rest, rfl, rfl⟩ := ih hn
    exact ⟨c :: d :: raw, rest, rfl, (Prod.mk.inj he).2.symm⟩
  | case4 c cs _ hc =>
    exact ⟨[], cs, by simp [eq_of_beq hc], (Prod.mk.inj (Option.some.inj h)).2.symm⟩
  | case5 c cs _ _ depth ih =>
    obtain ⟨⟨o, n⟩, hn, he⟩ := Option.map_eq_some_iff.1 h
    obtain ⟨raw, rest, rfl, rfl⟩ := ih hn
    exact ⟨c :: raw, rest, rfl, (Prod.mk.inj he).2.symm⟩
  | case6 depth c cs _ _ ih =>
    obtain ⟨⟨o, n⟩, hn, he⟩ := Option.map_eq_some_iff.1 h
    obtain ⟨raw, rest, rfl, rfl⟩ := ih hn
    exact ⟨c :: raw, rest, rfl, (Prod.mk.inj he).2.symm⟩

/-- What stands after the inside of an attribute set is its closing bracket. -/
theorem exists_rest_of_attributeChars {quote : Option Char} {cs inner : List Char}
    (h : attributeChars quote cs = .ok inner) : ∃ rest, cs = inner ++ ']' :: rest := by
  fun_induction attributeChars quote cs generalizing inner with
  | case1 => simp at h
  | case2 => simp at h
  | case3 quote c hc d cs ih =>
    obtain ⟨i, hi, rfl⟩ := map_eq_ok_iff.1 h
    obtain ⟨rest, rfl⟩ := ih hi
    exact ⟨rest, rfl⟩
  | case4 c cs _ q ih =>
    obtain ⟨i, hi, rfl⟩ := map_eq_ok_iff.1 h
    obtain ⟨rest, rfl⟩ := ih hi
    exact ⟨rest, rfl⟩
  | case5 c cs _ hc =>
    obtain rfl := Except.ok.inj h
    exact ⟨cs, by simp [eq_of_beq hc]⟩
  | case6 c cs _ _ ih =>
    obtain ⟨i, hi, rfl⟩ := map_eq_ok_iff.1 h
    obtain ⟨rest, rfl⟩ := ih hi
    exact ⟨rest, rfl⟩

/-! ## Spellings -/

/-- A lexeme is written like this when these characters stand after it. -/
inductive Begins : Lexeme → List Char → List Char → Prop where
  | sign {c : Char} {lexeme : Lexeme} (rest : List Char) (h : Lexeme.ofChar? c = some lexeme) :
      Begins lexeme [c] rest
  | times {digits : List Char} {rest : List Char}
      (h : (digits ++ rest).takeWhile Text.isDigit = digits) :
      Begins (.times (String.ofList digits)) ('*' :: digits) rest
  | attributes {inner rest : List Char}
      (h : attributeChars none (inner ++ ']' :: rest) = .ok inner) :
      Begins (.attributes (String.ofList inner)) ('[' :: (inner ++ [']'])) rest
  | text {raw rest out : List Char}
      (h : textChars 0 (raw ++ '\x7d' :: rest) = some (out, raw.length + 1)) :
      Begins (.text (String.ofList out)) ('\x7b' :: (raw ++ ['\x7d'])) rest
  | literal {c : Char} {cs rest out : List Char} (hc : isLiteralChar c = true)
      (h : literalChars (c :: cs ++ rest) = (out, (c :: cs).length)) :
      Begins (.literal (String.ofList out)) (c :: cs) rest

theorem Begins.ne_nil {lexeme : Lexeme} {spelling rest : List Char}
    (h : Begins lexeme spelling rest) : spelling ≠ [] := by
  cases h <;> simp

theorem Begins.length_pos {lexeme : Lexeme} {spelling rest : List Char}
    (h : Begins lexeme spelling rest) : 1 ≤ spelling.length :=
  List.length_pos_iff.2 h.ne_nil

/-- A sign is written in one way. -/
theorem Begins.eq_sign {c : Char} {lexeme : Lexeme} {spelling rest : List Char}
    (hs : Lexeme.ofChar? c = some lexeme) (h : Begins lexeme spelling rest) : spelling = [c] := by
  unfold Lexeme.ofChar? at hs
  split at hs <;> cases hs <;> cases h with
  | sign rest h => unfold Lexeme.ofChar? at h; split at h <;> first | rfl | cases h

theorem ofChar?_eq_none {c : Char} (h : isLiteralChar c = true) : Lexeme.ofChar? c = none := by
  unfold Lexeme.ofChar?
  split <;> first | rfl | simp [isLiteralChar, delimiters] at h

/-- Scanning finds the lexeme that begins a text. -/
theorem Begins.scan {lexeme : Lexeme} {spelling rest : List Char} (pos : Nat)
    (h : Begins lexeme spelling rest) :
    Token.scan pos (spelling ++ rest) = .ok ([⟨lexeme, pos⟩], spelling.length) := by
  cases h with
  | sign rest h => simp [Token.scan, h]
  | @times digits _ h => simp [Token.scan, Lexeme.ofChar?, h]
  | attributes h => simp [Token.scan, Lexeme.ofChar?, h]
  | text h => simp [Token.scan, Lexeme.ofChar?, h]
  | @literal c cs rest out hc h =>
    have hne : c ≠ '*' ∧ c ≠ '[' ∧ c ≠ '\x7b' := by
      refine ⟨?_, ?_, ?_⟩ <;> rintro rfl <;> simp [isLiteralChar, delimiters] at hc
    rw [List.cons_append] at h ⊢
    simp [Token.scan, ofChar?_eq_none hc, hne, hc, h]

/-- A literal takes its first character. -/
theorem literalChars_size_pos {c : Char} {cs : List Char} (hc : isLiteralChar c = true) :
    1 ≤ (literalChars (c :: cs)).2 := by
  cases cs with
  | nil => simp [literalChars, hc]
  | cons d cs =>
    rw [literalChars]
    split
    · simp
    · simp

/-- A literal ends where no literal character stands. -/
theorem literalChars_of_stop {c : Char} (hc : isLiteralChar c = false) (cs : List Char) :
    literalChars (c :: cs) = ([], 0) := by
  have hb : c ≠ '\\' := fun heq ↦ absurd (heq ▸ hc) (by decide)
  cases cs <;> simp [literalChars, hc, hb]

/-- What scanning finds begins the text. -/
theorem Token.exists_begins {pos size : Nat} {c : Char} {cs : List Char} {out : List Token}
    (h : Token.scan pos (c :: cs) = .ok (out, size)) :
    ∃ lexeme spelling rest, c :: cs = spelling ++ rest ∧ Begins lexeme spelling rest ∧
      out = [⟨lexeme, pos⟩] ∧ size = spelling.length := by
  rw [Token.scan] at h
  split at h
  next lexeme hsign =>
    cases h
    exact ⟨lexeme, [c], cs, rfl, .sign cs hsign, rfl, rfl⟩
  split at h
  next hc =>
    obtain rfl := eq_of_beq hc
    cases h
    refine ⟨_, '*' :: cs.takeWhile Text.isDigit, cs.dropWhile Text.isDigit, ?_, .times ?_, rfl, rfl⟩
    all_goals simp [List.takeWhile_append_dropWhile]
  split at h
  next hc =>
    obtain rfl := eq_of_beq hc
    split at h
    next inner hinner =>
      cases h
      obtain ⟨rest, rfl⟩ := exists_rest_of_attributeChars hinner
      exact ⟨_, '[' :: (inner ++ [']']), rest, by simp, .attributes hinner, rfl, by simp⟩
    next => simp at h
  split at h
  next hc =>
    obtain rfl := eq_of_beq hc
    split at h
    next out size htext =>
      cases h
      obtain ⟨raw, rest, rfl, rfl⟩ := exists_raw_of_textChars htext
      exact ⟨_, '\x7b' :: (raw ++ ['\x7d']), rest, by simp, .text htext, rfl, by simp⟩
    next => simp at h
  split at h
  next hc =>
    have hpos : 1 ≤ (literalChars (c :: cs)).2 := literalChars_size_pos hc
    have hle := literalChars_size_le (c :: cs)
    generalize hout : literalChars (c :: cs) = r at h hpos hle
    obtain ⟨out, size⟩ := r
    cases h
    obtain ⟨n, rfl⟩ : ∃ n, size = n + 1 := ⟨size - 1, by simp only at hpos; omega⟩
    have hn : n ≤ cs.length := by simpa using hle
    have hlen : (c :: cs.take n).length = n + 1 := by simp [hn]
    refine ⟨_, c :: cs.take n, cs.drop n, by simp, .literal hc ?_, rfl, hlen.symm⟩
    rw [hlen, List.cons_append, List.take_append_drop, hout]
  next => simp at h

/-- Without a backslash a literal is written with literal characters. -/
theorem isLiteralChar_of_mem {cs rest out : List Char}
    (h : literalChars (cs ++ rest) = (out, cs.length)) (hb : '\\' ∉ cs) :
    ∀ c ∈ cs, isLiteralChar c = true := by
  induction cs generalizing out with
  | nil => simp
  | cons c cs ih =>
    obtain ⟨hne, hb⟩ := not_or.1 (List.mem_cons.not.1 hb)
    have hne : (c == '\\') = false := by simpa using Ne.symm hne
    cases hr : cs ++ rest with
    | nil =>
      rw [List.cons_append, hr, literalChars] at h
      obtain rfl := (List.append_eq_nil_iff.1 hr).1
      cases hc : isLiteralChar c with
      | true => simpa using hc
      | false => simp [hc] at h
    | cons d ds =>
      rw [List.cons_append, hr, literalChars, hne, if_neg (by simp), ← hr] at h
      cases hc : isLiteralChar c with
      | false => simp [hc] at h
      | true =>
        generalize hl : literalChars (cs ++ rest) = r at h
        obtain ⟨o, n⟩ := r
        simp only [hc, if_true, Prod.mk.injEq, List.length_cons, Nat.add_right_cancel_iff] at h
        exact List.forall_mem_cons.2 ⟨hc, ih (hl.trans (by rw [h.2])) hb⟩

/-- Without a backslash, tokens are kept apart by their characters: a parenthesis or a `>` that is
not between brackets is a token of its own. -/
theorem Begins.not_mem {lexeme : Lexeme} {spelling rest : List Char}
    (h : Begins lexeme spelling rest) (hb : '\\' ∉ spelling)
    (ht : ∀ inner, lexeme ≠ .text inner) (ha : ∀ inner, lexeme ≠ .attributes inner)
    (ho : lexeme ≠ .groupOpen) (hc : lexeme ≠ .groupClose) (hg : lexeme ≠ .child) :
    '(' ∉ spelling ∧ ')' ∉ spelling ∧ '>' ∉ spelling := by
  cases h with
  | @sign c lexeme _ h =>
    refine ⟨?_, ?_, ?_⟩ <;>
      (intro hm; obtain rfl := List.mem_singleton.1 hm; cases h; simp at ho hc hg)
  | @times digits _ h =>
    have hdigit : ∀ c ∈ digits, Text.isDigit c = true := by
      intro c hm
      rw [← h] at hm
      exact List.all_eq_true.1 (List.all_takeWhile (p := Text.isDigit)) c hm
    refine ⟨?_, ?_, ?_⟩ <;>
      (intro hm; rcases List.mem_cons.1 hm with hm | hm
       · cases hm
       · exact absurd (hdigit _ hm) (by decide))
  | attributes => exact absurd rfl (ha _)
  | text => exact absurd rfl (ht _)
  | literal _ h =>
    refine ⟨?_, ?_, ?_⟩ <;>
      (intro hm; exact absurd (isLiteralChar_of_mem h hb _ hm) (by decide))

/-! ## Spelled abbreviations -/

/-- Tokens from an offset on, one after the other, spell a text. -/
inductive Spells : Nat → List (Token × List Char) → List Char → Prop where
  | nil (pos : Nat) : Spells pos [] []
  | cons {pos : Nat} {lexeme : Lexeme} {spelling rest : List Char}
      {more : List (Token × List Char)} (first : Begins lexeme spelling rest)
      (others : Spells (pos + spelling.length) more rest) :
      Spells pos ((⟨lexeme, pos⟩, spelling) :: more) (spelling ++ rest)

/-- The token that begins a text, with its spelling. -/
def Token.spell (pos : Nat) (cs : List Char) :
    Except Fault (List (Token × List Char) × Nat) :=
  (Token.scan pos cs).map fun r ↦ (r.1.map fun token ↦ (token, cs.take r.2), r.2)

/-- The tokens of an abbreviation with their spellings. -/
def Token.spelled (s : String) : Except Fault (List (Token × List Char)) :=
  Text.tileFrom Token.spell 0 0 s.toList

theorem Begins.spell {lexeme : Lexeme} {spelling rest : List Char} (pos : Nat)
    (h : Begins lexeme spelling rest) :
    Token.spell pos (spelling ++ rest)
      = .ok ([(⟨lexeme, pos⟩, spelling)], spelling.length) := by
  simp [Token.spell, h.scan, Except.map]

/-- What is spelled is what the tokens are read from. -/
theorem Spells.tokens {pos : Nat} {spelled : List (Token × List Char)} {cs : List Char}
    (h : Spells pos spelled cs) :
    Text.tileFrom Token.scan pos 0 cs = .ok (spelled.map Prod.fst) := by
  induction h with
  | nil => rfl
  | cons first _ ih =>
    rw [Text.tileFrom_piece first.ne_nil (first.scan _), ih]
    rfl

theorem Spells.spelled {pos : Nat} {spelled : List (Token × List Char)} {cs : List Char}
    (h : Spells pos spelled cs) : Text.tileFrom Token.spell pos 0 cs = .ok spelled := by
  induction h with
  | nil => rfl
  | cons first _ ih =>
    rw [Text.tileFrom_piece first.ne_nil (first.spell _), ih]
    rfl

/-- The tokens that are read from a text spell it. -/
theorem Token.exists_spells {pos : Nat} {cs : List Char} {tokens : List Token}
    (h : Text.tileFrom Token.scan pos 0 cs = .ok tokens) :
    ∃ spelled, Spells pos spelled cs ∧ spelled.map Prod.fst = tokens := by
  match hcs : cs with
  | [] =>
    cases h
    exact ⟨[], .nil pos, rfl⟩
  | c :: cs' =>
    obtain ⟨⟨out, size⟩, hscan, -⟩ := bind_eq_ok_iff.1 h
    obtain ⟨lexeme, spelling, rest, he, first, rfl, rfl⟩ := Token.exists_begins hscan
    have hlt : rest.length < (c :: cs').length := by
      rw [he, List.length_append]
      have := first.length_pos
      omega
    rw [he, Text.tileFrom_piece first.ne_nil (first.scan pos)] at h
    obtain ⟨more, hmore, rfl⟩ := map_eq_ok_iff.1 h
    obtain ⟨others, hothers, rfl⟩ := Token.exists_spells hmore
    refine ⟨(⟨lexeme, pos⟩, spelling) :: others, ?_, rfl⟩
    rw [he]
    exact .cons first hothers
termination_by cs.length
decreasing_by exact hlt

/-! ## Groups -/

/-- How many brackets are open after a row, when `depth` are open before it: brackets are what
`opens` and `closes` say. -/
def nesting {α : Type} (opens closes : α → Bool) : Nat → List α → Option Nat
  | depth, [] => some depth
  | depth, a :: as =>
    if opens a then nesting opens closes (depth + 1) as
    else if closes a then
      match depth with
      | 0 => none
      | depth + 1 => nesting opens closes depth as
    else nesting opens closes depth as

section Nesting

variable {α : Type} {opens closes : α → Bool} {depth : Nat} {a : α}

@[simp] theorem nesting_nil : nesting opens closes depth [] = some depth := by
  cases depth <;> rfl

theorem nesting_open (h : opens a = true) (as : List α) :
    nesting opens closes depth (a :: as) = nesting opens closes (depth + 1) as := by
  rw [nesting.eq_def]
  simp [h]

theorem nesting_close_zero (ho : opens a = false) (hc : closes a = true) (as : List α) :
    nesting opens closes 0 (a :: as) = none := by
  rw [nesting.eq_def]
  simp [ho, hc]

theorem nesting_close (ho : opens a = false) (hc : closes a = true) (as : List α) :
    nesting opens closes (depth + 1) (a :: as) = nesting opens closes depth as := by
  rw [nesting.eq_def]
  simp [ho, hc]

theorem nesting_other (ho : opens a = false) (hc : closes a = false) (as : List α) :
    nesting opens closes depth (a :: as) = nesting opens closes depth as := by
  rw [nesting.eq_def]
  simp [ho, hc]

theorem nesting_append (as bs : List α) :
    nesting opens closes depth (as ++ bs)
      = (nesting opens closes depth as).bind (nesting opens closes · bs) := by
  induction as generalizing depth with
  | nil => simp
  | cons a as ih =>
    rw [List.cons_append]
    cases ho : opens a with
    | true => rw [nesting_open ho, nesting_open ho, ih]
    | false =>
      cases hc : closes a with
      | false => rw [nesting_other ho hc, nesting_other ho hc, ih]
      | true =>
        cases depth with
        | zero => rw [nesting_close_zero ho hc, nesting_close_zero ho hc, Option.bind_none]
        | succ depth => rw [nesting_close ho hc, nesting_close ho hc, ih]

theorem nesting_cons_eq_some {as : List α} {e : Nat} :
    nesting opens closes depth (a :: as) = some e ↔
      ∃ m, nesting opens closes depth [a] = some m ∧ nesting opens closes m as = some e := by
  rw [← List.singleton_append, nesting_append, Option.bind_eq_some_iff]

end Nesting

/-- How many groups are open after some tokens. -/
def depthAfter (depth : Nat) (tokens : List Token) : Option Nat :=
  nesting (·.lexeme == .groupOpen) (·.lexeme == .groupClose) depth tokens

/-- Tokens that leave the groups that are open as they are. -/
def Reads (tokens rest : List Token) : Prop :=
  ∀ depth, depthAfter depth tokens = depthAfter depth rest

namespace Reads

theorem refl (tokens : List Token) : Reads tokens tokens := fun _ ↦ rfl

theorem trans {a b c : List Token} (h₁ : Reads a b) (h₂ : Reads b c) : Reads a c :=
  fun depth ↦ (h₁ depth).trans (h₂ depth)

theorem cons {token : Token} {tokens rest : List Token}
    (ho : token.lexeme ≠ .groupOpen) (hc : token.lexeme ≠ .groupClose) (h : Reads tokens rest) :
    Reads (token :: tokens) rest := by
  intro depth
  rw [← h depth]
  exact nesting_other (by simpa using ho) (by simpa using hc) tokens

/-- A group is closed where it was opened. -/
theorem group {tokens rest : List Token} {o c : Nat}
    (h : Reads tokens (⟨.groupClose, c⟩ :: rest)) : Reads (⟨.groupOpen, o⟩ :: tokens) rest := by
  intro depth
  rw [depthAfter, nesting_open rfl]
  exact (h (depth + 1)).trans (nesting_close rfl rfl rest)

end Reads

namespace Tree

theorem reads_modifiers {stop : Nat} {e e' : Element} {tokens rest : Tokens}
    (h : modifiers stop e tokens = .ok (e', rest)) : Reads tokens rest := by
  fun_induction modifiers stop e tokens with
  | case1 e _ text _ rest' ih => exact .cons (by simp) (by simp) (.cons (by simp) (by simp) (ih h))
  | case2 => simp at h
  | case3 e _ text _ rest' ih => exact .cons (by simp) (by simp) (.cons (by simp) (by simp) (ih h))
  | case4 => simp at h
  | case5 e inner offset rest' ih =>
    obtain ⟨attributes, -, h⟩ := bind_eq_ok_iff.1 h
    exact .cons (by simp) (by simp) (ih attributes h)
  | case6 e inner offset rest' ih => exact .cons (by simp) (by simp) (ih h)
  | case7 =>
    cases h
    exact .refl _

theorem reads_mark {e e' : Element} {times times' : Option Multiplier} {tokens rest : Tokens}
    (h : mark e times tokens = .ok (e', times', rest)) : Reads tokens rest := by
  unfold mark at h
  split at h
  · split at h
    · obtain ⟨_, -, h⟩ := bind_eq_ok_iff.1 h
      cases h
      exact .cons (by simp) (by simp) (.refl _)
    · cases h
      exact .refl _
  · cases h
    exact .cons (by simp) (by simp) (.refl _)
  · cases h
    exact .refl _

theorem reads_finish {stop : Nat} {e : Element} {node : Node} {tokens rest : Tokens}
    (h : finish stop e tokens = .ok (node, rest)) : Reads tokens rest := by
  obtain ⟨⟨e₁, rest₁⟩, h₁, h⟩ := bind_eq_ok_iff.1 h
  obtain ⟨⟨e₂, times₂, rest₂⟩, h₂, h⟩ := bind_eq_ok_iff.1 h
  obtain ⟨⟨e₃, times₃, rest₃⟩, h₃, h⟩ := bind_eq_ok_iff.1 h
  cases h
  exact ((reads_modifiers h₁).trans (reads_mark h₂)).trans (reads_mark h₃)

theorem reads_element {stop : Nat} {node : Node} {tokens rest : Tokens}
    (h : element stop tokens = .ok (node, rest)) : Reads tokens rest := by
  unfold element at h
  split at h
  · simp at h
  · exact .cons (by simp) (by simp) (reads_finish h)
  · split at h
    · exact reads_finish h
    · simp at h

theorem reads_climbs (tokens : Tokens) : Reads tokens (climbs tokens).2 := by
  fun_induction climbs tokens with
  | case1 _ rest count rest' hc ih => exact .cons (by simp) (by simp) (by simpa [hc] using ih)
  | case2 => exact .refl _

theorem reads_operator {node : Node} {level next : Nat} {tokens rest : Tokens}
    (h : operator node level tokens = .ok (next, rest)) : Reads tokens rest := by
  unfold operator at h
  split at h
  · split at h
    · simp at h
    · cases h
      exact .cons (by simp) (by simp) (.refl _)
  · cases h
    exact .cons (by simp) (by simp) (.refl _)
  · cases h
    exact .cons (by simp) (by simp) (reads_climbs _)
  · simp at h
  · cases h
    exact .refl _

theorem reads_item {stop : Nat} {inside : Tokens → Except Fault (List (Nat × Node) × Tokens)}
    (hinside : ∀ tokens items rest, inside tokens = .ok (items, rest) → Reads tokens rest)
    {node : Node} {tokens rest : Tokens} (h : item stop inside tokens = .ok (node, rest)) :
    Reads tokens rest := by
  unfold item at h
  split at h
  · obtain ⟨⟨items, rest₁⟩, h₁, h⟩ := bind_eq_ok_iff.1 h
    have hin := hinside _ _ _ h₁
    dsimp only at h
    split at h
    · split at h
      · simp at h
      · split at h
        · obtain ⟨times, -, h⟩ := bind_eq_ok_iff.1 h
          cases h
          exact hin.group.trans (.cons (by simp) (by simp) (.refl _))
        · cases h
          exact hin.group
    · simp at h
  · split at h
    · simp at h
    · exact reads_element h
  · simp at h

theorem reads_statements {stop fuel level : Nat} {items : List (Nat × Node)}
    {tokens rest : Tokens} (h : statements stop fuel level tokens = .ok (items, rest)) :
    Reads tokens rest := by
  induction fuel generalizing level items tokens rest with
  | zero => simp [statements] at h
  | succ fuel ih =>
    rw [statements] at h
    split at h
    · cases h
      exact .refl _
    · obtain ⟨⟨node, rest₁⟩, h₁, h⟩ := bind_eq_ok_iff.1 h
      have hitem := reads_item (fun _ _ _ ↦ ih) h₁
      dsimp only at h
      split at h
      · cases h
        exact hitem
      · obtain ⟨⟨next, after⟩, h₂, h⟩ := bind_eq_ok_iff.1 h
        dsimp only at h
        split at h
        · obtain ⟨⟨items₃, rest₃⟩, h₃, h⟩ := bind_eq_ok_iff.1 h
          cases h
          exact (hitem.trans (reads_operator h₂)).trans (ih h₃)
        · simp at h

/-- The parentheses of an abbreviation pair up. -/
theorem depthAfter_of_ofTokens {stop : Nat} {tokens : Tokens} {nodes : List Node}
    (h : ofTokens stop tokens = .ok nodes) : depthAfter 0 tokens = some 0 := by
  unfold ofTokens at h
  split at h
  · simp at h
  · obtain ⟨⟨items, rest⟩, hs, h⟩ := bind_eq_ok_iff.1 h
    cases rest with
    | nil => exact (reads_statements hs 0).trans nesting_nil
    | cons => simp at h

theorem startsElement_of_element {stop : Nat} {token : Token} {more : Tokens}
    {r : Node × Tokens} (h : element stop (token :: more) = .ok r) :
    startsElement token.lexeme = true := by
  obtain ⟨lexeme, offset⟩ := token
  cases hs : startsElement lexeme with
  | true => rfl
  | false => cases lexeme <;> simp [startsElement, element] at hs h

theorem starts_of_item {stop : Nat} {inside : Tokens → Except Fault (List (Nat × Node) × Tokens)}
    {token : Token} {more : Tokens} {r : Node × Tokens}
    (h : item stop inside (token :: more) = .ok r) :
    token.lexeme = .groupOpen ∨ startsElement token.lexeme = true := by
  unfold item at h
  split at h
  next he => exact .inl (by rw [(List.cons.inj he).1])
  next he =>
    split at h
    · simp at h
    · rw [← he] at h
      exact .inr (startsElement_of_element h)
  · simp at h

/-- An abbreviation begins with a group or an element. -/
theorem starts_of_ofTokens {stop : Nat} {tokens : Tokens} {nodes : List Node}
    (h : ofTokens stop tokens = .ok nodes) :
    ∃ token more, tokens = token :: more ∧
      (token.lexeme = .groupOpen ∨ startsElement token.lexeme = true) := by
  cases tokens with
  | nil => simp [ofTokens] at h
  | cons token more =>
    refine ⟨token, more, rfl, ?_⟩
    obtain ⟨⟨items, rest⟩, hs, h⟩ := bind_eq_ok_iff.1 h
    rw [statements] at hs
    split at hs
    · cases hs
      simp at h
    · obtain ⟨r, hitem, -⟩ := bind_eq_ok_iff.1 hs
      exact starts_of_item hitem

end Tree

end Shorthand.Markup
