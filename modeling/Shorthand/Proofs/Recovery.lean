import Shorthand.Extraction
import Shorthand.Proofs.Spelling
import Shorthand.Proofs.Tags

/-!
# Finding an abbreviation that was written

An abbreviation that stands after a blank is found again by reading backwards from its end, although
the two readings see different things: forwards, a backslash takes away the meaning of the character
after it; backwards, brackets are only counted, and a `>` may end an HTML tag.

They agree when the brackets that are counted pair up (`isPaired`), and then the tags alone decide.

* `Passes` : reading backwards goes over a piece.
* `passes_of_spells` : it goes over tokens that end no HTML tag.
* `extract_eq_some_iff` : an abbreviation is found, whole, exactly when none of its operators `>`
  ends an HTML tag.
* `escaped_brace_not_found` : brackets have to pair up.
-/

set_option autoImplicit false

namespace Shorthand.Extraction

open Markup

/-! ## Reading backwards -/

/-- The outcome of reading that has gone over `size` characters before. -/
def ahead (size : Nat) (outcome : Nat × List Char) : Nat × List Char :=
  (outcome.1 + size, outcome.2)

theorem ahead_ahead (m n : Nat) (outcome : Nat × List Char) :
    ahead m (ahead n outcome) = ahead (n + m) outcome := by
  simp [ahead, Nat.add_assoc]

theorem reach_skip (pending : List Char) (skip : Nat) (c : Char) (before : List Char) :
    reach .markup pending (skip + 1) (c :: before) = ahead 1 (reach .markup pending skip before) :=
  rfl

theorem reach_go {pending pending' before : List Char} {extra : Nat} {c : Char}
    (h : step .markup pending c before = .go pending' extra) :
    reach .markup pending 0 (c :: before) = ahead 1 (reach .markup pending' extra before) := by
  rw [reach, h]
  rfl

theorem reach_stop {pending before : List Char} {c : Char}
    (h : step .markup pending c before = .stop) :
    reach .markup pending 0 (c :: before) = (0, pending) := by
  rw [reach, h]

/-- One more character in front of a piece that reading backwards goes over. -/
theorem reach_cons {p q r before piece : List Char} {c : Char} {j k : Nat}
    (hpiece : reach .markup p 0 (piece.reverse ++ c :: before)
      = ahead piece.length (reach .markup q j (c :: before)))
    (hc : reach .markup q j (c :: before) = ahead 1 (reach .markup r k before)) :
    reach .markup p 0 ((c :: piece).reverse ++ before)
      = ahead (c :: piece).length (reach .markup r k before) := by
  rw [List.reverse_cons, List.append_assoc, List.singleton_append, hpiece, hc, ahead_ahead,
    Nat.add_comm, List.length_cons]

/-- Reading backwards goes over a piece, and has other brackets to open then. -/
def Passes (before piece pending pending' : List Char) : Prop :=
  reach .markup pending 0 (piece.reverse ++ before)
    = ahead piece.length (reach .markup pending' 0 before)

theorem Passes.nil (before pending : List Char) : Passes before [] pending pending := rfl

/-- Pieces are passed from the last to the first. -/
theorem Passes.append {before first second p q r : List Char}
    (h₂ : Passes (first.reverse ++ before) second p q) (h₁ : Passes before first q r) :
    Passes before (first ++ second) p r := by
  rw [Passes] at *
  rw [List.reverse_append, List.append_assoc, h₂, h₁, ahead_ahead, List.length_append]

theorem Passes.cons {before piece p q r : List Char} {c : Char}
    (h₂ : Passes (c :: before) piece p q) (h₁ : step .markup q c before = .go r 0) :
    Passes before (c :: piece) p r :=
  reach_cons h₂ (reach_go h₁)

/-! ## Inside brackets -/

/-- Closing brackets to be opened, before others. -/
def closings (c : Char) : Nat → List Char → List Char
  | 0, outer => outer
  | count + 1, outer => c :: closings c count outer

/-- A character that begins or ends a value. -/
def isQuote (c : Char) : Bool := c == '\'' || c == '"'

/-- What one step back does between brackets of a kind: they are counted, and a quote in square
brackets stands for a whole value. -/
theorem step_inside {opening closing : Char}
    (hkind : (opening, closing) ∈ [('[', ']'), ('\x7b', '\x7d')]) (pending : List Char) (c : Char)
    (before : List Char) :
    step .markup (closing :: pending) c before =
      if c == closing then .go (c :: closing :: pending) 0
      else if c == opening then .go pending 0
      else if closing == ']' && isQuote c && !isEscaped before then
        (openingQuote c 0 before).elim .stop (.go (closing :: pending))
      else .go (closing :: pending) 0 := by
  simp only [List.mem_cons, Prod.mk.injEq, List.not_mem_nil, or_false] at hkind
  rcases hkind with ⟨rfl, rfl⟩ | ⟨rfl, rfl⟩
  · simp only [step, stepInside, isQuote, beq_self_eq_true, if_true, Bool.true_and,
      show (']' == '\x7d') = false from rfl, Bool.false_and, Bool.or_false, List.tail_cons]
    cases openingQuote c 0 before <;> rfl
  · simp [step, stepInside]

/-- Between brackets of a kind, reading backwards counts these brackets, and stops short only at
quotes in square brackets. -/
theorem step_between {opening closing : Char}
    (hkind : (opening, closing) ∈ [('[', ']'), ('\x7b', '\x7d')]) {d m : Nat} {c : Char}
    (outer : List Char) {before : List Char}
    (hq : (closing == ']' && isQuote c && !isEscaped before) = false)
    (h : nesting (· == opening) (· == closing) d [c] = some m) :
    step .markup (closings closing (m + 1) outer) c before
      = .go (closings closing (d + 1) outer) 0 := by
  rw [closings, step_inside hkind, hq]
  cases ho : c == opening with
  | true =>
    obtain rfl : d + 1 = m := by simpa [nesting_open, ho] using h
    have hc : (c == closing) = false := by
      rw [eq_of_beq ho]
      simp only [List.mem_cons, Prod.mk.injEq, List.not_mem_nil, or_false] at hkind
      rcases hkind with ⟨rfl, rfl⟩ | ⟨rfl, rfl⟩ <;> rfl
    rw [hc]
    rfl
  | false =>
    cases hc : c == closing with
    | true =>
      cases d with
      | zero => simp [nesting_close_zero, ho, hc] at h
      | succ d =>
        obtain rfl : d = m := by simpa [nesting_close, ho, hc] using h
        rw [eq_of_beq hc]
        rfl
    | false =>
      obtain rfl : d = m := by simpa [nesting_other, ho, hc] using h
      rfl

/-- Reading backwards goes over what stands between braces, if all braces there pair up. -/
theorem passes_braces {d e : Nat} {cs : List Char} (outer before : List Char)
    (h : nesting (· == '\x7b') (· == '\x7d') d cs = some e) :
    Passes before cs (closings '\x7d' (e + 1) outer) (closings '\x7d' (d + 1) outer) := by
  induction cs generalizing before d with
  | nil =>
    obtain rfl := Option.some.inj (nesting_nil.symm.trans h)
    exact .nil _ _
  | cons c cs ih =>
    obtain ⟨m, hc, hcs⟩ := nesting_cons_eq_some.1 h
    exact .cons (ih _ hcs) (step_between (by simp) outer rfl hc)

/-- The characters of an attribute set outside quoted values; `quote` is the quote that is open. -/
def unquoted : Option Char → List Char → List Char
  | _, [] => []
  | quote, c :: cs =>
    if c == '\\' then
      match cs with
      | [] => []
      | d :: cs => if quote.isNone then c :: d :: unquoted quote cs else unquoted quote cs
    else
      match quote with
      | some q => unquoted (if c == q then none else some q) cs
      | none => if isQuote c then unquoted (some c) cs else c :: unquoted none cs

theorem unquoted_some {c : Char} (h : c ≠ '\\') (q : Char) (cs : List Char) :
    unquoted (some q) (c :: cs) = unquoted (if c == q then none else some q) cs := by
  rw [unquoted.eq_def]
  simp [h]

theorem unquoted_none {c : Char} (h : c ≠ '\\') (cs : List Char) :
    unquoted none (c :: cs)
      = if isQuote c then unquoted (some c) cs else c :: unquoted none cs := by
  rw [unquoted.eq_def]
  simp [h]

theorem isEscaped_cons {c : Char} (h : c ≠ '\\') (before : List Char) :
    isEscaped (c :: before) = false := by
  simp [isEscaped, h]

theorem isEscaped_backslash (before : List Char) :
    isEscaped ('\\' :: before) = !isEscaped before := by
  simp only [isEscaped, List.takeWhile_cons, beq_self_eq_true, if_true, List.length_cons]
  rcases Nat.mod_two_eq_zero_or_one (before.takeWhile (· == '\\')).length with h | h
  · simp [Nat.add_mod, h]
  · simp [Nat.add_mod, h]

/-- After a pair of a backslash and a character there is no backslash left over. -/
theorem isEscaped_pair {before : List Char} (h : isEscaped before = false) (c : Char) :
    isEscaped (c :: '\\' :: before) = false := by
  by_cases hc : c = '\\'
  · rw [hc, isEscaped_backslash, isEscaped_backslash, h]
    rfl
  · exact isEscaped_cons hc _

theorem openingQuote_passed (quote : Char) (passed : Nat) (before : List Char) :
    openingQuote quote passed before = (openingQuote quote 0 before).map (· + passed) := by
  induction before generalizing passed with
  | nil => rfl
  | cons c before ih =>
    rw [openingQuote, openingQuote]
    split
    · simp [Nat.add_comm]
    · rw [ih, ih (0 + 1), Option.map_map]
      congr 1
      funext n
      simp only [Function.comp_apply]
      omega

theorem openingQuote_cons {quote c : Char} {before : List Char} {n : Nat}
    (hc : (c == quote && !isEscaped before) = false) (h : openingQuote quote 0 before = some n) :
    openingQuote quote 0 (c :: before) = some (n + 1) := by
  rw [openingQuote, hc, if_neg (by simp), openingQuote_passed, h]
  rfl

/-- Reading backwards takes a quoted value whole. -/
theorem step_quote {c : Char} {pending before : List Char} {k : Nat} (hc : isQuote c = true)
    (hesc : isEscaped before = false) (hk : openingQuote c 0 before = some k) :
    step .markup (']' :: pending) c before = .go (']' :: pending) k := by
  have hne : c ≠ ']' ∧ c ≠ '[' := by
    constructor <;> rintro rfl <;> simp [isQuote] at hc
  rw [step_inside (show ('[', ']') ∈ [('[', ']'), ('\x7b', '\x7d')] by simp), hc, hesc, hk]
  simp [hne]

/-- How far back the value begins that an open quote stands for. -/
def backTo : Option Char → List Char → Option Nat
  | none, _ => some 0
  | some quote, before => openingQuote quote 0 before

theorem backslash_ne_quote {q : Char} (h : isQuote q = true) : ('\\' == q) = false := by
  rw [beq_eq_false_iff_ne]
  rintro rfl
  simp [isQuote] at h

/-- Reading backwards sees the quoted values of an attribute set, and counts all brackets outside
them. -/
theorem reach_attributes {quote : Option Char} {cs inner : List Char}
    (h : attributeChars quote cs = .ok inner) {d e k : Nat} {before : List Char}
    (outer : List Char) (hq : ∀ q, quote = some q → isQuote q = true)
    (hesc : isEscaped before = false) (hk : backTo quote before = some k)
    (hn : nesting (· == '[') (· == ']') d (unquoted quote inner) = some e) :
    reach .markup (closings ']' (e + 1) outer) 0 (inner.reverse ++ before)
      = ahead inner.length (reach .markup (closings ']' (d + 1) outer) k before) := by
  fun_induction attributeChars quote cs generalizing inner d k before with
  | case1 => simp at h
  | case2 => simp at h
  | case3 quote c hc a cs ih =>
    obtain rfl := eq_of_beq hc
    obtain ⟨i, hi, rfl⟩ := map_eq_ok_iff.1 h
    have hpair := isEscaped_pair hesc a
    have hesc' : isEscaped ('\\' :: before) = true := by rw [isEscaped_backslash, hesc]; rfl
    cases quote with
    | none =>
      obtain rfl : 0 = k := Option.some.inj hk
      obtain ⟨m₁, h₁, hn⟩ := nesting_cons_eq_some.1 hn
      obtain ⟨m₂, h₂, hn⟩ := nesting_cons_eq_some.1 hn
      exact reach_cons
        (reach_cons (ih hi hq hpair rfl hn)
          (reach_go (step_between (by simp) outer (by simp [hesc']) h₂)))
        (reach_go (step_between (by simp) outer (by simp [isQuote]) h₁))
    | some q =>
      have hne : ('\\' == q) = false := backslash_ne_quote (hq q rfl)
      have hk' : backTo (some q) (a :: '\\' :: before) = some (k + 1 + 1) :=
        openingQuote_cons (by simp [hesc']) (openingQuote_cons (by simp [hne]) hk)
      exact reach_cons (reach_cons (ih hi hq hpair hk' hn) (reach_skip ..)) (reach_skip ..)
  | case4 c cs hc q ih =>
    obtain ⟨i, hi, rfl⟩ := map_eq_ok_iff.1 h
    have hne : c ≠ '\\' := by simpa using hc
    rw [unquoted_some hne] at hn
    cases hcq : c == q with
    | true =>
      -- The value is closed, and reading backwards jumps to where it was opened.
      obtain rfl := eq_of_beq hcq
      rw [hcq] at ih hi hn
      exact reach_cons (ih hi (by simp) (isEscaped_cons hne _) rfl hn)
        (reach_go (step_quote (hq c rfl) hesc hk))
    | false =>
      rw [hcq] at ih hi hn
      have hk' : backTo (some q) (c :: before) = some (k + 1) :=
        openingQuote_cons (by simp [hcq]) hk
      exact reach_cons (ih hi hq (isEscaped_cons hne _) hk' hn) (reach_skip ..)
  | case5 c cs hb hc =>
    cases h
    obtain rfl : 0 = k := Option.some.inj hk
    obtain rfl := Option.some.inj (nesting_nil.symm.trans hn)
    rfl
  | case6 c cs hb hc ih =>
    obtain ⟨i, hi, rfl⟩ := map_eq_ok_iff.1 h
    have hne : c ≠ '\\' := by simpa using hb
    obtain rfl : 0 = k := Option.some.inj hk
    rw [unquoted_none hne] at hn
    rw [← isQuote] at ih hi
    cases hqc : isQuote c with
    | true =>
      rw [hqc] at ih hi hn
      have hk' : backTo (some c) (c :: before) = some 1 := by
        simp [backTo, openingQuote, hesc]
      exact reach_cons (ih hi (by simp [hqc]) (isEscaped_cons hne _) hk' hn) (reach_skip ..)
    | false =>
      rw [hqc] at ih hi hn
      obtain ⟨m, hm, hn⟩ := nesting_cons_eq_some.1 hn
      exact reach_cons (ih hi (by simp) (isEscaped_cons hne _) rfl hn)
        (reach_go (step_between (by simp) outer (by simp [hqc]) hm))

/-! ## Tokens -/

/-- Do brackets pair up, the one with the other? -/
def isPaired (opening closing : Char) (cs : List Char) : Bool :=
  nesting (· == opening) (· == closing) 0 cs == some 0

/-- Do the brackets of a token pair up that reading backwards counts: all braces of a text, and
those brackets of an attribute set that stand outside quoted values?  A backslash before them makes
no difference. -/
def pairsUp (token : Token × List Char) : Bool :=
  match token.1.lexeme with
  | .text _ => isPaired '\x7b' '\x7d' token.2.tail.dropLast
  | .attributes inner => isPaired '[' ']' (unquoted none inner.toList)
  | _ => true

/-- Is a token a text or an attribute set, or written with characters of the abbreviation language
and parentheses only? -/
def isPlain (token : Token × List Char) : Bool :=
  match token.1.lexeme with
  | .text _ | .attributes _ => true
  | _ => token.2.all fun c ↦ isAbbreviationChar c || c == '(' || c == ')'

/-- Is a token of a text an operator `>` that ends an HTML tag? -/
def endsTagIn (cs : List Char) (token : Token) : Bool :=
  token.lexeme == .child && endsTag (cs.take token.offset).reverse

/-- Closing parentheses to be opened. -/
abbrev groups (count : Nat) : List Char := closings ')' count []

theorem step_outside (count : Nat) (c : Char) (before : List Char) :
    step .markup (groups count) c before = stepOutside .markup (groups count) c before := by
  cases count <;> rfl

/-- Reading backwards goes over a text in braces. -/
theorem passes_text {raw : List Char} (h : isPaired '\x7b' '\x7d' raw = true) (before : List Char)
    (count : Nat) : Passes before ('\x7b' :: (raw ++ ['\x7d'])) (groups count) (groups count) := by
  have hin := passes_braces (groups count) ('\x7b' :: before) (eq_of_beq h)
  refine .cons (.append (q := closings '\x7d' 1 (groups count)) ?_ hin) rfl
  exact .cons (.nil _ _) (by rw [step_outside]; rfl)

/-- Reading backwards goes over an attribute set. -/
theorem passes_attributes {inner rest : List Char}
    (h : attributeChars none (inner ++ ']' :: rest) = .ok inner)
    (hp : isPaired '[' ']' (unquoted none inner) = true) (before : List Char) (count : Nat) :
    Passes before ('[' :: (inner ++ [']'])) (groups count) (groups count) := by
  have hin : Passes ('[' :: before) inner (closings ']' 1 (groups count))
      (closings ']' 1 (groups count)) :=
    reach_attributes h (groups count) (by simp) (isEscaped_cons (by decide) _) rfl (eq_of_beq hp)
  refine .cons (.append (q := closings ']' 1 (groups count)) ?_ hin) rfl
  exact .cons (.nil _ _) (by rw [step_outside]; rfl)

/-- Characters of the abbreviation language are no brackets. -/
theorem ne_bracket_of_isAbbreviationChar {c : Char} (h : isAbbreviationChar c = true) :
    c ∉ ['(', ')', '[', ']', '\x7b', '\x7d', '<'] := by
  intro hm
  simp only [List.mem_cons, List.not_mem_nil, or_false] at hm
  rcases hm with rfl | rfl | rfl | rfl | rfl | rfl | rfl <;> exact absurd h (by decide)

/-- Reading backwards goes over a character of the abbreviation language that ends no HTML tag. -/
theorem step_plain {c : Char} {before : List Char} (h : isAbbreviationChar c = true)
    (ht : (c == '>' && endsTag before) = false) (count : Nat) :
    step .markup (groups count) c before = .go (groups count) 0 := by
  have hne := ne_bracket_of_isAbbreviationChar h
  simp only [List.mem_cons, List.not_mem_nil, or_false, not_or] at hne
  have hcl : Surroundings.markup.closes c = false := by
    simp [Surroundings.closes, Surroundings.markup, Ne.symm hne.2.1, Ne.symm hne.2.2.2.1,
      Ne.symm hne.2.2.2.2.2.1]
  have hop : Surroundings.markup.closing? c = none := by
    simp [Surroundings.closing?, Surroundings.markup, List.lookup_eq_none_iff, hne]
  have hst : Surroundings.markup.stops.contains c = false := by
    simp [Surroundings.markup, hne]
  have htag : (Surroundings.markup.seesTags && c == '>' && endsTag before) = false := by
    simpa [Surroundings.markup] using ht
  rw [step_outside, stepOutside, hcl, hop, hst, h, htag]
  rfl

/-- Reading backwards goes over plain characters that end no HTML tag. -/
theorem passes_plain {cs : List Char} (h : ∀ c ∈ cs, isAbbreviationChar c = true ∧ c ≠ '>')
    (before : List Char) (count : Nat) : Passes before cs (groups count) (groups count) := by
  induction cs generalizing before with
  | nil => exact .nil _ _
  | cons c cs ih =>
    obtain ⟨hc, hcs⟩ := List.forall_mem_cons.1 h
    exact .cons (ih hcs _) (step_plain hc.1 (by simp [hc.2]) count)

/-- Reading backwards stops at the end of an HTML tag. -/
theorem step_tag {before : List Char} (count : Nat) (h : endsTag before = true) :
    step .markup (groups count) '>' before = .stop := by
  rw [step_outside, stepOutside, show Surroundings.markup.closing? '>' = none from rfl]
  simp [Surroundings.closes, Surroundings.markup, h]

theorem step_open (count : Nat) (before : List Char) :
    step .markup (groups (count + 1)) '(' before = .go (groups count) 0 := rfl

theorem step_close (count : Nat) (before : List Char) :
    step .markup (groups count) ')' before = .go (groups (count + 1)) 0 := by
  rw [step_outside]
  rfl

/-- The spelling of a plain token that is neither a parenthesis nor an operator `>`. -/
theorem plain_chars {lexeme : Lexeme} {pos : Nat} {spelling rest : List Char}
    (first : Begins lexeme spelling rest) (hplain : isPlain (⟨lexeme, pos⟩, spelling) = true)
    (ht : ∀ inner, lexeme ≠ .text inner) (ha : ∀ inner, lexeme ≠ .attributes inner)
    (ho : lexeme ≠ .groupOpen) (hc : lexeme ≠ .groupClose) (hg : lexeme ≠ .child) :
    ∀ c ∈ spelling, isAbbreviationChar c = true ∧ c ≠ '>' := by
  have hall : ∀ c ∈ spelling, (isAbbreviationChar c = true ∨ c = '(') ∨ c = ')' := by
    cases lexeme <;> simp_all [isPlain]
  have hb : '\\' ∉ spelling := by
    intro hm
    rcases hall _ hm with (h | h) | h <;> exact absurd h (by decide)
  obtain ⟨h₁, h₂, h₃⟩ := first.not_mem hb ht ha ho hc hg
  intro c hm
  refine ⟨?_, fun he ↦ h₃ (he ▸ hm)⟩
  rcases hall c hm with (h | rfl) | rfl
  · exact h
  · exact absurd hm h₁
  · exact absurd hm h₂

/-- Reading backwards goes over a token that ends no HTML tag, and has as many groups to open as
are open before it. -/
theorem passes_token {lexeme : Lexeme} {pos d e : Nat} {spelling rest before : List Char}
    (first : Begins lexeme spelling rest) (hplain : isPlain (⟨lexeme, pos⟩, spelling) = true)
    (hpair : pairsUp (⟨lexeme, pos⟩, spelling) = true)
    (hdepth : depthAfter d [⟨lexeme, pos⟩] = some e)
    (htag : (lexeme == .child && endsTag before) = false) :
    Passes before spelling (groups e) (groups d) := by
  by_cases ho : lexeme = .groupOpen
  · subst ho
    obtain rfl : d + 1 = e := by simpa [depthAfter, nesting_open] using hdepth
    rw [first.eq_sign (c := '(') rfl]
    exact .cons (.nil _ _) (step_open _ _)
  by_cases hc : lexeme = .groupClose
  · subst hc
    cases d with
    | zero => simp [depthAfter, nesting_close_zero] at hdepth
    | succ d =>
      obtain rfl : d = e := by simpa [depthAfter, nesting_close] using hdepth
      rw [first.eq_sign (c := ')') rfl]
      exact .cons (.nil _ _) (step_close _ _)
  obtain rfl : d = e := by simpa [depthAfter, nesting_other, ho, hc] using hdepth
  by_cases hg : lexeme = .child
  · subst hg
    rw [first.eq_sign (c := '>') rfl]
    exact .cons (.nil _ _) (step_plain (by decide) (by simpa using htag) _)
  cases first with
  | text => exact passes_text (by simpa [pairsUp] using hpair) _ _
  | attributes h => exact passes_attributes h (by simpa [pairsUp] using hpair) _ _
  | sign rest h =>
    have hsign : (∀ inner, lexeme ≠ .text inner) ∧ ∀ inner, lexeme ≠ .attributes inner := by
      unfold Lexeme.ofChar? at h
      split at h <;> cases h <;> simp
    exact passes_plain (plain_chars (.sign rest h) hplain hsign.1 hsign.2 ho hc hg) _ _
  | times h =>
    exact passes_plain (plain_chars (.times h) hplain (by simp) (by simp) ho hc hg) _ _
  | literal h h' =>
    exact passes_plain (plain_chars (.literal h h') hplain (by simp) (by simp) ho hc hg) _ _

/-! ## Whole abbreviations -/

/-- Where a `<` stands is all that counts for an HTML tag. -/
theorem endsTag_append {after : List Char} (h : '<' ∉ after) (before : List Char) :
    endsTag (before ++ after) = endsTag before := by
  by_cases hb : '<' ∈ before
  · exact endsTag_append_of_mem hb after
  · rw [endsTag_eq_false hb, endsTag_eq_false fun hm ↦ (List.mem_append.1 hm).elim hb h]

section Row

variable {all cs front : List Char} {spelled : List (Token × List Char)} {pos d e : Nat}

/-- The line up to a place in an abbreviation, backwards: a blank stands before the abbreviation. -/
abbrev lineBefore (front : List Char) : List Char := front.reverse ++ [' ']

theorem lineBefore_append (front piece : List Char) :
    lineBefore (front ++ piece) = piece.reverse ++ lineBefore front := by
  simp [lineBefore]

theorem endsTag_lineBefore (front : List Char) :
    endsTag (lineBefore front) = endsTag front.reverse :=
  endsTag_append (by decide) front.reverse

/-- Reading backwards goes over tokens that end no HTML tag. -/
theorem passes_spells (h : Spells pos spelled cs)
    (hplain : ∀ token ∈ spelled, isPlain token = true)
    (hpair : ∀ token ∈ spelled, pairsUp token = true)
    (hall : all = front ++ cs) (hpos : pos = front.length)
    (hdepth : depthAfter d (spelled.map Prod.fst) = some e)
    (htag : ∀ token ∈ spelled, endsTagIn all token.1 = false) :
    Passes (lineBefore front) cs (groups e) (groups d) := by
  induction h generalizing front d with
  | nil =>
    obtain rfl := Option.some.inj (nesting_nil.symm.trans hdepth)
    exact .nil _ _
  | @cons pos lexeme spelling rest more first others ih =>
    obtain ⟨hplain₁, hplain⟩ := List.forall_mem_cons.1 hplain
    obtain ⟨hpair₁, hpair⟩ := List.forall_mem_cons.1 hpair
    obtain ⟨htag₁, htag⟩ := List.forall_mem_cons.1 htag
    obtain ⟨m, hdepth₁, hdepth⟩ := nesting_cons_eq_some.1 hdepth
    have hall' : all = (front ++ spelling) ++ rest := by simp [hall]
    have hpos' : pos + spelling.length = (front ++ spelling).length := by simp [hpos]
    have hrest := ih hplain hpair hall' hpos' hdepth htag
    rw [lineBefore_append] at hrest
    refine .append hrest (passes_token first hplain₁ hpair₁ hdepth₁ ?_)
    rw [endsTag_lineBefore]
    simpa [endsTagIn, hall, hpos] using htag₁

/-- Reading backwards stops at the last `>` that ends an HTML tag, if not before. -/
theorem reach_lt_of_endsTag (h : Spells pos spelled cs)
    (hplain : ∀ token ∈ spelled, isPlain token = true)
    (hpair : ∀ token ∈ spelled, pairsUp token = true)
    (hall : all = front ++ cs) (hpos : pos = front.length)
    (hdepth : depthAfter d (spelled.map Prod.fst) = some e)
    (htag : ∃ token ∈ spelled, endsTagIn all token.1 = true) :
    (reach .markup (groups e) 0 (cs.reverse ++ lineBefore front)).1 < cs.length := by
  induction h generalizing front d with
  | nil =>
    obtain ⟨_, hm, -⟩ := htag
    cases hm
  | @cons pos lexeme spelling rest more first others ih =>
    obtain ⟨-, hplain'⟩ := List.forall_mem_cons.1 hplain
    obtain ⟨-, hpair'⟩ := List.forall_mem_cons.1 hpair
    obtain ⟨m, hdepth₁, hdepth'⟩ := nesting_cons_eq_some.1 hdepth
    have hall' : all = (front ++ spelling) ++ rest := by simp [hall]
    have hpos' : pos + spelling.length = (front ++ spelling).length := by simp [hpos]
    rw [List.reverse_append, List.append_assoc, ← lineBefore_append, List.length_append]
    by_cases hmore : ∃ token ∈ more, endsTagIn all token.1 = true
    · have := ih hplain' hpair' hall' hpos' hdepth' hmore
      omega
    · have hnone : ∀ token ∈ more, endsTagIn all token.1 = false := by
        simpa using hmore
      have hrest := passes_spells others hplain' hpair' hall' hpos' hdepth' hnone
      obtain ⟨token, hm, htag⟩ := htag
      rcases List.mem_cons.1 hm with rfl | hm
      · obtain ⟨hg, htag⟩ := Bool.and_eq_true_iff.1 htag
        obtain rfl : lexeme = .child := eq_of_beq hg
        obtain rfl := first.eq_sign (c := '>') rfl
        rw [hall, hpos, List.take_left, ← endsTag_lineBefore] at htag
        rw [hrest, lineBefore_append]
        change (reach .markup (groups m) 0 ('>' :: lineBefore front)).1 + rest.length < _
        rw [reach_stop (step_tag m htag)]
        simp
      · rw [hnone token hm] at htag
        cases htag

end Row

/-- The first character of an abbreviation is no blank and no operator. -/
theorem head_of_starts {lexeme : Lexeme} {spelling rest : List Char}
    (first : Begins lexeme spelling rest)
    (h : lexeme = .groupOpen ∨ Tree.startsElement lexeme = true) :
    ∃ c cs, spelling = c :: cs ∧ leadingOperators.contains c = false ∧ Text.isBlank c = false := by
  cases first with
  | @sign c lexeme _ hs =>
    refine ⟨c, [], rfl, ?_⟩
    unfold Lexeme.ofChar? at hs
    split at hs <;> cases hs <;> simp [Tree.startsElement] at h <;> decide
  | times => simp [Tree.startsElement] at h
  | attributes => exact ⟨_, _, rfl, by decide, by decide⟩
  | text => exact ⟨_, _, rfl, by decide, by decide⟩
  | @literal c cs _ _ hc _ =>
    refine ⟨c, cs, rfl, ?_, ?_⟩
    · cases hl : leadingOperators.contains c with
      | false => rfl
      | true =>
        simp only [leadingOperators, List.contains_eq_mem, List.mem_cons, List.not_mem_nil,
          or_false, decide_eq_true_eq] at hl
        rcases hl with rfl | rfl | rfl | rfl <;> exact absurd hc (by decide)
    · simp only [isLiteralChar, Bool.and_eq_true, Bool.not_eq_true'] at hc
      exact hc.2

/-- What is found begins after the place where reading backwards has stopped. -/
theorem start_gt {cs : List Char} {before : Char} {span : Span}
    (hlt : (reach .markup [] 0 (before :: cs).reverse).1 < cs.length)
    (h : extractEnd .markup (before :: cs) = some span) : 1 < span.start := by
  rw [extractEnd] at h
  generalize reach .markup [] 0 (before :: cs).reverse = r at hlt h
  obtain ⟨size, pending⟩ := r
  dsimp only at h hlt
  split at h
  · cases h
  · split at h
    · cases h
    · cases h
      have hle := (List.dropWhile_sublist (l := (before :: cs).drop ((before :: cs).length - size))
        leadingOperators.contains).length_le
      simp only [List.length_drop, List.length_cons] at hle ⊢
      omega

/-- **An abbreviation is found where it was written.**  After a blank, an abbreviation is found
whole exactly when none of its operators `>` ends an HTML tag, if outside texts and attribute sets
it has no characters but those of the abbreviation language and parentheses, and the brackets inside
them pair up. -/
theorem extract_eq_some_iff (s : String) (nodes : List Node) (tokens : List (Token × List Char))
    (hparse : Tree.parse s = .ok nodes) (hspelled : Token.spelled s = .ok tokens)
    (hplain : ∀ token ∈ tokens, isPlain token = true)
    (hpair : ∀ token ∈ tokens, pairsUp token = true) :
    extract .markup (" " ++ s) none = some ⟨s, 1, 1 + s.length⟩ ↔
      ∀ token ∈ tokens, endsTagIn s.toList token.1 = false := by
  obtain ⟨read, hread, htree⟩ := bind_eq_ok_iff.1 (located_eq_ok_iff.1 hparse)
  obtain ⟨tokens', hspells, rfl⟩ := Token.exists_spells hread
  obtain rfl : tokens = tokens' := Except.ok.inj (hspelled.symm.trans hspells.spelled)
  have hdepth := Tree.depthAfter_of_ofTokens htree
  obtain ⟨token, more, hfirst, hstarts⟩ := Tree.starts_of_ofTokens htree
  have hline : extract .markup (" " ++ s) none = extractEnd .markup (' ' :: s.toList) := by
    rw [extract, cursor, ← String.length_toList, List.take_length]
    simp
  have hreverse : (' ' :: s.toList).reverse = s.toList.reverse ++ lineBefore [] := by simp
  have hall : s.toList = [] ++ s.toList := rfl
  constructor
  · intro hsome
    by_contra htag
    have hlt := reach_lt_of_endsTag hspells hplain hpair hall rfl hdepth
      (by simpa using htag)
    rw [hline] at hsome
    exact absurd (start_gt (by rwa [hreverse]) hsome) (by simp)
  · intro htag
    have hpass := passes_spells hspells hplain hpair hall rfl hdepth htag
    have hreach : reach .markup [] 0 (' ' :: s.toList).reverse = (s.toList.length, []) := by
      have hblank : reach .markup [] 0 [' '] = (0, []) := reach_stop (by decide)
      have hall : reach .markup [] 0 (s.toList.reverse ++ [' '])
          = ahead s.toList.length (reach .markup [] 0 [' ']) := hpass
      rw [List.reverse_cons, hall, hblank, ahead, Nat.zero_add]
    obtain ⟨c, cs, hs, hc, hblank⟩ : ∃ c cs, s.toList = c :: cs ∧
        leadingOperators.contains c = false ∧ Text.isBlank c = false := by
      generalize s.toList = all at hspells
      cases hspells with
      | nil => cases hfirst
      | cons first _ =>
        obtain rfl := (List.cons.inj hfirst).1
        obtain ⟨c, cs, rfl, h⟩ := head_of_starts first hstarts
        exact ⟨c, cs ++ _, rfl, h⟩
    have hstripped : s.toList.dropWhile leadingOperators.contains = s.toList := by
      rw [hs, List.dropWhile_cons_of_neg (by simpa using hc)]
    have hnotBlank : Text.isBlankText s.toList = false := by
      rw [hs, Text.isBlankText, List.all_cons, hblank, Bool.false_and]
    rw [hline, extractEnd, hreach]
    simp [hstripped, hnotBlank, Nat.add_comm, String.length_toList]

/-- A link with a text in a paragraph. -/
def linkTree : List Node :=
  [.element { name := some "p", offset := 0 } none
    [.element
      { name := some "a", attributes := [⟨"b", [.text "["], none⟩], text := some [.text "c"],
        offset := 2 } none []]]

/-- The tokens of a link with a text in a paragraph. -/
def linkTokens : List (Token × List Char) :=
  [(⟨.literal "p", 0⟩, ['p']), (⟨.child, 1⟩, ['>']), (⟨.literal "a", 2⟩, ['a']),
    (⟨.attributes "b='['", 3⟩, "[b='[']".toList), (⟨.text "c", 10⟩, "\x7bc\x7d".toList)]

/-- A link is found: the bracket between quotes does not count. -/
theorem extract_link :
    extract .markup " p>a[b='[']\x7bc\x7d" none = some ⟨"p>a[b='[']\x7bc\x7d", 1, 14⟩ := by
  have hparse : Tree.parse "p>a[b='[']\x7bc\x7d" = .ok linkTree := by decide +kernel
  have hspelled : Token.spelled "p>a[b='[']\x7bc\x7d" = .ok linkTokens := by decide +kernel
  have hplain : ∀ token ∈ linkTokens, isPlain token = true := by decide
  have hpair : ∀ token ∈ linkTokens, pairsUp token = true := by decide
  exact (extract_eq_some_iff "p>a[b='[']\x7bc\x7d" linkTree linkTokens hparse hspelled hplain
    hpair).2 (by decide)

/-- An abbreviation that has the right characters outside its texts and attribute sets, and is not
found after a blank. -/
def IsLost (s : String) : Prop :=
  ∃ nodes tokens, Tree.parse s = .ok nodes ∧ Token.spelled s = .ok tokens ∧
    (∀ token ∈ tokens, isPlain token = true) ∧
    extract .markup (" " ++ s) none ≠ some ⟨s, 1, 1 + s.length⟩

/-- Abbreviations are lost at a `>` that ends an HTML tag, and where brackets do not pair up, be it
in a text or in an attribute set. -/
theorem tag_or_bracket_lost :
    IsLost "a\x7b<b \x7d>c" ∧ IsLost "\x7ba\\\x7d\x7d" ∧ IsLost "[a b[c]" := by
  refine ⟨⟨[.element { name := some "a", text := some [.text "<b "], offset := 0 } none
      [.element { name := some "c", offset := 7 } none []]],
      [(⟨.literal "a", 0⟩, ['a']), (⟨.text "<b ", 1⟩, "\x7b<b \x7d".toList), (⟨.child, 6⟩, ['>']),
        (⟨.literal "c", 7⟩, ['c'])], by decide +kernel, by decide +kernel, by decide, by decide⟩,
    ⟨[.text [.text "a\x7d"] none 0], [(⟨.text "a\x7d", 0⟩, "\x7ba\\\x7d\x7d".toList)],
      by decide +kernel, by decide +kernel, by decide, by decide⟩,
    ⟨[.element { attributes := [⟨"a", [], none⟩, ⟨"b[c", [], none⟩], offset := 0 } none []],
      [(⟨.attributes "a b[c", 0⟩, "[a b[c]".toList)], by decide +kernel, by decide +kernel,
      by decide, by decide⟩⟩

end Shorthand.Extraction
