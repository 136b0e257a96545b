import Shorthand.Proofs.Faults

/-!
# Counts without a value

A count may hold digits that have no place in a numeral, such as a superscript.  Such a count is no
error of the grammar to the reader: it has no value, and that is another kind of failure.  The
reader comes to it exactly when everything before it is in order: the tokens up to the count, with
the count read as 1 and the open groups closed, are a row of the grammar.

* `Tree.Stumbles` : the reader comes to a count without a value.
* `Tree.ofTokens_eq_unreadable_iff` : then and only then it fails with that count.
* `Tree.not_stumbles_of_decimal` : it comes to none where all counts are of decimal digits.
-/

set_option autoImplicit false

namespace Shorthand.Markup.Tree

open Source

variable {stop : Nat} {digits : String} {place n : Nat} {before after : Tokens}

/-- The reader comes to a count that has no value: the tokens up to it, with the count read as 1 and
the open groups closed, are a row. -/
def Stumbles (tokens : Tokens) (digits : String) : Prop :=
  Unreadable digits ∧
    ∃ row : Row, row.Fits ∧ (∀ t ∈ row.tokens, t.Legible) ∧ CutAt digits tokens row.tokens

/-! ## Where a row ends in a count -/

/-- The last token of tokens that end in a count and closing parentheses is one of these. -/
theorem concat_eq_cut {front : Tokens} {t : Token}
    (h : front ++ [t] = before ++ ⟨.times "1", place⟩ :: closing n) :
    (front = before ∧ t = ⟨.times "1", place⟩) ∨
      t = ⟨.groupClose, 0⟩ ∧ ∃ m, front = before ++ ⟨.times "1", place⟩ :: closing m := by
  cases n with
  | zero =>
    obtain ⟨hfront, ht⟩ := List.append_inj' h rfl
    exact .inl ⟨hfront, List.singleton_inj.1 ht⟩
  | succ m =>
    rw [closing, List.replicate_succ', ← List.cons_append, ← List.append_assoc] at h
    obtain ⟨hfront, ht⟩ := List.append_inj' h rfl
    exact .inr ⟨List.singleton_inj.1 ht, m, hfront⟩

theorem lexeme_ne_times_of_mem {ms : List Modifier} :
    ∀ t ∈ ms.flatMap Modifier.tokens, t.lexeme ≠ .times "1" := by
  intro t ht htimes
  have hstarts := startsElement_of_mem t ht
  rw [htimes] at hstarts
  cases hstarts

/-- A count at the end of an element is a mark of its tail. -/
theorem eq_of_tail_cut {front : Tokens} {tail : Tail} (hfront : ∀ t ∈ front, t.lexeme ≠ .times "1")
    (h : front ++ tail.tokens = before ++ ⟨.times "1", place⟩ :: closing n) :
    before = front ∨ ∃ at_, before = front ++ [⟨.close, at_⟩] := by
  cases tail with
  | empty =>
    rw [Tail.tokens, List.append_nil] at h
    exact absurd rfl (hfront ⟨.times "1", place⟩ (h ▸ by simp))
  | times count =>
    rcases concat_eq_cut h with ⟨rfl, -⟩ | ⟨ht, -⟩
    · exact .inl rfl
    · cases congrArg Token.lexeme ht
  | close at_ => rcases concat_eq_cut h with ⟨-, ht⟩ | ⟨ht, -⟩ <;> cases congrArg Token.lexeme ht
  | timesClose count at_ =>
    rw [Tail.tokens, ← List.singleton_append, ← List.append_assoc] at h
    rcases concat_eq_cut h with ⟨-, ht⟩ | ⟨ht, -⟩ <;> cases congrArg Token.lexeme ht
  | closeTimes at_ count =>
    rw [Tail.tokens, ← List.singleton_append, ← List.append_assoc] at h
    rcases concat_eq_cut h with ⟨rfl, -⟩ | ⟨ht, -⟩
    · exact .inr ⟨at_, rfl⟩
    · cases congrArg Token.lexeme ht
  | closeClose at_ second =>
    rw [Tail.tokens, ← List.singleton_append, ← List.append_assoc] at h
    rcases concat_eq_cut h with ⟨-, ht⟩ | ⟨ht, -⟩ <;> cases congrArg Token.lexeme ht

theorem isOperator_of_mem {op : Op} {t : Token} (h : t ∈ op.tokens) :
    isOperator t.lexeme = true := by
  cases op with
  | child | sibling => rw [List.mem_singleton.1 h]; rfl
  | climb at_ more =>
    rcases List.mem_cons.1 h with rfl | h
    · rfl
    · obtain ⟨_, -, rfl⟩ := List.mem_map.1 h
      rfl

/-- A count at the end of a row is in the last item of the row. -/
theorem exists_of_row_cut {i : Item} {op : Op} {rest : Row}
    (h : i.tokens ++ (op.tokens ++ rest.tokens) = before ++ ⟨.times "1", place⟩ :: closing n) :
    ∃ more, before = i.tokens ++ (op.tokens ++ more) ∧
      rest.tokens = more ++ ⟨.times "1", place⟩ :: closing n := by
  rw [← List.append_assoc] at h
  rcases List.append_eq_append_iff.1 h with ⟨more, rfl, hrest⟩ | ⟨more, hfront, hmore⟩
  · exact ⟨more, List.append_assoc .., hrest⟩
  rcases List.eq_nil_or_concat' more with rfl | ⟨others, t, rfl⟩
  · exact ⟨[], by simpa using hfront.symm, by simpa using hmore.symm⟩
  -- The last token before the rest is an operator, and that is no part of a count.
  exfalso
  have hop : isOperator t.lexeme = true := by
    obtain hops | ⟨ops, o, hops⟩ := List.eq_nil_or_concat' op.tokens
    · exact absurd hops (List.length_pos_iff.1 (length_op_pos op))
    · rw [hops, ← List.append_assoc, ← List.append_assoc] at hfront
      have ht := List.singleton_inj.1 (List.append_inj' hfront rfl).2
      have hmem : t ∈ op.tokens := by
        rw [hops, ht]
        simp
      exact isOperator_of_mem hmem
  have hmem : t ∈ (⟨.times "1", place⟩ : Token) :: closing n := by
    rw [hmore]
    simp
  rcases List.mem_cons.1 hmem with rfl | hclosing
  · cases hop
  · rw [List.eq_of_mem_replicate hclosing] at hop
    cases hop

/-! ## Coming to the count -/

theorem finish_stumbles (hdigits : Unreadable digits) {ms : List Modifier}
    (hms : ∀ t ∈ ms.flatMap Modifier.tokens, t.Legible) {front : Tokens}
    (hfront : front = ms.flatMap Modifier.tokens ∨
      ∃ at_, front = ms.flatMap Modifier.tokens ++ [⟨.close, at_⟩]) (e : Element) :
    finish stop e (front ++ ⟨.times digits, place⟩ :: after)
      = .error (.unreadableCount digits) := by
  have hmark : ∀ e : Element, mark e none (⟨.times digits, place⟩ :: after)
      = .error (.unreadableCount digits) := by
    intro e
    rw [mark, multiplier_of_unreadable hdigits]
    rfl
  rcases hfront with rfl | ⟨at_, rfl⟩
  · rw [finish, modifiers_tokens (by simp [opensModifier]) hms]
    simp only [bind, Except.bind, hmark]
  · have hclose : ∀ e : Element, mark e none (⟨.close, at_⟩ :: ⟨.times digits, place⟩ :: after)
        = .ok ({ e with selfClosing := true }, none, ⟨.times digits, place⟩ :: after) := fun e ↦ rfl
    rw [finish, List.append_assoc, modifiers_tokens (by simp [opensModifier]) hms]
    simp only [List.singleton_append, bind, Except.bind, hclose, hmark]

theorem element_stumbles (hdigits : Unreadable digits) {phrase : Phrase}
    (h : ∀ t ∈ phrase.tokens, t.Legible)
    (hcut : phrase.tokens = before ++ ⟨.times "1", place⟩ :: closing n) :
    element stop (before ++ ⟨.times digits, place⟩ :: after)
      = .error (.unreadableCount digits) := by
  cases phrase with
  | named name at_ ms tail =>
    rw [Phrase.tokens] at hcut h
    obtain ⟨hms, -⟩ := List.forall_mem_append.1 (List.forall_mem_cons.1 h).2
    cases before with
    | nil => cases congrArg Token.lexeme (List.cons.inj hcut).1
    | cons t before =>
      obtain ⟨ht, hmore⟩ := List.cons.inj hcut
      rw [← ht]
      exact finish_stumbles hdigits hms (eq_of_tail_cut lexeme_ne_times_of_mem hmore) _
  | nameless first others tail =>
    rw [Phrase.tokens, ← List.append_assoc, ← List.flatMap_cons] at hcut h
    obtain ⟨hms, -⟩ := List.forall_mem_append.1 h
    have hfront := eq_of_tail_cut lexeme_ne_times_of_mem hcut
    have hfinish : finish stop { offset := first.start } (before ++ ⟨.times digits, place⟩ :: after)
        = .error (.unreadableCount digits) := finish_stumbles hdigits hms hfront _
    rw [← hfinish]
    obtain ⟨more, rfl⟩ : ∃ more, before = first.tokens ++ more := by
      rcases hfront with rfl | ⟨_, rfl⟩
      · exact ⟨_, List.flatMap_cons⟩
      · exact ⟨_, by rw [List.flatMap_cons, List.append_assoc]⟩
    cases first <;> rfl

/-- Tokens up to the count of a row begin as the row does. -/
theorem exists_head_of_cut {tokens : Tokens} {t : Token} {more : Tokens}
    (htokens : tokens = t :: more) (ht : t.lexeme = .groupOpen ∨ startsElement t.lexeme = true)
    (hcut : tokens = before ++ ⟨.times "1", place⟩ :: closing n) : ∃ rest, before = t :: rest := by
  cases before with
  | nil =>
    rw [htokens] at hcut
    obtain rfl := (List.cons.inj hcut).1
    simp [startsElement] at ht
  | cons s rest =>
    rw [htokens] at hcut
    exact ⟨rest, by rw [(List.cons.inj hcut).1]⟩

theorem item_stumbles (hdigits : Unreadable digits)
    {inside : Tokens → Except Fault (List (Nat × Node) × Tokens)} {i : Item} (hfits : i.Fits)
    (h : ∀ t ∈ i.tokens, t.Legible)
    (hinside : ∀ row : Row, row.tokens.length < before.length → row.Fits →
      (∀ t ∈ row.tokens, t.Legible) → ∀ rest, atEnd rest = true →
        inside (row.tokens ++ rest) = .ok (row.items 0, rest))
    (hstumbles : ∀ (row : Row) (more : Tokens) (m : Nat), more.length < before.length → row.Fits →
      (∀ t ∈ row.tokens, t.Legible) → row.tokens = more ++ ⟨.times "1", place⟩ :: closing m →
        inside (more ++ ⟨.times digits, place⟩ :: after) = .error (.unreadableCount digits))
    (hcut : i.tokens = before ++ ⟨.times "1", place⟩ :: closing n) :
    item stop inside (before ++ ⟨.times digits, place⟩ :: after)
      = .error (.unreadableCount digits) := by
  cases i with
  | element phrase =>
    obtain ⟨⟨lexeme, at_⟩, more, htokens, hstart⟩ := head_phrase phrase
    obtain ⟨rest, rfl⟩ := exists_head_of_cut htokens (.inr hstart) hcut
    have helement : element stop (⟨lexeme, at_⟩ :: rest ++ ⟨.times digits, place⟩ :: after)
        = .error (.unreadableCount digits) := element_stumbles hdigits h hcut
    cases lexeme with
    | literal | hash | dot | attributes | text => exact helement
    | _ => cases hstart
  | group opening row closed count =>
    have hrow : ∀ t ∈ row.tokens, t.Legible := fun t ht ↦ h t (by simp [Item.tokens, ht])
    rw [Item.tokens] at hcut
    obtain ⟨rest, rfl⟩ := exists_head_of_cut rfl (.inl rfl) hcut
    -- Without a count of its own the group is closed behind the count that is meant; otherwise that
    -- count is its own.
    replace hcut : row.tokens ++ ⟨.groupClose, closed⟩ :: (count.map Count.token).toList
        = rest ++ ⟨.times "1", place⟩ :: closing n := (List.cons.inj hcut).2
    rw [List.cons_append, item]
    cases count with
    | none =>
      rcases concat_eq_cut hcut with ⟨-, ht⟩ | ⟨-, m, hmore⟩
      · cases congrArg Token.lexeme ht
      · rw [hstumbles row rest m (Nat.lt_succ_self _) hfits hrow hmore]
        rfl
    | some count =>
      rw [Option.map_some, Option.toList_some, ← List.singleton_append,
        ← List.append_assoc] at hcut
      rcases concat_eq_cut hcut with ⟨rfl, -⟩ | ⟨ht, -⟩
      · have hlength : row.tokens.length
            < ((⟨.groupOpen, opening⟩ : Token) ::
                (row.tokens ++ [⟨.groupClose, closed⟩])).length := by
          simp only [List.length_cons, List.length_append]
          omega
        rw [List.append_assoc, List.singleton_append, hinside row hlength hfits hrow _ rfl]
        simp only [bind, Except.bind, row.isEmpty_items, Bool.false_eq_true, if_false,
          multiplier_of_unreadable hdigits]
      · cases congrArg Token.lexeme ht

/-- Tokens up to the count of a row begin an item. -/
theorem hasOperand_of_cut {row : Row}
    (hcut : row.tokens = before ++ ⟨.times "1", place⟩ :: closing n) (rest : Tokens) :
    hasOperand (before ++ rest) = true := by
  obtain ⟨t, more, htokens, ht⟩ := head_row row
  obtain ⟨front, rfl⟩ := exists_head_of_cut htokens ht hcut
  have hrow := hasOperand_row row []
  rwa [htokens] at hrow

/-- A row that ends in a count is read up to the count. -/
theorem statements_stumbles (hdigits : Unreadable digits) {fuel level : Nat} {row : Row}
    (hfuel : before.length < fuel) (hfits : row.Fits) (h : ∀ t ∈ row.tokens, t.Legible)
    (hcut : row.tokens = before ++ ⟨.times "1", place⟩ :: closing n) :
    statements stop fuel level (before ++ ⟨.times digits, place⟩ :: after)
      = .error (.unreadableCount digits) := by
  induction fuel generalizing level row before n with
  | zero => cases hfuel
  | succ fuel ih =>
    have hfuel := Nat.le_of_lt_succ hfuel
    have hinside : ∀ row : Row, row.tokens.length < fuel → row.Fits →
        (∀ t ∈ row.tokens, t.Legible) → ∀ rest, atEnd rest = true →
          statements stop fuel 0 (row.tokens ++ rest) = .ok (row.items 0, rest) :=
      fun row hlt hfits h rest hend ↦ statements_tokens stop hlt hfits h hend
    rw [statements, atEnd_of_hasOperand (hasOperand_of_cut hcut _), if_neg Bool.false_ne_true]
    cases row with
    | last i =>
      rw [item_stumbles hdigits hfits h
        (fun row hlt ↦ hinside row (Nat.lt_of_lt_of_le hlt hfuel))
        (fun row more m hlt hfits h hmore ↦ ih (Nat.lt_of_lt_of_le hlt hfuel) hfits h hmore) hcut]
      rfl
    | more i op row =>
      -- The first item is in order and read as it is; the count is in what follows.
      obtain ⟨hi, hop, hrow⟩ := hfits
      obtain ⟨hilegible, hmore⟩ := List.forall_mem_append.1 h
      obtain ⟨front, rfl, hrest⟩ := exists_of_row_cut hcut
      have hpos := length_op_pos op
      simp only [List.length_append] at hfuel
      have hitem := item_tokens stop (fun row hlt ↦ hinside row (by omega)) hi hilegible
        (stops_op op (front ++ ⟨.times digits, place⟩ :: after))
      have hoperand := hasOperand_of_cut hrest (⟨.times digits, place⟩ :: after)
      have hafter : statements stop fuel (op.next level) (front ++ ⟨.times digits, place⟩ :: after)
          = .error (.unreadableCount digits) :=
        ih (by omega) hrow (List.forall_mem_append.1 hmore).2 hrest
      rw [List.append_assoc, List.append_assoc, hitem]
      simp only [bind, Except.bind, atEnd_op, Bool.false_eq_true, if_false,
        operator_tokens hoperand hop, hoperand, if_true, hafter]

/-- **The reader fails with a count exactly when it comes to one without a value.** -/
theorem ofTokens_eq_unreadable_iff {tokens : Tokens} :
    ofTokens stop tokens = .error (.unreadableCount digits) ↔ Stumbles tokens digits := by
  constructor
  · intro h
    rcases ofTokens_blames h with h | ⟨hdigits, cut, ⟨row, rfl, hfits, hlegible⟩, hcut⟩
    · cases h
    · exact ⟨hdigits, row, hfits, hlegible, hcut⟩
  · rintro ⟨hdigits, row, hfits, hlegible, before, place, after, n, rfl, hcut⟩
    have hlength : before.length < (before ++ ⟨.times digits, place⟩ :: after).length + 1 := by
      rw [List.length_append]
      omega
    have hs : statements stop ((before ++ ⟨.times digits, place⟩ :: after).length + 1) 0
        (before ++ ⟨.times digits, place⟩ :: after) = .error (.unreadableCount digits) :=
      statements_stumbles hdigits hlength hfits hlegible hcut
    have hne : (before ++ ⟨.times digits, place⟩ :: after).isEmpty = false := by simp
    rw [ofTokens, hne, if_neg Bool.false_ne_true, hs]
    rfl

/-- Where all counts are of decimal digits the reader stumbles at none. -/
theorem not_stumbles_of_decimal {tokens : Tokens}
    (h : ∀ digits place, ⟨.times digits, place⟩ ∈ tokens →
      ∀ c ∈ digits.toList, Text.isDecimal c = true)
    (digits : String) : ¬ Stumbles tokens digits := by
  rintro ⟨⟨c, hc, hdecimal⟩, _, _, _, before, place, after, n, rfl, -⟩
  rw [h digits place (by simp) c hc] at hdecimal
  cases hdecimal

end Shorthand.Markup.Tree
