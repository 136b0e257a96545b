import Shorthand.Proofs.Places
import Shorthand.Proofs.Reading

/-!
# What the reader blames

When a markup abbreviation cannot be read, the fault names a place, and that place is in the
abbreviation: a token begins there, or it lies within an attribute set, or it is the end.  One fault
names no place: a count with a digit that has no value.  Then everything before the count is in
order, in the sense that the tokens up to it, with the count read as 1 and the open groups closed,
are a row of the grammar.

* `Tree.Blames` : both of these, for a part of the reader that reads given spellings.
* `Tree.statements_blames` : what the reader of rows blames.
* `Tree.ofTokens_blames` : what the reader of abbreviations blames.
* `Tree.offset_le_of_parse` : the place of a refusal is in the text.
-/

set_option autoImplicit false

namespace Shorthand.Text

variable {α ε : Type}

/-- If a text cannot be cut, a piece of it cannot be read. -/
theorem exists_step_of_tileFrom {step : Nat → List Char → Except ε (List α × Nat)}
    {pos skip : Nat} {cs : List Char} {e : ε} (h : tileFrom step pos skip cs = .error e) :
    ∃ before rest, cs = before ++ rest ∧ step (pos + before.length) rest = .error e := by
  induction cs generalizing pos skip with
  | nil => simp at h
  | cons c cs ih =>
    have hlater : ∀ {pos' skip'}, pos' = pos + 1 → tileFrom step pos' skip' cs = .error e →
        ∃ before rest, c :: cs = before ++ rest ∧ step (pos + before.length) rest = .error e := by
      rintro _ skip' rfl h
      obtain ⟨before, rest, rfl, hstep⟩ := ih h
      refine ⟨c :: before, rest, rfl, ?_⟩
      rwa [List.length_cons, Nat.add_comm before.length, ← Nat.add_assoc]
    cases skip with
    | succ skip => exact hlater rfl h
    | zero =>
      rcases bind_eq_error_iff.1 h with h | ⟨⟨out, size⟩, -, h⟩
      · exact ⟨[], c :: cs, rfl, h⟩
      · rcases bind_eq_error_iff.1 h with h | ⟨_, -, h⟩
        · exact hlater rfl h
        · cases h

end Shorthand.Text

namespace Shorthand

/-- A fault that names a place from the first to the last of two. -/
def Fault.Within (first last : Nat) : Fault → Prop
  | .malformed _ place => first ≤ place ∧ place ≤ last
  | .unreadableCount _ => False

namespace Markup

open Source

/-! ## Attribute sets and tokens -/

namespace AttributeSet

variable {pos : Nat} {cs : List Char} {fault : Fault}

theorem within_of_valueChars (h : valueChars pos cs = .error fault) :
    fault.Within pos (pos + cs.length) := by
  unfold valueChars at h
  split at h
  · cases h
  next c cs =>
    split at h
    · cases h
    split at h
    · split at h
      · cases h
      · cases h
        exact ⟨Nat.le_succ_of_le (Nat.le_add_right pos _), Nat.le_refl _⟩
    · cases h

theorem within_of_step (h : step pos cs = .error fault) : fault.Within pos (pos + cs.length) := by
  unfold step at h
  split at h
  · cases h
  dsimp only at h
  split at h
  · cases h
    exact ⟨Nat.le_refl _, Nat.le_add_right pos _⟩
  split at h
  next rest hrest =>
    have hlength : (cs.takeWhile isNameChar).length + (rest.length + 1) = cs.length := by
      rw [← List.length_cons, ← hrest, ← List.length_append, List.takeWhile_append_dropWhile]
    rcases bind_eq_error_iff.1 h with h | ⟨_, -, h⟩
    · have hvalue := within_of_valueChars h
      cases fault with
      | unreadableCount => exact hvalue
      | malformed cause place =>
        simp only [Fault.Within] at hvalue ⊢
        omega
    · cases h
  · cases h

/-- An attribute set that cannot be read is blamed at a place in it. -/
theorem within_of_read {inner : String} (h : read pos inner = .error fault) :
    fault.Within pos (pos + inner.length) := by
  obtain ⟨before, rest, hinner, h⟩ := Text.exists_step_of_tileFrom h
  have hstep := within_of_step h
  rw [← String.length_toList, hinner, List.length_append]
  cases fault with
  | unreadableCount => exact hstep
  | malformed cause place =>
    simp only [Fault.Within] at hstep ⊢
    omega

end AttributeSet

/-- An abbreviation that cannot be cut into tokens is blamed at a place in it. -/
theorem Token.within_of_ofText {s : String} {fault : Fault} (h : ofText s = .error fault) :
    fault.Within 0 s.length := by
  obtain ⟨before, rest, hs, h⟩ := Text.exists_step_of_tileFrom h
  have hplace : 0 + before.length ≤ s.length := by
    rw [← String.length_toList, hs, List.length_append]
    omega
  unfold scan at h
  split at h
  · cases h
  split at h
  · cases h
  split at h
  · cases h
  split at h
  · split at h <;> cases h
    exact ⟨Nat.zero_le _, hplace⟩
  split at h
  · split at h <;> cases h
    exact ⟨Nat.zero_le _, hplace⟩
  split at h <;> cases h
  exact ⟨Nat.zero_le _, hplace⟩

/-- The places of a token: where it begins, and for an attribute set those inside it. -/
def Token.Covers (t : Token) (place : Nat) : Prop :=
  match t.lexeme with
  | .attributes inner => t.offset ≤ place ∧ place ≤ t.offset + inner.length + 1
  | _ => place = t.offset

theorem Token.covers_offset (t : Token) : t.Covers t.offset := by
  unfold Covers
  split
  · exact ⟨Nat.le_refl _, Nat.le_succ_of_le (Nat.le_add_right _ _)⟩
  · rfl

namespace Tree

variable {stop : Nat}

/-! ## Blame -/

/-- A place that the reader may name: one of a token, or where the abbreviation stops. -/
def Placed (stop : Nat) (tokens : Tokens) (place : Nat) : Prop :=
  place = stop ∨ ∃ t ∈ tokens, t.Covers place

theorem Placed.append {tokens : Tokens} {place : Nat} (h : Placed stop tokens place)
    (first : Tokens) : Placed stop (first ++ tokens) place :=
  h.imp_right fun ⟨t, ht, hplace⟩ ↦ ⟨t, List.mem_append_right first ht, hplace⟩

theorem placed_head (lexeme : Lexeme) (place : Nat) (rest : Tokens) :
    Placed stop (⟨lexeme, place⟩ :: rest) place :=
  .inr ⟨_, List.mem_cons_self, Token.covers_offset ⟨lexeme, place⟩⟩

theorem placed_here (tokens : Tokens) : Placed stop tokens (here stop tokens) := by
  cases tokens with
  | nil => exact .inl rfl
  | cons t rest => exact placed_head t.lexeme t.offset rest

/-- Digits that are not all decimal, so that they have no value. -/
def Unreadable (digits : String) : Prop := ∃ c ∈ digits.toList, Text.isDecimal c = false

/-- Closing parentheses. -/
def closing (n : Nat) : Tokens := List.replicate n ⟨.groupClose, 0⟩

/-- Tokens are cut off at a multiplier with given digits: the multiplier is read as 1, and the
groups that are open are closed. -/
def CutAt (digits : String) (tokens cut : Tokens) : Prop :=
  ∃ before place after n, tokens = before ++ ⟨.times digits, place⟩ :: after ∧
    cut = before ++ ⟨.times "1", place⟩ :: closing n

theorem CutAt.extend {digits : String} {tokens cut : Tokens} (h : CutAt digits tokens cut)
    (first : Tokens) (n : Nat) :
    CutAt digits (first ++ tokens) (first ++ (cut ++ closing n)) := by
  obtain ⟨before, place, after, m, rfl, rfl⟩ := h
  exact ⟨first ++ before, place, after, m + n, by simp, by simp [closing]⟩

/-- What a part of the reader that reads given spellings blames: a place, or digits where everything
before them is in order. -/
def Blames (stop : Nat) (tokens : Tokens) (spelled : Tokens → Prop) : Fault → Prop
  | .malformed _ place => Placed stop tokens place
  | .unreadableCount digits => Unreadable digits ∧ ∃ cut, spelled cut ∧ CutAt digits tokens cut

/-- A part of the reader blames what it runs as its own part. -/
theorem Blames.extend {tokens : Tokens} {inner outer : Tokens → Prop} {fault : Fault}
    (h : Blames stop tokens inner fault) (first : Tokens) (n : Nat)
    (hspelled : ∀ cut, inner cut → outer (first ++ (cut ++ closing n))) :
    Blames stop (first ++ tokens) outer fault := by
  cases fault with
  | malformed cause place => exact Placed.append h first
  | unreadableCount digits =>
    obtain ⟨hdigits, cut, hcut, htokens⟩ := h
    exact ⟨hdigits, _, hspelled cut hcut, htokens.extend first n⟩

/-- The same for a part that is run with no group open around it. -/
theorem Blames.extend_left {tokens : Tokens} {inner outer : Tokens → Prop} {fault : Fault}
    (h : Blames stop tokens inner fault) (first : Tokens)
    (hspelled : ∀ cut, inner cut → outer (first ++ cut)) :
    Blames stop (first ++ tokens) outer fault := by
  refine h.extend first 0 fun cut hcut ↦ ?_
  rw [closing, List.replicate_zero, List.append_nil]
  exact hspelled cut hcut

theorem Blames.mono {tokens : Tokens} {inner outer : Tokens → Prop} {fault : Fault}
    (h : Blames stop tokens inner fault) (hspelled : ∀ cut, inner cut → outer cut) :
    Blames stop tokens outer fault :=
  h.extend_left [] hspelled

/-! ## Elements -/

/-- Tokens of a derivation with readable parts. -/
def Spelled {α : Type} (spell : α → Tokens) (fits : α → Prop) (tokens : Tokens) : Prop :=
  ∃ a, tokens = spell a ∧ fits a ∧ ∀ t ∈ tokens, t.Legible

theorem legible_one (place : Nat) : (⟨.times "1", place⟩ : Token).Legible := ⟨0, rfl⟩

theorem unreadable_iff {digits : String} :
    Unreadable digits ↔ digits.isEmpty = false ∧ Text.numeral? digits.toList = none := by
  have hempty : digits.isEmpty = digits.toList.isEmpty := by
    rw [Bool.eq_iff_iff, String.isEmpty_iff, List.isEmpty_iff, String.toList_eq_nil_iff]
  rw [hempty, Unreadable, Text.numeral?]
  cases digits.toList with
  | nil => simp
  | cons c cs =>
    have hall : (∃ d ∈ c :: cs, Text.isDecimal d = false)
        ↔ (c :: cs).all Text.isDecimal = false := by
      simp only [List.all_eq_false, Bool.not_eq_true]
    rw [hall]
    cases (c :: cs).all Text.isDecimal <;> simp

/-- A multiplier that cannot be read is blamed where it stands, or for its digits. -/
theorem multiplier_blames {digits : String} {place : Nat} {fault : Fault}
    (h : multiplier digits place = .error fault) :
    (∃ cause, fault = .malformed cause place) ∨
      fault = .unreadableCount digits ∧ Unreadable digits := by
  unfold multiplier at h
  split at h
  · cases h
    exact .inl ⟨_, rfl⟩
  next hne =>
    split at h
    next hnone =>
      cases h
      exact .inr ⟨rfl, unreadable_iff.2 ⟨eq_false_of_ne_true hne, hnone⟩⟩
    · cases h
      exact .inl ⟨_, rfl⟩
    · cases h

theorem multiplier_of_unreadable {digits : String} (h : Unreadable digits) (place : Nat) :
    multiplier digits place = .error (.unreadableCount digits) := by
  obtain ⟨hne, hnone⟩ := unreadable_iff.1 h
  rw [multiplier, hne, hnone]
  rfl

/-- A part that ends with a multiplier blames it. -/
theorem blames_multiplier {spelled : Tokens → Prop} {after : Tokens} {digits : String}
    {place : Nat} {fault : Fault} (before : Tokens) (h : multiplier digits place = .error fault)
    (hspelled : spelled (before ++ [⟨.times "1", place⟩])) :
    Blames stop (before ++ ⟨.times digits, place⟩ :: after) spelled fault := by
  rcases multiplier_blames h with ⟨cause, rfl⟩ | ⟨rfl, hdigits⟩
  · exact (placed_head _ place after).append before
  · exact ⟨hdigits, _, hspelled, before, place, after, 0, rfl, rfl⟩

theorem modifiers_blames {e : Element} {tokens : Tokens} {fault : Fault}
    (h : modifiers stop e tokens = .error fault) : Blames stop tokens (fun _ ↦ False) fault := by
  fun_induction modifiers stop e tokens with
  | case1 e sign name place rest ih => exact (ih h).extend_left [_, _] fun _ ↦ id
  | case2 => cases h; exact (placed_here _).append [_]
  | case3 e sign name place rest ih => exact (ih h).extend_left [_, _] fun _ ↦ id
  | case4 => cases h; exact (placed_here _).append [_]
  | case5 e inner place rest ih =>
    rcases bind_eq_error_iff.1 h with h | ⟨attributes, -, h⟩
    · have hread := AttributeSet.within_of_read h
      cases fault with
      | unreadableCount => exact hread.elim
      | malformed cause at_ =>
        refine .inr ⟨_, List.mem_cons_self, ?_⟩
        simp only [Fault.Within] at hread
        simp only [Token.Covers]
        omega
    · exact (ih attributes h).extend_left [_] fun _ ↦ id
  | case6 e inner place rest ih => exact (ih h).extend_left [_] fun _ ↦ id
  | case7 => cases h

theorem mark_eq_error {e : Element} {times : Option Multiplier} {tokens : Tokens} {fault : Fault}
    (h : mark e times tokens = .error fault) :
    times = none ∧ ∃ digits place rest, tokens = ⟨.times digits, place⟩ :: rest ∧
      multiplier digits place = .error fault := by
  unfold mark at h
  split at h
  next digits place rest =>
    split at h
    next hnone =>
      rcases bind_eq_error_iff.1 h with h | ⟨m, -, h⟩
      · exact ⟨Option.isNone_iff_eq_none.1 hnone, digits, place, rest, rfl, h⟩
      · cases h
    · cases h
  · cases h
  · cases h

/-- Two marks blame a multiplier at the end of a tail. -/
theorem tail_blames {e : Element} {tokens : Tokens} {fault : Fault}
    (h : mark e none tokens = .error fault ∨ ∃ e₁ times₁ rest₁,
      mark e none tokens = .ok (e₁, times₁, rest₁) ∧ mark e₁ times₁ rest₁ = .error fault) :
    Blames stop tokens (Spelled Tail.tokens fun _ ↦ True) fault := by
  rcases h with h | ⟨e₁, times₁, rest₁, h₁, h₂⟩
  · obtain ⟨-, digits, place, rest, rfl, hm⟩ := mark_eq_error h
    exact blames_multiplier [] hm
      ⟨.times ⟨"1", place⟩, rfl, trivial, List.forall_mem_singleton.2 (legible_one place)⟩
  · obtain ⟨rfl, digits, place, rest, rfl, hm⟩ := mark_eq_error h₂
    unfold mark at h₁
    split at h₁
    · obtain ⟨m, -, h₁⟩ := bind_eq_ok_iff.1 h₁
      cases h₁
    next at_ rest' =>
      cases h₁
      exact blames_multiplier [⟨.close, at_⟩] hm ⟨.closeTimes at_ ⟨"1", place⟩, rfl,
        trivial, List.forall_mem_cons.2 ⟨trivial, List.forall_mem_singleton.2 (legible_one place)⟩⟩
    next hother _ =>
      cases h₁
      exact absurd rfl (hother _ _ _)

theorem finish_blames {e : Element} {tokens : Tokens} {fault : Fault}
    (h : finish stop e tokens = .error fault) :
    Blames stop tokens (Spelled (fun p : List Modifier × Tail ↦
        p.1.flatMap Modifier.tokens ++ p.2.tokens) fun p ↦
      p.1 = [] → ∀ t ∈ tokens.head?, opensModifier t.lexeme = false) fault := by
  rcases bind_eq_error_iff.1 h with h | ⟨⟨e₁, rest₁⟩, h₁, h⟩
  · exact (modifiers_blames h).mono fun _ ↦ False.elim
  obtain ⟨ms, htokens, rfl, hms, hrest⟩ := exists_modifiers h₁
  have htail : Blames stop rest₁ (Spelled Tail.tokens fun _ ↦ True) fault := by
    rcases bind_eq_error_iff.1 h with h | ⟨⟨e₂, times₂, rest₂⟩, h₂, h⟩
    · exact tail_blames (.inl h)
    · rcases bind_eq_error_iff.1 h with h | ⟨_, -, h⟩
      · exact tail_blames (.inr ⟨e₂, times₂, rest₂, h₂, h⟩)
      · cases h
  have hnone : ms = [] → ∀ t ∈ tokens.head?, opensModifier t.lexeme = false := by
    rintro rfl
    rwa [htokens]
  rw [htokens] at hnone ⊢
  refine htail.extend_left (ms.flatMap Modifier.tokens) ?_
  rintro _ ⟨tail, rfl, -, hlegible⟩
  exact ⟨(ms, tail), rfl, hnone, List.forall_mem_append.2 ⟨hms, hlegible⟩⟩

theorem element_blames {tokens : Tokens} {fault : Fault}
    (h : element stop tokens = .error fault) :
    Blames stop tokens (Spelled Phrase.tokens fun _ ↦ True) fault := by
  unfold element at h
  split at h
  · cases h
    exact .inl rfl
  next name place rest =>
    refine (finish_blames h).extend_left [_] ?_
    rintro _ ⟨⟨ms, tail⟩, rfl, -, hlegible⟩
    exact ⟨.named name place ms tail, rfl, trivial, List.forall_mem_cons.2 ⟨trivial, hlegible⟩⟩
  next lexeme place rest hname =>
    split at h
    next hstarts =>
      have hopen := opensModifier_of_startsElement hstarts hname
      refine (finish_blames h).mono ?_
      rintro _ ⟨⟨ms, tail⟩, rfl, hnone, hlegible⟩
      cases ms with
      | nil =>
        have := hnone rfl ⟨lexeme, place⟩ rfl
        rw [hopen] at this
        cases this
      | cons first others =>
        exact ⟨.nameless first others tail, by simp [Phrase.tokens], trivial, hlegible⟩
    · cases h
      exact placed_head _ _ _

/-! ## Rows -/

theorem item_blames {inside : Tokens → Except Fault (List (Nat × Node) × Tokens)}
    (hfails : ∀ tokens fault, inside tokens = .error fault →
      Blames stop tokens (Spelled Row.tokens Row.Fits) fault)
    (hinside : ∀ tokens items rest, inside tokens = .ok (items, rest) → items ≠ [] →
      IsRow 0 tokens items rest)
    {tokens : Tokens} {fault : Fault} (h : item stop inside tokens = .error fault) :
    Blames stop tokens (Spelled Item.tokens Item.Fits) fault := by
  unfold item at h
  split at h
  next opening more =>
    rcases bind_eq_error_iff.1 h with h | ⟨⟨items, rest⟩, h₁, h⟩
    · -- What is blamed stands inside the group, so the group is one of those that are open.
      refine (hfails _ _ h).extend [_] 1 ?_
      rintro _ ⟨row, rfl, hfits, hlegible⟩
      exact ⟨.group opening row 0 none, rfl, hfits, List.forall_mem_append.2
        ⟨List.forall_mem_singleton.2 trivial, List.forall_mem_append.2
          ⟨hlegible, List.forall_mem_singleton.2 trivial⟩⟩⟩
    · dsimp only at h
      split at h
      next closing rest₂ =>
        split at h
        · cases h
          exact placed_head _ _ _
        next hne =>
          obtain ⟨row, rfl, rfl, hfits, hlegible⟩ := hinside _ _ _ h₁ (by simpa using hne)
          split at h
          next _ digits place rest₃ _ =>
            rcases bind_eq_error_iff.1 h with h | ⟨_, -, h⟩
            · have htokens : (⟨.groupOpen, opening⟩ : Token) ::
                    (row.tokens ++ ⟨.groupClose, closing⟩ :: ⟨.times digits, place⟩ :: rest₃)
                  = (⟨.groupOpen, opening⟩ :: (row.tokens ++ [⟨.groupClose, closing⟩])) ++
                      ⟨.times digits, place⟩ :: rest₃ := by
                simp
              rw [htokens]
              refine blames_multiplier _ h ⟨.group opening row closing (some ⟨"1", place⟩),
                by simp [Item.tokens, Count.token], hfits, ?_⟩
              rw [List.cons_append, List.append_assoc]
              refine List.forall_mem_cons.2 ⟨trivial, List.forall_mem_append.2 ⟨hlegible, ?_⟩⟩
              exact List.forall_mem_cons.2
                ⟨trivial, List.forall_mem_singleton.2 (legible_one place)⟩
            · cases h
          next => cases h
      · cases h
        exact placed_head _ _ _
  next lexeme place more _ =>
    split at h
    · cases h
      exact placed_head _ _ _
    · refine (element_blames h).mono ?_
      rintro _ ⟨phrase, rfl, -, hlegible⟩
      exact ⟨.element phrase, rfl, trivial, hlegible⟩
  · cases h
    exact .inl rfl

theorem operator_blames (stop : Nat) {node : Node} {level : Nat} {tokens : Tokens} {fault : Fault}
    (h : operator node level tokens = .error fault) :
    ∃ cause place, fault = .malformed cause place ∧ Placed stop tokens place := by
  unfold operator at h
  split at h
  · split at h <;> cases h
    exact ⟨_, _, rfl, placed_head _ _ _⟩
  · cases h
  · cases h
  · cases h
    exact ⟨_, _, rfl, placed_head _ _ _⟩
  · cases h

/-- What the reader of rows blames. -/
theorem statements_blames {fuel level : Nat} {tokens : Tokens} {fault : Fault}
    (h : statements stop fuel level tokens = .error fault) :
    Blames stop tokens (Spelled Row.tokens Row.Fits) fault := by
  induction fuel generalizing level tokens fault with
  | zero =>
    cases h
    exact placed_here tokens
  | succ fuel ih =>
    have hinside : ∀ tokens items rest, statements stop fuel 0 tokens = .ok (items, rest) →
        items ≠ [] → IsRow 0 tokens items rest := fun tokens items rest h hne ↦
      exists_row_of_statements h
        (eq_false_of_ne_true fun hend ↦ hne (statements_atEnd hend h).1)
    rw [statements] at h
    split at h
    · cases h
    rcases bind_eq_error_iff.1 h with h | ⟨⟨node, rest⟩, h₁, h⟩
    · refine (item_blames (fun _ _ h ↦ ih h) hinside h).mono ?_
      rintro _ ⟨i, rfl, hfits, hlegible⟩
      exact ⟨.last i, rfl, hfits, hlegible⟩
    obtain ⟨i, rfl, rfl, hfits, hlegible⟩ := exists_item hinside h₁
    dsimp only at h
    split at h
    · cases h
    next hend =>
      rcases bind_eq_error_iff.1 h with h | ⟨⟨next, after⟩, h₂, h⟩
      · obtain ⟨cause, place, rfl, hplace⟩ := operator_blames stop h
        exact hplace.append i.tokens
      obtain ⟨op, rfl, rfl, hop⟩ := exists_op (eq_false_of_ne_true hend) h₂
      dsimp only at h
      split at h
      · rcases bind_eq_error_iff.1 h with h | ⟨_, -, h⟩
        · rw [← List.append_assoc]
          refine (ih h).extend_left (i.tokens ++ op.tokens) ?_
          rintro _ ⟨row, rfl, hrow, hmore⟩
          rw [List.append_assoc]
          exact ⟨.more i op row, rfl, ⟨hfits, hop, hrow⟩, List.forall_mem_append.2
            ⟨hlegible, List.forall_mem_append.2 ⟨legible_op op, hmore⟩⟩⟩
        · cases h
      · cases h
        exact (placed_here _).append i.tokens

/-- What the reader of abbreviations blames; that there is nothing at all is blamed on the
beginning. -/
theorem ofTokens_blames {tokens : Tokens} {fault : Fault}
    (h : ofTokens stop tokens = .error fault) :
    fault = .malformed .emptyAbbreviation 0 ∨
      Blames stop tokens (Spelled Row.tokens Row.Fits) fault := by
  unfold ofTokens at h
  split at h
  · cases h
    exact .inl rfl
  next hne =>
    refine .inr ?_
    rcases bind_eq_error_iff.1 h with h | ⟨⟨items, rest⟩, hs, h⟩
    · exact statements_blames h
    · cases rest with
      | nil => cases h
      | cons token rest =>
        cases h
        -- Tokens are left over behind a row, or there is no row at all.
        have hstart : atEnd tokens = false ∨ tokens = token :: rest := by
          cases hend : atEnd tokens with
          | false => exact .inl rfl
          | true => exact .inr (statements_atEnd hend hs).2.symm
        rcases hstart with hstart | rfl
        · obtain ⟨row, rfl, -⟩ := exists_row_of_statements hs hstart
          exact (placed_here (token :: rest)).append row.tokens
        · exact placed_here (token :: rest)

/-! ## Places in the text -/

/-- The places of the tokens of a text are in it. -/
theorem le_of_placed {s : String} {tokens : Tokens} (h : Token.ofText s = .ok tokens) {place : Nat}
    (hplace : Placed s.length tokens place) : place ≤ s.length := by
  rcases hplace with rfl | ⟨⟨lexeme, offset⟩, ht, hcovers⟩
  · exact Nat.le_refl _
  · have hlt := Token.lt_of_ofText h ht
    unfold Token.Covers at hcovers
    dsimp only at hcovers hlt
    split at hcovers
    · have := Token.attributes_le_of_ofText h ht
      omega
    · omega

/-- **A refusal names a place in the text that was read.** -/
theorem offset_le_of_parse {s : String} {e : ParseError} (h : parse s = .error (.malformed e)) :
    e.abbreviation = s ∧ e.offset ≤ s.length := by
  obtain ⟨fault, hread, hfault⟩ := located_eq_error_iff.1 h
  cases fault with
  | unreadableCount => cases hfault
  | malformed cause place =>
    cases hfault
    refine ⟨rfl, ?_⟩
    rcases bind_eq_error_iff.1 hread with h | ⟨tokens, htokens, h⟩
    · exact (Token.within_of_ofText h).2
    · rcases ofTokens_blames h with h | h
      · cases h
        exact Nat.zero_le _
      · exact le_of_placed htokens h

end Tree

end Markup

end Shorthand
