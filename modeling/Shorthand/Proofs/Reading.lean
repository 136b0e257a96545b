import Shorthand.Proofs.Source
import Shorthand.Proofs.Spelling

/-!
# What the reader accepts

The reader of a markup abbreviation accepts exactly what its grammar derives.  One direction goes
along a run of the reader: what it has passed over is a derivation, and what it returns is the
meaning of this derivation.  The other goes along a derivation: the reader takes each part of it for
what it is, whatever follows, as long as what follows does not carry the part on.

Two things are asked of the tokens besides: attribute sets that can be read, and multipliers that
are positive numbers (`Token.Legible`).

* `Tree.exists_row_of_statements` : what the reader has passed over is a row.
* `Tree.statements_tokens` : a row is read as what it is.
* `Tree.ofTokens_eq_ok_iff` : the two together.
-/

set_option autoImplicit false

namespace Shorthand.Markup

open Source

/-- An attribute set that can be read, a multiplier that is a positive number, or another token. -/
def Token.Legible (token : Token) : Prop :=
  match token.lexeme with
  | .attributes inner => ∃ attributes, AttributeSet.read (token.offset + 1) inner = .ok attributes
  | .times digits => ∃ n, Text.numeral? digits.toList = some (n + 1)
  | _ => True

namespace Tree

variable {stop : Nat}

/-! ## Multipliers -/

theorem multiplier_of_positive {digits : String} {n : Nat}
    (h : Text.numeral? digits.toList = some (n + 1)) (place : Nat) :
    multiplier digits place = .ok (Count.multiplier ⟨digits, place⟩) := by
  have hne : digits.isEmpty = false := by
    rw [← Bool.not_eq_true, String.isEmpty_iff]
    rintro rfl
    simp [Text.numeral?] at h
  have hn : Text.numeral digits.toList = n + 1 := by
    unfold Text.numeral? at h
    split at h
    · exact Option.some.inj h
    · cases h
  rw [multiplier, hne, h, Count.multiplier, hn]
  rfl

/-- Only positive numbers are read as multipliers. -/
theorem positive_of_multiplier {digits : String} {place : Nat} {m : Multiplier}
    (h : multiplier digits place = .ok m) :
    ∃ n, Text.numeral? digits.toList = some (n + 1) := by
  unfold multiplier at h
  split at h
  · cases h
  · split at h
    · cases h
    · cases h
    next count hzero hcount =>
      obtain ⟨n, rfl⟩ : ∃ n, count = n + 1 :=
        ⟨count - 1, (Nat.succ_pred_eq_of_ne_zero fun h0 ↦ hzero h0).symm⟩
      exact ⟨n, hcount⟩

/-- A multiplier that is read is what its digits say. -/
theorem multiplier_eq_ok {digits : String} {place : Nat} {m : Multiplier}
    (h : multiplier digits place = .ok m) :
    (Count.token ⟨digits, place⟩).Legible ∧ m = Count.multiplier ⟨digits, place⟩ := by
  obtain ⟨n, hn⟩ := positive_of_multiplier h
  rw [multiplier_of_positive hn] at h
  exact ⟨⟨n, hn⟩, (Except.ok.inj h).symm⟩

/-! ## Elements, from a run to a derivation -/

/-- A token that begins a modifier. -/
def opensModifier : Lexeme → Bool
  | .hash | .dot | .attributes _ | .text _ => true
  | _ => false

/-- What begins an element is its name or a modifier. -/
theorem opensModifier_of_startsElement {lexeme : Lexeme} (h : startsElement lexeme = true)
    (hname : ∀ name, lexeme ≠ .literal name) : opensModifier lexeme = true := by
  cases lexeme with
  | literal name => exact absurd rfl (hname name)
  | hash | dot | attributes | text => rfl
  | _ => cases h

theorem exists_modifiers {e e' : Element} {tokens rest : Tokens}
    (h : modifiers stop e tokens = .ok (e', rest)) :
    ∃ ms : List Modifier, tokens = ms.flatMap Modifier.tokens ++ rest ∧
      e' = ms.foldl Modifier.addTo e ∧ (∀ t ∈ ms.flatMap Modifier.tokens, t.Legible) ∧
      ∀ t ∈ rest.head?, opensModifier t.lexeme = false := by
  fun_induction modifiers stop e tokens with
  | case1 e sign name place rest' ih =>
    obtain ⟨ms, rfl, rfl, hms, hrest⟩ := ih h
    exact ⟨.id name sign place :: ms, rfl, rfl,
      List.forall_mem_cons.2 ⟨trivial, List.forall_mem_cons.2 ⟨trivial, hms⟩⟩, hrest⟩
  | case2 => cases h
  | case3 e sign name place rest' ih =>
    obtain ⟨ms, rfl, rfl, hms, hrest⟩ := ih h
    exact ⟨.className name sign place :: ms, rfl, rfl,
      List.forall_mem_cons.2 ⟨trivial, List.forall_mem_cons.2 ⟨trivial, hms⟩⟩, hrest⟩
  | case4 => cases h
  | case5 e inner place rest' ih =>
    obtain ⟨attributes, hread, h⟩ := bind_eq_ok_iff.1 h
    obtain ⟨ms, rfl, rfl, hms, hrest⟩ := ih attributes h
    refine ⟨.attributes inner place :: ms, rfl, ?_,
      List.forall_mem_cons.2 ⟨⟨attributes, hread⟩, hms⟩, hrest⟩
    rw [List.foldl_cons, Modifier.addTo, attributesAt, hread]
  | case6 e inner place rest' ih =>
    obtain ⟨ms, rfl, rfl, hms, hrest⟩ := ih h
    exact ⟨.text inner place :: ms, rfl, rfl, List.forall_mem_cons.2 ⟨trivial, hms⟩, hrest⟩
  | case7 e tokens h₁ h₂ h₃ h₄ h₅ h₆ =>
    -- The reader stops, so the next token is none of the four that begin a modifier.
    cases h
    refine ⟨[], rfl, rfl, by simp, fun t ht ↦ ?_⟩
    obtain ⟨lexeme, place⟩ := t
    obtain ⟨more, rfl⟩ : ∃ more, rest = ⟨lexeme, place⟩ :: more := List.head?_eq_some_iff.1 ht
    cases lexeme with
    | hash => exact (h₂ _ _ rfl).elim
    | dot => exact (h₄ _ _ rfl).elim
    | attributes inner => exact (h₅ _ _ _ rfl).elim
    | text inner => exact (h₆ _ _ _ rfl).elim
    | _ => rfl

/-- Two marks after the modifiers are a tail. -/
theorem exists_tail {e e₁ e₂ : Element} {times₁ times₂ : Option Multiplier}
    {tokens rest₁ rest₂ : Tokens} (h₁ : mark e none tokens = .ok (e₁, times₁, rest₁))
    (h₂ : mark e₁ times₁ rest₁ = .ok (e₂, times₂, rest₂)) :
    ∃ tail : Tail, tokens = tail.tokens ++ rest₂ ∧ e₂ = tail.addTo e ∧ times₂ = tail.times? ∧
      ∀ t ∈ tail.tokens, t.Legible := by
  unfold mark at h₁
  split at h₁
  next digits place rest =>
    obtain ⟨m, hm, h₁⟩ := bind_eq_ok_iff.1 h₁
    cases h₁
    obtain ⟨hlegible, rfl⟩ := multiplier_eq_ok hm
    unfold mark at h₂
    split at h₂
    · cases h₂
      exact ⟨.times ⟨digits, place⟩, rfl, rfl, rfl, by simpa [Tail.tokens] using hlegible⟩
    next at_ rest =>
      cases h₂
      refine ⟨.timesClose ⟨digits, place⟩ at_, rfl, rfl, rfl, ?_⟩
      exact List.forall_mem_cons.2 ⟨hlegible, by simp [Token.Legible]⟩
    · cases h₂
      exact ⟨.times ⟨digits, place⟩, rfl, rfl, rfl, by simpa [Tail.tokens] using hlegible⟩
  next place rest =>
    cases h₁
    unfold mark at h₂
    split at h₂
    next digits at_ rest =>
      obtain ⟨m, hm, h₂⟩ := bind_eq_ok_iff.1 h₂
      cases h₂
      obtain ⟨hlegible, rfl⟩ := multiplier_eq_ok hm
      refine ⟨.closeTimes place ⟨digits, at_⟩, rfl, rfl, rfl, ?_⟩
      exact List.forall_mem_cons.2 ⟨trivial, by simpa using hlegible⟩
    next at_ rest =>
      cases h₂
      exact ⟨.closeClose place at_, rfl, rfl, rfl, by simp [Tail.tokens, Token.Legible]⟩
    · cases h₂
      exact ⟨.close place, rfl, rfl, rfl, by simp [Tail.tokens, Token.Legible]⟩
  next h₃ h₄ =>
    cases h₁
    unfold mark at h₂
    split at h₂
    · exact absurd rfl (h₃ _ _ _)
    · exact absurd rfl (h₄ _ _)
    · cases h₂
      exact ⟨.empty, rfl, rfl, rfl, by simp [Tail.tokens]⟩

theorem exists_finish {e : Element} {node : Node} {tokens rest : Tokens}
    (h : finish stop e tokens = .ok (node, rest)) :
    ∃ (ms : List Modifier) (tail : Tail),
      tokens = ms.flatMap Modifier.tokens ++ tail.tokens ++ rest ∧ node = nodeFrom e ms tail ∧
        (∀ t ∈ ms.flatMap Modifier.tokens ++ tail.tokens, t.Legible) ∧
        (ms = [] → ∀ t ∈ tokens.head?, opensModifier t.lexeme = false) := by
  obtain ⟨⟨e₁, rest₁⟩, h₁, h⟩ := bind_eq_ok_iff.1 h
  obtain ⟨⟨e₂, times₂, rest₂⟩, h₂, h⟩ := bind_eq_ok_iff.1 h
  obtain ⟨⟨e₃, times₃, rest₃⟩, h₃, h⟩ := bind_eq_ok_iff.1 h
  cases h
  obtain ⟨ms, rfl, rfl, hms, hrest⟩ := exists_modifiers h₁
  obtain ⟨tail, rfl, rfl, rfl, htail⟩ := exists_tail h₂ h₃
  refine ⟨ms, tail, by simp, rfl, List.forall_mem_append.2 ⟨hms, htail⟩, ?_⟩
  rintro rfl
  exact hrest

theorem exists_phrase {node : Node} {tokens rest : Tokens}
    (h : element stop tokens = .ok (node, rest)) :
    ∃ phrase : Phrase, tokens = phrase.tokens ++ rest ∧ node = phrase.node ∧
      ∀ t ∈ phrase.tokens, t.Legible := by
  unfold element at h
  split at h
  · cases h
  next name place more =>
    obtain ⟨ms, tail, rfl, rfl, hlegible, -⟩ := exists_finish h
    exact ⟨.named name place ms tail, rfl, rfl, List.forall_mem_cons.2 ⟨trivial, hlegible⟩⟩
  next lexeme place more hname =>
    split at h
    next hstarts =>
      obtain ⟨ms, tail, htokens, rfl, hlegible, hopens⟩ := exists_finish h
      have hopen := opensModifier_of_startsElement hstarts hname
      cases ms with
      | nil =>
        have := hopens rfl ⟨lexeme, place⟩ rfl
        rw [hopen] at this
        cases this
      | cons first others =>
        refine ⟨.nameless first others tail, ?_, ?_, ?_⟩
        · rw [htokens]
          simp [Phrase.tokens]
        · have hplace : place = first.start := by
            cases first <;> exact congrArg Token.offset (List.cons.inj htokens).1
          rw [hplace]
          rfl
        · simpa [Phrase.tokens] using hlegible
    · cases h

/-! ## Rows, from a run to a derivation -/

theorem exists_climbs (tokens : Tokens) :
    ∃ places : List Nat, tokens = (places.map fun place ↦ ⟨.climb, place⟩) ++ (climbs tokens).2 ∧
      (climbs tokens).1 = places.length := by
  fun_induction climbs tokens with
  | case1 place rest count rest' hc ih =>
    obtain ⟨places, hrest, hcount⟩ := ih
    rw [hc] at hrest hcount
    exact ⟨place :: places, by rw [List.map_cons, List.cons_append, ← hrest], by simp [← hcount]⟩
  | case2 => exact ⟨[], rfl, rfl⟩

theorem exists_op {item : Item} {level next : Nat} {tokens rest : Tokens}
    (hend : atEnd tokens = false) (h : operator item.node level tokens = .ok (next, rest)) :
    ∃ op : Op, tokens = op.tokens ++ rest ∧ next = op.next level ∧ op.Fits item := by
  unfold operator at h
  split at h
  next place rest' =>
    split at h
    · cases h
    next htext =>
      cases h
      exact ⟨.child place, rfl, rfl, eq_false_of_ne_true htext⟩
  next place rest' =>
    cases h
    exact ⟨.sibling place, rfl, rfl, trivial⟩
  next place rest' =>
    obtain ⟨places, hrest, hcount⟩ := exists_climbs rest'
    cases h
    exact ⟨.climb place places, congrArg (_ :: ·) hrest, by rw [hcount]; rfl, trivial⟩
  · cases h
  · cases hend

theorem legible_op (op : Op) : ∀ t ∈ op.tokens, t.Legible := by
  cases op <;> simp [Op.tokens, Token.Legible]

/-- A run of the reader of rows, with what it has passed over. -/
def IsRow (level : Nat) (tokens : Tokens) (items : List (Nat × Node)) (rest : Tokens) : Prop :=
  ∃ row : Row, tokens = row.tokens ++ rest ∧ items = row.items level ∧ row.Fits ∧
    ∀ t ∈ row.tokens, t.Legible

theorem exists_item {inside : Tokens → Except Fault (List (Nat × Node) × Tokens)}
    (hinside : ∀ tokens items rest, inside tokens = .ok (items, rest) → items ≠ [] →
      IsRow 0 tokens items rest)
    {node : Node} {tokens rest : Tokens} (h : item stop inside tokens = .ok (node, rest)) :
    ∃ i : Item, tokens = i.tokens ++ rest ∧ node = i.node ∧ i.Fits ∧ ∀ t ∈ i.tokens, t.Legible := by
  unfold item at h
  split at h
  next opening more =>
    obtain ⟨⟨items, rest₁⟩, h₁, h⟩ := bind_eq_ok_iff.1 h
    dsimp only at h
    split at h
    next closing rest₂ =>
      split at h
      · cases h
      next hne =>
        obtain ⟨row, rfl, rfl, hfits, hlegible⟩ := hinside _ _ _ h₁ (by simpa using hne)
        have hnest := nest_eq_hang (Row.steady hfits)
        split at h
        next _ digits place _ _ =>
          obtain ⟨m, hm, h⟩ := bind_eq_ok_iff.1 h
          cases h
          obtain ⟨hcount, rfl⟩ := multiplier_eq_ok hm
          refine ⟨.group opening row closing (some ⟨digits, place⟩), ?_, ?_, hfits, ?_⟩
          · simp [Item.tokens, Count.token]
          · rw [Item.node, hnest]
            rfl
          · refine List.forall_mem_cons.2 ⟨trivial, List.forall_mem_append.2 ⟨hlegible, ?_⟩⟩
            exact List.forall_mem_cons.2 ⟨trivial, by simpa using hcount⟩
        next =>
          cases h
          refine ⟨.group opening row closing none, ?_, ?_, hfits, ?_⟩
          · simp [Item.tokens]
          · rw [Item.node, hnest]
            rfl
          · refine List.forall_mem_cons.2 ⟨trivial, List.forall_mem_append.2 ⟨hlegible, ?_⟩⟩
            exact List.forall_mem_cons.2 ⟨trivial, by simp⟩
    · cases h
  next lexeme place more hopen =>
    split at h
    · cases h
    · obtain ⟨phrase, htokens, rfl, hlegible⟩ := exists_phrase h
      exact ⟨.element phrase, htokens, rfl, trivial, hlegible⟩
  · cases h

/-- Where a row ends there are no items. -/
theorem statements_atEnd {fuel level : Nat} {items : List (Nat × Node)} {tokens rest : Tokens}
    (hend : atEnd tokens = true) (h : statements stop fuel level tokens = .ok (items, rest)) :
    items = [] ∧ rest = tokens := by
  cases fuel with
  | zero => cases h
  | succ fuel =>
    rw [statements, if_pos hend] at h
    cases h
    exact ⟨rfl, rfl⟩

theorem atEnd_of_hasOperand {tokens : Tokens} (h : hasOperand tokens = true) :
    atEnd tokens = false := by
  unfold atEnd
  split
  · cases h
  · simp [hasOperand] at h
  · rfl

/-- What the reader has passed over is a row, and the row ends there. -/
theorem exists_row_of_statements {fuel level : Nat} {items : List (Nat × Node)}
    {tokens rest : Tokens} (h : statements stop fuel level tokens = .ok (items, rest))
    (hstart : atEnd tokens = false) : IsRow level tokens items rest := by
  induction fuel generalizing level items tokens rest with
  | zero => cases h
  | succ fuel ih =>
    have hinside : ∀ tokens items rest, statements stop fuel 0 tokens = .ok (items, rest) →
        items ≠ [] → IsRow 0 tokens items rest := fun tokens items rest h hne ↦
      ih h (eq_false_of_ne_true fun hend ↦ hne (statements_atEnd hend h).1)
    rw [statements, hstart, if_neg Bool.false_ne_true] at h
    obtain ⟨⟨node, rest₁⟩, h₁, h⟩ := bind_eq_ok_iff.1 h
    obtain ⟨i, rfl, rfl, hfits, hlegible⟩ := exists_item hinside h₁
    dsimp only at h
    split at h
    · cases h
      exact ⟨.last i, rfl, rfl, hfits, hlegible⟩
    next hend =>
      obtain ⟨⟨next, after⟩, h₂, h⟩ := bind_eq_ok_iff.1 h
      obtain ⟨op, rfl, rfl, hop⟩ := exists_op (eq_false_of_ne_true hend) h₂
      dsimp only at h
      split at h
      next hoperand =>
        obtain ⟨⟨items₃, rest₃⟩, h₃, h⟩ := bind_eq_ok_iff.1 h
        cases h
        obtain ⟨row, rfl, rfl, hrow, hmore⟩ := ih h₃ (atEnd_of_hasOperand hoperand)
        refine ⟨.more i op row, by simp [Row.tokens], rfl, ⟨hfits, hop, hrow⟩, ?_⟩
        exact List.forall_mem_append.2 ⟨hlegible, List.forall_mem_append.2 ⟨legible_op op, hmore⟩⟩
      · cases h

/-! ## From a derivation to a run -/

/-- A token that carries no element or group on. -/
def closesItem : Lexeme → Bool
  | .groupClose | .child | .sibling | .climb => true
  | _ => false

/-- No element or group is carried on by what follows. -/
def Stops (rest : Tokens) : Prop := ∀ t ∈ rest.head?, closesItem t.lexeme = true

theorem stops_of_atEnd {rest : Tokens} (h : atEnd rest = true) : Stops rest := by
  unfold atEnd at h
  split at h
  · simp [Stops]
  · simp [Stops, closesItem]
  · cases h

theorem stops_op (op : Op) (rest : Tokens) : Stops (op.tokens ++ rest) := by
  cases op <;> simp [Stops, Op.tokens, closesItem]

theorem modifiers_stops {rest : Tokens} (h : ∀ t ∈ rest.head?, opensModifier t.lexeme = false)
    (e : Element) : modifiers stop e rest = .ok (e, rest) := by
  cases rest with
  | nil => rfl
  | cons token rest =>
    obtain ⟨lexeme, place⟩ := token
    have := h ⟨lexeme, place⟩ rfl
    cases lexeme with
    | hash | dot | attributes | text => cases this
    | _ => rfl

theorem modifiers_tokens {rest : Tokens} (hrest : ∀ t ∈ rest.head?, opensModifier t.lexeme = false)
    {ms : List Modifier} (h : ∀ t ∈ ms.flatMap Modifier.tokens, t.Legible) (e : Element) :
    modifiers stop e (ms.flatMap Modifier.tokens ++ rest)
      = .ok (ms.foldl Modifier.addTo e, rest) := by
  induction ms generalizing e with
  | nil => exact modifiers_stops hrest e
  | cons m ms ih =>
    rw [List.flatMap_cons] at h ⊢
    obtain ⟨hm, hms⟩ := List.forall_mem_append.1 h
    cases m with
    | id name sign place => exact ih hms _
    | className name sign place => exact ih hms _
    | text inner place => exact ih hms _
    | attributes inner place =>
      obtain ⟨attributes, hread⟩ := hm ⟨.attributes inner, place⟩ (by simp [Modifier.tokens])
      have hadd : Modifier.addTo e (.attributes inner place) = attributes.foldl Element.fold e := by
        rw [Modifier.addTo, attributesAt, hread]
      simp only [Modifier.tokens, List.cons_append, List.nil_append, modifiers, hread, bind,
        Except.bind]
      rw [ih hms, ← hadd]
      rfl

/-- A tail is read as two marks. -/
theorem mark_tokens {rest : Tokens} (hrest : Stops rest) {tail : Tail}
    (h : ∀ t ∈ tail.tokens, t.Legible) (e : Element) :
    ∃ e₁ times₁ rest₁, mark e none (tail.tokens ++ rest) = .ok (e₁, times₁, rest₁) ∧
      mark e₁ times₁ rest₁ = .ok (tail.addTo e, tail.times?, rest) := by
  have hmark : ∀ (e : Element) (times : Option Multiplier),
      mark e times rest = .ok (e, times, rest) := by
    intro e times
    cases rest with
    | nil => rfl
    | cons token rest =>
      obtain ⟨lexeme, place⟩ := token
      have := hrest ⟨lexeme, place⟩ rfl
      cases lexeme with
      | times | close => cases this
      | _ => rfl
  have htimes : ∀ (e : Element) (count : Count) (more : Tokens), count.token.Legible →
      mark e none (count.token :: more) = .ok (e, some count.multiplier, more) := by
    rintro e ⟨digits, place⟩ more ⟨n, hn⟩
    rw [Count.token, mark, multiplier_of_positive hn]
    rfl
  cases tail with
  | empty => exact ⟨e, none, rest, hmark e none, hmark e none⟩
  | times count => exact ⟨e, _, rest, htimes e count rest (h _ (by simp [Tail.tokens])), hmark e _⟩
  | close place => exact ⟨_, none, rest, rfl, hmark _ none⟩
  | timesClose count place => exact ⟨e, _, _, htimes e count _ (h _ (by simp [Tail.tokens])), rfl⟩
  | closeTimes place count =>
    exact ⟨_, none, _, rfl, htimes _ count rest (h _ (by simp [Tail.tokens]))⟩
  | closeClose first second => exact ⟨_, none, _, rfl, rfl⟩

theorem finish_tokens (stop : Nat) {rest : Tokens} (hrest : Stops rest) {ms : List Modifier}
    {tail : Tail} (h : ∀ t ∈ ms.flatMap Modifier.tokens ++ tail.tokens, t.Legible) (e : Element) :
    finish stop e (ms.flatMap Modifier.tokens ++ tail.tokens ++ rest)
      = .ok (nodeFrom e ms tail, rest) := by
  obtain ⟨hms, htail⟩ := List.forall_mem_append.1 h
  have hclosed : ∀ t ∈ (tail.tokens ++ rest).head?, opensModifier t.lexeme = false := by
    cases tail with
    | empty =>
      intro t ht
      have := hrest t ht
      obtain ⟨lexeme, place⟩ := t
      cases lexeme with
      | hash | dot | attributes | text => cases this
      | _ => rfl
    | _ => simp [Tail.tokens, Count.token, opensModifier]
  obtain ⟨e₁, times₁, rest₁, h₁, h₂⟩ := mark_tokens hrest htail (ms.foldl Modifier.addTo e)
  rw [finish, List.append_assoc, modifiers_tokens hclosed hms]
  simp only [bind, Except.bind, h₁, h₂, pure, Except.pure]
  rfl

theorem element_tokens (stop : Nat) {rest : Tokens} (hrest : Stops rest) {phrase : Phrase}
    (h : ∀ t ∈ phrase.tokens, t.Legible) :
    element stop (phrase.tokens ++ rest) = .ok (phrase.node, rest) := by
  cases phrase with
  | named name place ms tail => exact finish_tokens stop hrest (List.forall_mem_cons.1 h).2 _
  | nameless first others tail =>
    rw [Phrase.tokens, ← List.append_assoc, ← List.flatMap_cons] at h
    have hfinish := finish_tokens stop hrest h { offset := first.start }
    rw [List.flatMap_cons, List.append_assoc first.tokens] at hfinish
    rw [Phrase.tokens, Phrase.node, ← hfinish]
    cases first <;> rfl

theorem climbs_tokens {rest : Tokens} (h : hasOperand rest = true) (places : List Nat) :
    climbs ((places.map fun place ↦ ⟨.climb, place⟩) ++ rest) = (places.length, rest) := by
  induction places with
  | nil =>
    cases rest with
    | nil => cases h
    | cons token rest =>
      obtain ⟨lexeme, place⟩ := token
      cases lexeme with
      | climb => cases h
      | _ => rfl
  | cons place places ih => rw [List.map_cons, List.cons_append, climbs, ih]; rfl

theorem operator_tokens {rest : Tokens} (hrest : hasOperand rest = true) {op : Op} {i : Item}
    (h : op.Fits i) (level : Nat) :
    operator i.node level (op.tokens ++ rest) = .ok (op.next level, rest) := by
  cases op with
  | child place =>
    have h : i.node.isText = false := h
    simp [Op.tokens, operator, h, Op.next]
  | sibling place => rfl
  | climb place more =>
    simp only [Op.tokens, List.cons_append, operator, climbs_tokens hrest]
    rfl

/-! ### What begins an item -/

/-- Every token of a modifier may begin an element. -/
theorem startsElement_of_mem {ms : List Modifier} :
    ∀ t ∈ ms.flatMap Modifier.tokens, startsElement t.lexeme = true := by
  intro t ht
  obtain ⟨m, -, hm⟩ := List.mem_flatMap.1 ht
  cases m <;> simp only [Modifier.tokens, List.mem_cons, List.not_mem_nil, or_false] at hm
  case attributes | text => rw [hm]; rfl
  case id | className => obtain rfl | rfl := hm <;> rfl

theorem head_phrase (phrase : Phrase) :
    ∃ t more, phrase.tokens = t :: more ∧ startsElement t.lexeme = true := by
  cases phrase with
  | named name place ms tail => exact ⟨_, _, rfl, rfl⟩
  | nameless first others tail => cases first <;> exact ⟨_, _, rfl, rfl⟩

theorem head_item (i : Item) :
    ∃ t more, i.tokens = t :: more ∧ (t.lexeme = .groupOpen ∨ startsElement t.lexeme = true) := by
  cases i with
  | element phrase =>
    obtain ⟨t, more, htokens, ht⟩ := head_phrase phrase
    exact ⟨t, more, htokens, .inr ht⟩
  | group opening row closing count => exact ⟨_, _, rfl, .inl rfl⟩

theorem head_row (row : Row) :
    ∃ t more, row.tokens = t :: more ∧ (t.lexeme = .groupOpen ∨ startsElement t.lexeme = true) := by
  cases row with
  | last i => exact head_item i
  | more i op rest =>
    obtain ⟨t, more, htokens, ht⟩ := head_item i
    exact ⟨t, _, by rw [Row.tokens, htokens, List.cons_append], ht⟩

theorem hasOperand_row (row : Row) (rest : Tokens) : hasOperand (row.tokens ++ rest) = true := by
  obtain ⟨t, more, htokens, ht⟩ := head_row row
  obtain ⟨lexeme, place⟩ := t
  rw [htokens, List.cons_append, hasOperand]
  rcases ht with rfl | ht
  · rfl
  · cases lexeme with
    | literal | hash | dot | attributes | text => rfl
    | _ => cases ht

theorem length_op_pos (op : Op) : 0 < op.tokens.length := by
  cases op <;> simp [Op.tokens]

theorem atEnd_op (op : Op) (rest : Tokens) : atEnd (op.tokens ++ rest) = false := by
  cases op <;> rfl

/-! ### Items and rows -/

theorem item_tokens (stop : Nat)
    {inside : Tokens → Except Fault (List (Nat × Node) × Tokens)} {i : Item}
    (hinside : ∀ row : Row, row.tokens.length < i.tokens.length → row.Fits →
      (∀ t ∈ row.tokens, t.Legible) → ∀ rest, atEnd rest = true →
        inside (row.tokens ++ rest) = .ok (row.items 0, rest))
    (hfits : i.Fits) (h : ∀ t ∈ i.tokens, t.Legible) {rest : Tokens} (hrest : Stops rest) :
    item stop inside (i.tokens ++ rest) = .ok (i.node, rest) := by
  cases i with
  | element phrase =>
    obtain ⟨⟨lexeme, place⟩, more, htokens, hstart⟩ := head_phrase phrase
    have helement := element_tokens stop hrest h
    rw [Item.tokens, Item.node, htokens, List.cons_append] at *
    cases lexeme with
    | literal | hash | dot | attributes | text => exact helement
    | _ => cases hstart
  | group opening row closing count =>
    have hitems := row.isEmpty_items 0
    have hsteady : Steady (row.items 0) := Row.steady hfits
    have hnest := nest_eq_hang hsteady
    have hlength : row.tokens.length < (Item.group opening row closing count).tokens.length := by
      simp only [Item.tokens, List.length_cons, List.length_append]
      omega
    have hread := hinside row hlength hfits fun t ht ↦ h t (by simp [Item.tokens, ht])
    cases count with
    | none =>
      have hrow := hread (⟨.groupClose, closing⟩ :: rest) rfl
      simp only [Item.tokens, Option.map_none, Option.toList_none, List.cons_append,
        List.append_assoc, List.nil_append, item, hrow, bind, Except.bind, hitems, Item.node, hnest,
        Bool.false_eq_true, if_false]
      cases rest with
      | nil => rfl
      | cons token rest =>
        obtain ⟨lexeme, place⟩ := token
        have := hrest ⟨lexeme, place⟩ rfl
        cases lexeme with
        | times => cases this
        | _ => rfl
    | some count =>
      obtain ⟨digits, place⟩ := count
      have hrow := hread (⟨.groupClose, closing⟩ :: ⟨.times digits, place⟩ :: rest) rfl
      obtain ⟨n, hn⟩ : (Count.token ⟨digits, place⟩).Legible := h _ (by simp [Item.tokens])
      simp only [Item.tokens, Option.map_some, Option.toList_some, Count.token, List.cons_append,
        List.append_assoc, List.nil_append, item, hrow, bind, Except.bind, hitems, Item.node, hnest,
        Bool.false_eq_true, if_false, multiplier_of_positive hn]
      rfl

/-- A row is read as what it is, if it ends where the next token ends a row. -/
theorem statements_tokens (stop : Nat) {fuel level : Nat} {row : Row}
    (hfuel : row.tokens.length < fuel) (hfits : row.Fits) (h : ∀ t ∈ row.tokens, t.Legible)
    {rest : Tokens} (hend : atEnd rest = true) :
    statements stop fuel level (row.tokens ++ rest) = .ok (row.items level, rest) := by
  induction fuel generalizing level row rest with
  | zero => cases hfuel
  | succ fuel ih =>
    -- A group takes one unit of fuel as well, and its row is shorter than its tokens.
    have hitem : ∀ {i : Item}, i.tokens.length ≤ fuel → i.Fits → (∀ t ∈ i.tokens, t.Legible) →
        ∀ {rest : Tokens}, Stops rest →
          item stop (statements stop fuel 0) (i.tokens ++ rest) = .ok (i.node, rest) :=
      fun hle ↦ item_tokens stop fun row hlt hfits h rest hend ↦
        ih (Nat.lt_of_lt_of_le hlt hle) hfits h hend
    have hstart := atEnd_of_hasOperand (hasOperand_row row rest)
    rw [statements, hstart, if_neg Bool.false_ne_true]
    cases row with
    | last i =>
      rw [Row.tokens] at *
      rw [hitem (Nat.le_of_lt_succ hfuel) hfits h (stops_of_atEnd hend)]
      simp only [bind, Except.bind, hend, if_true, Row.items]
      rfl
    | more i op row =>
      obtain ⟨hi, hop, hrow⟩ := hfits
      rw [Row.tokens] at *
      obtain ⟨hilegible, hmore⟩ := List.forall_mem_append.1 h
      obtain ⟨t, more, htokens, -⟩ := head_item i
      have hlength : i.tokens.length ≤ fuel ∧ row.tokens.length < fuel := by
        have := length_op_pos op
        have := congrArg List.length htokens
        simp only [List.length_append, List.length_cons] at hfuel this
        omega
      have hoperand := hasOperand_row row rest
      have hrest : statements stop fuel (op.next level) (row.tokens ++ rest)
          = .ok (row.items (op.next level), rest) :=
        ih hlength.2 hrow (List.forall_mem_append.1 hmore).2 hend
      rw [List.append_assoc, List.append_assoc, hitem hlength.1 hi hilegible (stops_op op _)]
      simp only [bind, Except.bind, atEnd_op, Bool.false_eq_true, if_false,
        operator_tokens hoperand hop, hoperand, if_true, hrest, Row.items]
      rfl

/-- **The reader accepts what the grammar derives**, if the attribute sets can be read and the
multipliers are positive, and nothing else; and it returns what is derived. -/
theorem ofTokens_eq_ok_iff {tokens : Tokens} {nodes : List Node} :
    ofTokens stop tokens = .ok nodes ↔
      ∃ row : Row, tokens = row.tokens ∧ row.Fits ∧ (∀ t ∈ tokens, t.Legible) ∧
        nodes = row.tree := by
  constructor
  · intro h
    unfold ofTokens at h
    split at h
    · cases h
    next hne =>
      obtain ⟨⟨items, rest⟩, hs, h⟩ := bind_eq_ok_iff.1 h
      cases rest with
      | cons => cases h
      | nil =>
        cases h
        have hstart : atEnd tokens = false := by
          refine eq_false_of_ne_true fun hend ↦ hne ?_
          rw [← (statements_atEnd hend hs).2]
          rfl
        obtain ⟨row, htokens, rfl, hfits, hlegible⟩ := exists_row_of_statements hs hstart
        rw [List.append_nil] at htokens
        exact ⟨row, htokens, hfits, htokens ▸ hlegible, nest_eq_hang (Row.steady hfits)⟩
  · rintro ⟨row, rfl, hfits, hlegible, rfl⟩
    obtain ⟨t, more, htokens, -⟩ := head_row row
    have hs : statements stop (row.tokens.length + 1) 0 (row.tokens ++ [])
        = .ok (row.items 0, []) :=
      statements_tokens stop (Nat.lt_succ_self _) hfits hlegible rfl
    rw [List.append_nil] at hs
    have hne : row.tokens.isEmpty = false := by rw [htokens]; rfl
    rw [ofTokens, hne, if_neg Bool.false_ne_true, hs]
    exact congrArg Except.ok (nest_eq_hang (Row.steady hfits))

end Tree

end Shorthand.Markup
