import Shorthand.Proofs.Numeral
import Shorthand.Proofs.Stumbling

/-!
# The grammar and its one exception

The grammar lets an element end in at most one `*n` and at most one `/`, in either order.  The
reader takes two marks after an element and asks only of the second multiplier whether there was one
before: two slashes pass as well.  This is the only way in which it takes more than the grammar, and
it never takes less.

* `Source.Derives` : tokens that the grammar derives, with counts that are positive numbers.
* `Source.closedOnce_iff` : a derivation has one slash an element where no two slashes stand
  together.
* `Tree.parse_accepts_iff` : what the reader accepts, and when that is the grammar.
-/

set_option autoImplicit false

namespace Shorthand.Markup

namespace Token

/-- The attribute sets can be read. -/
def SetsRead (tokens : List Token) : Prop :=
  ∀ inner place, ⟨.attributes inner, place⟩ ∈ tokens →
    ∃ attributes, AttributeSet.read (place + 1) inner = .ok attributes

/-- The counts hold decimal digits only. -/
def CountsDecimal (tokens : List Token) : Prop :=
  ∀ digits place, ⟨.times digits, place⟩ ∈ tokens → ∀ c ∈ digits.toList, Text.isDecimal c = true

/-- Every count is there, and it is at least 1. -/
def CountsPositive (tokens : List Token) : Prop :=
  ∀ digits place, ⟨.times digits, place⟩ ∈ tokens → digits ≠ "" ∧ 1 ≤ Text.numeral digits.toList

/-- Two slashes stand together. -/
def ClosedTwice (tokens : List Token) : Prop :=
  ∃ before first second after, tokens = before ++ ⟨.close, first⟩ :: ⟨.close, second⟩ :: after

theorem numeral?_eq_succ_iff {digits : String} (h : ∀ c ∈ digits.toList, Text.isDecimal c = true) :
    (∃ n, Text.numeral? digits.toList = some (n + 1)) ↔
      digits ≠ "" ∧ 1 ≤ Text.numeral digits.toList := by
  have hall : digits.toList.all Text.isDecimal = true := List.all_eq_true.2 h
  have hempty : digits.toList.isEmpty = true ↔ digits = "" := by
    rw [List.isEmpty_iff, String.toList_eq_nil_iff]
  rw [Text.numeral?, hall, Bool.true_and]
  by_cases hne : digits = ""
  · simp [hne]
  · rw [eq_false_of_ne_true fun h ↦ hne (hempty.1 h), Bool.not_false, if_pos rfl]
    constructor
    · rintro ⟨n, hn⟩
      have := Option.some.inj hn
      exact ⟨hne, by omega⟩
    · rintro ⟨-, hpos⟩
      exact ⟨_, congrArg some (Nat.sub_add_cancel hpos).symm⟩

/-- Where attribute sets and digits are in order, legible counts are positive ones. -/
theorem legible_iff {tokens : List Token} (hsets : SetsRead tokens)
    (hcounts : CountsDecimal tokens) :
    (∀ t ∈ tokens, t.Legible) ↔ CountsPositive tokens := by
  constructor
  · intro h digits place ht
    exact (numeral?_eq_succ_iff (hcounts digits place ht)).1 (h _ ht)
  · rintro h ⟨lexeme, place⟩ ht
    cases lexeme with
    | attributes inner => exact hsets inner place ht
    | times digits => exact (numeral?_eq_succ_iff (hcounts digits place ht)).2 (h digits place ht)
    | _ => trivial

end Token

namespace Source

/-! ## One slash an element -/

/-- The tail has at most one slash. -/
def Tail.ClosedOnce : Tail → Prop
  | .closeClose _ _ => False
  | _ => True

/-- The element has at most one slash. -/
def Phrase.ClosedOnce : Phrase → Prop
  | .named _ _ _ tail => tail.ClosedOnce
  | .nameless _ _ tail => tail.ClosedOnce

mutual

/-- Every element of an item has at most one slash. -/
def Item.ClosedOnce : Item → Prop
  | .element phrase => phrase.ClosedOnce
  | .group _ row _ _ => row.ClosedOnce

/-- Every element of a row has at most one slash. -/
def Row.ClosedOnce : Row → Prop
  | .last item => item.ClosedOnce
  | .more item _ rest => item.ClosedOnce ∧ rest.ClosedOnce

end

/-- Two tokens that are not both slashes. -/
def Apart (t u : Token) : Prop := t.lexeme = .close → u.lexeme ≠ .close

theorem isChain_append_of_left {ts us : List Token} (hts : ∀ t ∈ ts, t.lexeme ≠ .close)
    (hus : us.IsChain Apart) : (ts ++ us).IsChain Apart := by
  induction ts with
  | nil => exact hus
  | cons t ts ih =>
    obtain ⟨ht, hts⟩ := List.forall_mem_cons.1 hts
    exact (ih hts).cons fun _ _ h ↦ absurd h ht

theorem isChain_append_of_right {ts us : List Token} (hts : ts.IsChain Apart)
    (hus : us.IsChain Apart) (h : ∀ u ∈ us.head?, u.lexeme ≠ .close) : (ts ++ us).IsChain Apart :=
  List.isChain_append.2 ⟨hts, hus, fun _ _ u hu _ ↦ h u hu⟩

theorem Phrase.isChain_tokens {phrase : Phrase} (h : phrase.ClosedOnce) :
    phrase.tokens.IsChain Apart := by
  have hmodifiers : ∀ ms : List Modifier, ∀ t ∈ ms.flatMap Modifier.tokens, t.lexeme ≠ .close := by
    intro ms t ht hclose
    have hstarts := Tree.startsElement_of_mem t ht
    rw [hclose] at hstarts
    cases hstarts
  have htail : ∀ tail : Tail, tail.ClosedOnce → tail.tokens.IsChain Apart := by
    intro tail htail
    cases tail with
    | closeClose => exact htail.elim
    | _ => simp [Tail.tokens, Count.token, Apart]
  cases phrase with
  | named name place ms tail =>
    exact isChain_append_of_left (List.forall_mem_cons.2 ⟨Lexeme.noConfusion, hmodifiers ms⟩)
      (htail tail h)
  | nameless first others tail =>
    rw [Phrase.tokens, ← List.append_assoc, ← List.flatMap_cons]
    exact isChain_append_of_left (hmodifiers (first :: others)) (htail tail h)

mutual

theorem Item.isChain_tokens : ∀ {item : Item}, item.ClosedOnce → item.tokens.IsChain Apart
  | .element _, h => Phrase.isChain_tokens h
  | .group opening row _ count, h => by
    have hopen : ∀ t ∈ [(⟨.groupOpen, opening⟩ : Token)], t.lexeme ≠ .close :=
      List.forall_mem_singleton.2 Lexeme.noConfusion
    have hclose : ∀ closing : Nat, ((⟨.groupClose, closing⟩ : Token) ::
        (count.map Count.token).toList).IsChain Apart := fun closing ↦ by
      cases count <;> simp [Count.token, Apart]
    exact isChain_append_of_left hopen
      (isChain_append_of_right (Row.isChain_tokens h) (hclose _) (by simp))

/-- In a row with one slash an element no two slashes stand together. -/
theorem Row.isChain_tokens : ∀ {row : Row}, row.ClosedOnce → row.tokens.IsChain Apart
  | .last _, h => Item.isChain_tokens h
  | .more _ op _, ⟨hitem, hrest⟩ => by
    have hop : ∀ t ∈ op.tokens, t.lexeme ≠ .close := by
      intro t ht hclose
      have := Tree.isOperator_of_mem ht
      rw [hclose] at this
      cases this
    refine isChain_append_of_right (Item.isChain_tokens hitem)
      (isChain_append_of_left hop (Row.isChain_tokens hrest)) ?_
    cases op <;> simp [Op.tokens]

end

theorem Phrase.closedTwice {phrase : Phrase} (h : ¬ phrase.ClosedOnce) :
    Token.ClosedTwice phrase.tokens := by
  cases phrase with
  | named name place ms tail =>
    cases tail with
    | closeClose first second => exact ⟨_ :: ms.flatMap Modifier.tokens, first, second, [], rfl⟩
    | _ => exact absurd trivial h
  | nameless first others tail =>
    cases tail with
    | closeClose at_ second =>
      exact ⟨first.tokens ++ others.flatMap Modifier.tokens, at_, second, [],
        by rw [List.append_assoc]; rfl⟩
    | _ => exact absurd trivial h

theorem ClosedTwice.append {tokens : List Token} (h : Token.ClosedTwice tokens)
    (first last : List Token) : Token.ClosedTwice (first ++ (tokens ++ last)) := by
  obtain ⟨before, a, b, after, rfl⟩ := h
  exact ⟨first ++ before, a, b, after ++ last, by simp⟩

mutual

theorem Item.closedTwice : ∀ {item : Item}, ¬ item.ClosedOnce → Token.ClosedTwice item.tokens
  | .element _, h => Phrase.closedTwice h
  | .group opening _ _ _, h => ClosedTwice.append (Row.closedTwice h) [⟨.groupOpen, opening⟩] _

theorem Row.closedTwice : ∀ {row : Row}, ¬ row.ClosedOnce → Token.ClosedTwice row.tokens
  | .last _, h => Item.closedTwice h
  | .more item op rest, h => by
    by_cases hitem : item.ClosedOnce
    · have hrest := ClosedTwice.append (Row.closedTwice fun hrest ↦ h ⟨hitem, hrest⟩)
        (item.tokens ++ op.tokens) []
      rwa [List.append_nil, List.append_assoc] at hrest
    · exact ClosedTwice.append (Item.closedTwice hitem) [] _

end

theorem not_closedTwice {tokens : List Token} (h : tokens.IsChain Apart) :
    ¬ Token.ClosedTwice tokens := by
  rintro ⟨before, first, second, after, rfl⟩
  exact (List.isChain_cons_cons.1 h.right_of_append).1 rfl rfl

/-- A derivation has at most one slash an element exactly if no two slashes stand together. -/
theorem closedOnce_iff {row : Row} : row.ClosedOnce ↔ ¬ Token.ClosedTwice row.tokens :=
  ⟨fun h ↦ not_closedTwice (Row.isChain_tokens h),
    fun h ↦ Classical.not_not.1 fun hrow ↦ h (Row.closedTwice hrow)⟩

/-! ## The grammar -/

/-- The grammar derives the tokens; no `>` stands after a text, and the counts are positive
numbers. -/
def Derives (tokens : List Token) : Prop :=
  ∃ row : Row, tokens = row.tokens ∧ row.ClosedOnce ∧ row.Fits ∧ Token.CountsPositive tokens

end Source

namespace Tree

open Source

variable {s : String} {tokens : Tokens}

/-- The reader takes an abbreviation. -/
def Accepts (s : String) : Prop := ∃ nodes, parse s = .ok nodes

theorem accepts_iff (htokens : Token.ofText s = .ok tokens) (hsets : Token.SetsRead tokens)
    (hcounts : Token.CountsDecimal tokens) :
    Accepts s ↔ ∃ row : Row, tokens = row.tokens ∧ row.Fits ∧ Token.CountsPositive tokens := by
  have hparse : ∀ nodes, parse s = .ok nodes ↔ ofTokens s.length tokens = .ok nodes := by
    intro nodes
    rw [parse, located_eq_ok_iff, htokens]
    rfl
  simp only [Accepts, hparse, ofTokens_eq_ok_iff, Token.legible_iff hsets hcounts]
  constructor
  · rintro ⟨_, row, htokens, hfits, hpositive, -⟩
    exact ⟨row, htokens, hfits, hpositive⟩
  · rintro ⟨row, htokens, hfits, hpositive⟩
    exact ⟨_, row, htokens, hfits, hpositive, rfl⟩

/-- **The reader accepts its grammar, and two slashes for one.**  With attribute sets that can be
read and counts of decimal digits, an abbreviation that is not accepted is refused; accepted is what
the grammar derives and nothing else, unless two slashes stand together in an abbreviation that is
accepted. -/
theorem parse_accepts_iff (htokens : Token.ofText s = .ok tokens) (hsets : Token.SetsRead tokens)
    (hcounts : Token.CountsDecimal tokens) :
    (Accepts s ∨ ∃ e, parse s = .error (.malformed e)) ∧
      (Derives tokens ↔ Accepts s ∧ ¬ Token.ClosedTwice tokens) ∧
      ((Accepts s ↔ Derives tokens) ↔ ¬ (Accepts s ∧ Token.ClosedTwice tokens)) := by
  have hderives : Derives tokens ↔ Accepts s ∧ ¬ Token.ClosedTwice tokens := by
    rw [accepts_iff htokens hsets hcounts]
    constructor
    · rintro ⟨row, rfl, honce, hfits, hpositive⟩
      exact ⟨⟨row, rfl, hfits, hpositive⟩, closedOnce_iff.1 honce⟩
    · rintro ⟨⟨row, rfl, hfits, hpositive⟩, htwice⟩
      exact ⟨row, rfl, closedOnce_iff.2 htwice, hfits, hpositive⟩
  refine ⟨?_, hderives, ?_⟩
  · cases hparse : parse s with
    | ok nodes => exact .inl ⟨nodes, hparse⟩
    | error failure =>
      obtain ⟨fault, hread, rfl⟩ := located_eq_error_iff.1 hparse
      rw [htokens] at hread
      cases fault with
      | malformed cause place => exact .inr ⟨_, rfl⟩
      | unreadableCount digits =>
        exact absurd (ofTokens_eq_unreadable_iff.1 hread) (not_stumbles_of_decimal hcounts digits)
  · rw [hderives]
    tauto

/-- Marks in either order, a group with a count and a climb out of it are derived. -/
theorem parse_accepts_group :
    ∃ tokens, Token.ofText "(a>b/*2)*3^c[d]" = .ok tokens ∧ Token.SetsRead tokens ∧
      Token.CountsDecimal tokens ∧ Accepts "(a>b/*2)*3^c[d]" ∧ Derives tokens := by
  have htokens : Token.ofText "(a>b/*2)*3^c[d]" = .ok [⟨.groupOpen, 0⟩, ⟨.literal "a", 1⟩,
      ⟨.child, 2⟩, ⟨.literal "b", 3⟩, ⟨.close, 4⟩, ⟨.times "2", 5⟩, ⟨.groupClose, 7⟩,
      ⟨.times "3", 8⟩, ⟨.climb, 10⟩, ⟨.literal "c", 11⟩, ⟨.attributes "d", 12⟩] := by
    decide +kernel
  have hsets : Token.SetsRead [⟨.groupOpen, 0⟩, ⟨.literal "a", 1⟩,
      ⟨.child, 2⟩, ⟨.literal "b", 3⟩, ⟨.close, 4⟩, ⟨.times "2", 5⟩, ⟨.groupClose, 7⟩,
      ⟨.times "3", 8⟩, ⟨.climb, 10⟩, ⟨.literal "c", 11⟩, ⟨.attributes "d", 12⟩] := by
    intro inner place h
    obtain ⟨rfl, rfl⟩ : inner = "d" ∧ place = 12 := by simpa using h
    exact ⟨[{ name := "d" }], by decide +kernel⟩
  have hcounts : Token.CountsDecimal [⟨.groupOpen, 0⟩, ⟨.literal "a", 1⟩,
      ⟨.child, 2⟩, ⟨.literal "b", 3⟩, ⟨.close, 4⟩, ⟨.times "2", 5⟩, ⟨.groupClose, 7⟩,
      ⟨.times "3", 8⟩, ⟨.climb, 10⟩, ⟨.literal "c", 11⟩, ⟨.attributes "d", 12⟩] := by
    intro digits place h
    obtain ⟨rfl, rfl⟩ | ⟨rfl, rfl⟩ : digits = "2" ∧ place = 5 ∨ digits = "3" ∧ place = 8 := by
      simpa using h
    all_goals exact List.forall_mem_singleton.2 (Text.isDecimal_of_isDigit rfl)
  have haccepts : Accepts "(a>b/*2)*3^c[d]" := ⟨[.group [.element { name := some "a", offset := 1 }
        none [.element { name := some "b", selfClosing := true, offset := 3 } (some { count := 2 })
          []]] (some { count := 3 }) 0,
      .element { name := some "c", attributes := [{ name := "d" }], offset := 11 } none []],
    by decide +kernel⟩
  exact ⟨_, htokens, hsets, hcounts, haccepts, (parse_accepts_iff htokens hsets hcounts).2.1.2
    ⟨haccepts, not_closedTwice (by simp [Apart])⟩⟩

/-- **Two slashes are accepted,** though the grammar derives no more than one. -/
theorem two_slashes_accepted :
    ∃ tokens, Token.ofText "a//" = .ok tokens ∧ Token.SetsRead tokens ∧
      Token.CountsDecimal tokens ∧ Accepts "a//" ∧ ¬ Derives tokens := by
  refine ⟨[⟨.literal "a", 0⟩, ⟨.close, 1⟩, ⟨.close, 2⟩], by decide +kernel,
    by simp [Token.SetsRead], by simp [Token.CountsDecimal],
    ⟨[.element { name := some "a", selfClosing := true } none []], by decide +kernel⟩, ?_⟩
  rintro ⟨row, htokens, honce, -⟩
  exact closedOnce_iff.1 honce ⟨[⟨.literal "a", 0⟩], 1, 2, [], htokens.symm⟩

end Tree

end Shorthand.Markup
