import Shorthand.Proofs.Places
import Shorthand.Proofs.Reading

/-!
# Operators define the tree

The raw tree of an abbreviation is the tree of the row that it spells.  It lists the items of the
source in the order in which they are written, none lost and none twice; in each of its statement
lists an item hangs where the operators before it say; and the path of indices along which such a
list is built always leads to an element or a group.

Where items begin can be seen from the tokens alone: at an opening parenthesis, and at a part of an
element with no part of an element before it (`Token.starts`).

* `Source.Row.Defines` : all of this, said of a row and a tree.
* `Tree.parse_follows_operators` : the raw tree is defined by the row that the abbreviation spells.
-/

set_option autoImplicit false

namespace Shorthand.Markup

open Source

/-! ## Where items begin -/

/-- A token after which an item begins. -/
def Lexeme.separates : Lexeme → Bool
  | .groupOpen | .child | .sibling | .climb => true
  | _ => false

/-- A token begins an item: an opening parenthesis, or a part of an element where an item may
begin. -/
def Lexeme.beginsItem (separated : Bool) (lexeme : Lexeme) : Bool :=
  lexeme == .groupOpen || separated && Tree.startsElement lexeme

/-- The places of the tokens that begin an item. -/
def Token.starts : Bool → List Token → List Nat
  | _, [] => []
  | separated, t :: ts =>
    if t.lexeme.beginsItem separated then t.offset :: starts t.lexeme.separates ts
    else starts t.lexeme.separates ts

theorem Token.sublist_starts (separated : Bool) (tokens : List Token) :
    (starts separated tokens).Sublist (tokens.map Token.offset) := by
  induction tokens generalizing separated with
  | nil => exact .slnil
  | cons t ts ih =>
    rw [starts]
    split
    · exact (ih _).cons_cons _
    · exact (ih _).cons _

namespace Source

/-- A token inside an element. -/
def Inside (t : Token) : Prop := t.lexeme.separates = false ∧ t.lexeme.beginsItem false = false

theorem starts_inside {tokens : List Token} (h : ∀ t ∈ tokens, Inside t) (rest : List Token) :
    Token.starts false (tokens ++ rest) = Token.starts false rest := by
  induction tokens with
  | nil => rfl
  | cons t ts ih =>
    obtain ⟨⟨hseparates, hbegins⟩, hts⟩ := List.forall_mem_cons.1 h
    rw [List.cons_append, Token.starts, hbegins, if_neg Bool.false_ne_true, hseparates, ih hts]

/-- A token that may begin an element is inside one where no item may begin. -/
theorem inside_of_startsElement {t : Token} (h : Tree.startsElement t.lexeme = true) :
    Inside t := by
  obtain ⟨lexeme, place⟩ := t
  cases lexeme with
  | literal | hash | dot | attributes | text => exact ⟨rfl, rfl⟩
  | _ => cases h

theorem Tail.inside (tail : Tail) : ∀ t ∈ tail.tokens, Inside t := by
  cases tail <;>
    simp [Tail.tokens, Count.token, Inside, Lexeme.separates, Lexeme.beginsItem]

/-- One item begins in an element, with its first token. -/
theorem Phrase.starts_tokens (phrase : Phrase) (rest : List Token) :
    Token.starts true (phrase.tokens ++ rest) = phrase.start :: Token.starts false rest := by
  have hmodifiers : ∀ (ms : List Modifier) (tail : Tail),
      ∀ t ∈ ms.flatMap Modifier.tokens ++ tail.tokens, Inside t := fun ms tail ↦
    List.forall_mem_append.2
      ⟨fun t ht ↦ inside_of_startsElement (Tree.startsElement_of_mem t ht), tail.inside⟩
  cases phrase with
  | named name place ms tail =>
    exact congrArg (place :: ·) (starts_inside (hmodifiers ms tail) rest)
  | nameless first others tail =>
    have hrest := starts_inside (hmodifiers others tail) rest
    rw [Phrase.tokens, List.append_assoc, Phrase.start]
    cases first with
    | id name sign place => exact congrArg (sign :: ·) hrest
    | className name sign place => exact congrArg (sign :: ·) hrest
    | attributes inner place => exact congrArg (place :: ·) hrest
    | text inner place => exact congrArg (place :: ·) hrest

theorem Op.starts_tokens (op : Op) (rest : List Token) :
    Token.starts false (op.tokens ++ rest) = Token.starts true rest := by
  cases op with
  | child => rfl
  | sibling => rfl
  | climb place more =>
    have hmore : ∀ places : List Nat, Token.starts true
        ((places.map fun place ↦ (⟨.climb, place⟩ : Token)) ++ rest) = Token.starts true rest := by
      intro places
      induction places with
      | nil => rfl
      | cons place places ih => exact ih
    exact hmore more

mutual

theorem Item.starts_tokens : ∀ (item : Item) (rest : List Token),
    Token.starts true (item.tokens ++ rest)
      = item.heads.map Node.offset ++ Token.starts false rest
  | .element phrase, rest => by
    rw [Item.tokens, phrase.starts_tokens, Item.heads, List.map_singleton, phrase.offset_node]
    rfl
  | .group opening row closing count, rest => by
    have hrow := Row.starts_tokens row
      (⟨.groupClose, closing⟩ :: (count.map Count.token).toList ++ rest)
    have hclose : Token.starts false
        (⟨.groupClose, closing⟩ :: (count.map Count.token).toList ++ rest)
          = Token.starts false rest := by
      cases count <;> rfl
    rw [hclose] at hrow
    rw [Item.tokens, Item.heads, List.cons_append, List.append_assoc]
    exact congrArg (opening :: ·) hrow

/-- The items of a row begin where its tokens begin items. -/
theorem Row.starts_tokens : ∀ (row : Row) (rest : List Token),
    Token.starts true (row.tokens ++ rest)
      = row.heads.map Node.offset ++ Token.starts false rest
  | .last item, rest => Item.starts_tokens item rest
  | .more item op more, rest => by
    rw [Row.tokens, List.append_assoc, List.append_assoc, Item.starts_tokens item,
      op.starts_tokens, Row.starts_tokens more rest, Row.heads, List.map_append,
      List.append_assoc]

end

/-- The items of the tree of a row begin where its tokens begin items. -/
theorem Row.starts_tree {row : Row} (h : row.Fits) :
    (Node.allPreorder row.tree).map Node.offset = Token.starts true row.tokens := by
  have hstarts := Row.starts_tokens row []
  simp only [List.append_nil, Token.starts] at hstarts
  rw [Row.allPreorder_tree h, hstarts]

end Source

/-! ## The raw tree -/

/-- A row defines a tree: the tree that its levels say, in which every item of the row and of its
groups has its place. -/
structure Source.Row.Defines (row : Row) (nodes : List Node) : Prop where
  /-- Each item of a statement list hangs under the latest item before it that is one level above
  (`Tree.hang`), at the level that the operators say (`Source.Op.next`). -/
  tree : nodes = row.tree
  /-- In reading order the tree lists the items of the source. -/
  order : Node.allPreorder nodes = row.heads
  /-- These are where the tokens begin an item, and nowhere else. -/
  starts : (Node.allPreorder nodes).map Node.offset = Token.starts true row.tokens
  sorted : ((Node.allPreorder nodes).map Node.offset).Pairwise (· < ·)
  /-- In the row and in each of its groups, an item below the top has another to hang under, and
  that is no text. -/
  hangs : ∀ r ∈ row :: row.inner, ∀ (j : Nat) (hj : j < (r.items 0).length), 0 < (r.items 0)[j].1 →
    ∃ i, ∃ hi : i < (r.items 0).length,
      Tree.HangsUnder (r.items 0) i j ∧ (r.items 0)[i].2.isText = false
  /-- The path of indices along which a statement list is built never goes astray. -/
  path : ∀ r ∈ row :: row.inner, r.insert [] [] = some r.tree

namespace Tree

/-- **Operators define the tree.**  The raw tree of an abbreviation is the one that the row which it
spells defines. -/
theorem parse_follows_operators {s : String} {nodes : List Node} (h : parse s = .ok nodes) :
    ∃ row : Row, Token.ofText s = .ok row.tokens ∧ row.Defines nodes := by
  obtain ⟨tokens, htokens, h⟩ := bind_eq_ok_iff.1 (located_eq_ok_iff.1 h)
  obtain ⟨row, rfl, hfits, -, rfl⟩ := ofTokens_eq_ok_iff.1 h
  have horder := Row.allPreorder_tree hfits
  have hstarts := Row.starts_tree hfits
  have hfitsAll : ∀ r ∈ row :: row.inner, r.Fits :=
    List.forall_mem_cons.2 ⟨hfits, Row.fits_of_mem hfits⟩
  refine ⟨row, htokens, rfl, horder, hstarts, ?_, fun r hr j hj hlevel ↦ ?_, fun r hr ↦ ?_⟩
  · rw [hstarts]
    exact (Token.sorted_of_ofText htokens).sublist (Token.sublist_starts true row.tokens)
  · rw [← levelOf_eq hj] at hlevel
    exact (Row.steady (hfitsAll r hr)).exists_hangsUnder hj hlevel
  · exact Row.insert_eq (hfitsAll r hr)

/-- A group takes what follows a `>` after its own statements, and a `^` leaves it again. -/
theorem parse_group_child_climb :
    parse "(a>b)>c^d"
        = .ok [.group [.element { name := some "a", offset := 1 } none
              [.element { name := some "b", offset := 3 } none []],
            .element { name := some "c", offset := 6 } none []] none 0,
          .element { name := some "d", offset := 8 } none []] ∧
      ∃ row : Row, Token.ofText "(a>b)>c^d" = .ok row.tokens ∧
        row.Defines [.group [.element { name := some "a", offset := 1 } none
              [.element { name := some "b", offset := 3 } none []],
            .element { name := some "c", offset := 6 } none []] none 0,
          .element { name := some "d", offset := 8 } none []] := by
  have h : parse "(a>b)>c^d"
      = .ok [.group [.element { name := some "a", offset := 1 } none
            [.element { name := some "b", offset := 3 } none []],
          .element { name := some "c", offset := 6 } none []] none 0,
        .element { name := some "d", offset := 8 } none []] := by
    decide +kernel
  exact ⟨h, parse_follows_operators h⟩

end Tree

end Shorthand.Markup
