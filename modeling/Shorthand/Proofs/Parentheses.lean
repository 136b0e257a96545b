import Shorthand.Proofs.Numeral
import Shorthand.Proofs.Spelling
import Shorthand.Proofs.Likeness

/-!
# An abbreviation in parentheses

An abbreviation that is read stays what it is between parentheses, whatever is written after them,
unless its last character is a backslash, which would escape the closing one.

Reading only looks at the kinds of tokens, and the offsets of nodes are all that tells apart what is
read at one place from what is read at another.  So two readings are compared: of tokens alone, and
of tokens with the same kinds and a closing parenthesis after them (`Continues`).

* `Spells.close` : the tokens of an abbreviation with a closing parenthesis after it.
* `Tree.statements_continues` : a row of items is read in parentheses as it is alone.
-/

set_option autoImplicit false

namespace Shorthand.Markup

/-! ## Characters -/

/-- A literal that does not end in a backslash ends before a closing parenthesis. -/
theorem literalChars_close {cs : List Char} (h : cs.getLast? ≠ some '\\') (tail : List Char) :
    literalChars (cs ++ ')' :: tail) = literalChars cs := by
  have hclose : literalChars (')' :: tail) = ([], 0) := literalChars_of_stop (by decide) tail
  fun_induction literalChars cs with
  | case1 => exact hclose
  | case2 c hc =>
    have hne : c ≠ '\\' := by simpa using h
    simp [literalChars, hne, hc, hclose]
  | case3 c hc =>
    have hne : c ≠ '\\' := by simpa using h
    simp [literalChars, hne, hc]
  | case4 c d cs hc out size hcs ih =>
    have hlast : cs.getLast? ≠ some '\\' := by
      cases cs with
      | nil => simp
      | cons e cs => simpa [List.getLast?_cons_cons] using h
    simp only [List.cons_append, literalChars, hc, if_true, ih hlast, hcs]
  | case5 c d cs hc hl out size hcs ih =>
    have hlast : (d :: cs).getLast? ≠ some '\\' := by simpa [List.getLast?_cons_cons] using h
    have ih := ih hlast
    rw [List.cons_append] at ih
    simp only [List.cons_append, literalChars, hc, hl, if_true, Bool.false_eq_true, if_false, ih,
      hcs]
  | case6 c d cs hc hl =>
    simp only [List.cons_append, literalChars, hc, hl, Bool.false_eq_true, if_false]

theorem attributeChars_append {quote : Option Char} {cs inner : List Char}
    (h : attributeChars quote cs = .ok inner) (tail : List Char) :
    attributeChars quote (cs ++ tail) = .ok inner := by
  fun_induction attributeChars quote cs generalizing inner with
  | case1 => simp at h
  | case2 => simp at h
  | case3 quote c hc d cs ih =>
    obtain ⟨i, hi, rfl⟩ := map_eq_ok_iff.1 h
    rw [List.cons_append, List.cons_append, attributeChars.eq_def]
    simp only [hc, if_true, ih hi]
    rfl
  | case4 c cs hc q ih =>
    obtain ⟨i, hi, rfl⟩ := map_eq_ok_iff.1 h
    rw [List.cons_append, attributeChars.eq_def]
    simp only [hc, if_false, Bool.false_eq_true, ih hi]
    rfl
  | case5 c cs hc hclose =>
    rw [List.cons_append, attributeChars.eq_def]
    simpa only [hc, hclose, if_true, if_false, Bool.false_eq_true] using h
  | case6 c cs hc hclose ih =>
    obtain ⟨i, hi, rfl⟩ := map_eq_ok_iff.1 h
    rw [List.cons_append, attributeChars.eq_def]
    simp only [hc, hclose, if_false, Bool.false_eq_true, ih hi]
    rfl

theorem textChars_append {depth : Nat} {cs : List Char} {r : List Char × Nat}
    (h : textChars depth cs = some r) (tail : List Char) :
    textChars depth (cs ++ tail) = some r := by
  fun_induction textChars depth cs generalizing r with
  | case1 => simp at h
  | case2 => simp at h
  | case3 depth c hc d cs ih =>
    obtain ⟨q, hq, rfl⟩ := Option.map_eq_some_iff.1 h
    obtain rfl := eq_of_beq hc
    rw [List.cons_append, List.cons_append, textChars_pair, ih hq]
    rfl
  | case4 c cs _ hc =>
    obtain rfl := eq_of_beq hc
    rw [List.cons_append, textChars_close_zero, ← h]
  | case5 c cs _ hc depth ih =>
    obtain ⟨q, hq, rfl⟩ := Option.map_eq_some_iff.1 h
    obtain rfl := eq_of_beq hc
    rw [List.cons_append, textChars_close_succ, ih hq]
    rfl
  | case6 depth c cs hb hc ih =>
    obtain ⟨q, hq, rfl⟩ := Option.map_eq_some_iff.1 h
    rw [List.cons_append, textChars.eq_def]
    simp only [hb, hc, Bool.false_eq_true, if_false, ih hq]
    rfl

/-! ## Tokens -/

/-- A closing parenthesis after an abbreviation changes none of its tokens. -/
theorem Begins.close {lexeme : Lexeme} {spelling rest : List Char}
    (h : Begins lexeme spelling rest) (hlast : (spelling ++ rest).getLast? ≠ some '\\')
    (tail : List Char) : Begins lexeme spelling (rest ++ ')' :: tail) := by
  cases h with
  | sign rest h => exact .sign _ h
  | @times digits _ h =>
    refine .times ?_
    rw [← List.append_assoc, List.takeWhile_append, h]
    split
    next hlen =>
      obtain rfl : rest = [] := by simpa using hlen
      rw [List.takeWhile_cons_of_neg (by decide), List.append_nil, List.append_nil]
    next => rfl
  | attributes h =>
    refine .attributes ?_
    rw [← List.cons_append, ← List.append_assoc]
    exact attributeChars_append h _
  | text h =>
    refine .text ?_
    rw [← List.cons_append, ← List.append_assoc]
    exact textChars_append h _
  | literal hc h =>
    refine .literal hc ?_
    rw [← List.append_assoc, literalChars_close hlast, h]

/-- The tokens of an abbreviation that goes on with a closing parenthesis; they may begin at another
offset. -/
theorem Spells.close {pos : Nat} {spelled : List (Token × List Char)} {cs : List Char}
    (h : Spells pos spelled cs) (hlast : cs.getLast? ≠ some '\\') (pos' : Nat)
    {more : List (Token × List Char)} {tail : List Char}
    (hmore : Spells (pos' + cs.length) more (')' :: tail)) :
    ∃ spelled', Spells pos' (spelled' ++ more) (cs ++ ')' :: tail) ∧
      List.Forall₂ (fun p q ↦ p.1.lexeme = q.1.lexeme) spelled spelled' := by
  induction h generalizing pos' with
  | nil => exact ⟨[], hmore, .nil⟩
  | @cons pos lexeme spelling rest others first _ ih =>
    have hrest : rest.getLast? ≠ some '\\' := by
      intro hr
      rw [List.getLast?_append, hr] at hlast
      exact hlast rfl
    obtain ⟨others', hothers, hsame⟩ := ih hrest (pos' + spelling.length)
      (by rwa [List.length_append, ← Nat.add_assoc] at hmore)
    refine ⟨(⟨lexeme, pos'⟩, spelling) :: others', ?_, .cons rfl hsame⟩
    rw [List.append_assoc]
    exact .cons (first.close hlast tail) hothers

/-! ## Reading on -/

/-- Trees that differ at most in their offsets. -/
abbrev Likeness.same : Likeness := ⟨Eq, Eq, Eq⟩

/-- Tokens of the same kinds with others after them. -/
inductive Continues (tail : List Token) : List Token → List Token → Prop where
  | nil : Continues tail [] tail
  | cons {ts us : List Token} (lexeme : Lexeme) (o o' : Nat) (h : Continues tail ts us) :
      Continues tail (⟨lexeme, o⟩ :: ts) (⟨lexeme, o'⟩ :: us)

theorem Continues.of_forall₂ {tail ts us : List Token}
    (h : List.Forall₂ (fun t u : Token ↦ t.lexeme = u.lexeme) ts us) :
    Continues tail ts (us ++ tail) := by
  induction h with
  | nil => exact .nil
  | @cons t u ts us htu _ ih =>
    obtain ⟨lexeme, o⟩ := t
    obtain ⟨_, o'⟩ := u
    obtain rfl := htu
    exact .cons _ o o' ih

/-- The attributes of a set do not depend on where it stands. -/
theorem AttributeSet.read_ok {pos pos' : Nat} {inner : String} {as : List Attribute}
    (h : read pos inner = .ok as) : read pos' inner = .ok as := by
  have hvalue : ∀ {cs r} {p p' : Nat}, valueChars p cs = .ok r → valueChars p' cs = .ok r := by
    intro cs r p p' h
    cases cs with
    | nil => exact h
    | cons c cs =>
      rw [valueChars] at h ⊢
      split at h
      · next hc => rwa [if_pos hc]
      · next hc =>
        rw [if_neg hc]
        split at h
        · next hq =>
          rw [if_pos hq]
          split at h
          · exact h
          · cases h
        · next hq => rwa [if_neg hq]
  have hstep : ∀ {cs r} {p p' : Nat}, step p cs = .ok r → step p' cs = .ok r := by
    intro cs r p p' h
    rw [step] at h ⊢
    split at h
    · next hc => rwa [if_pos hc]
    · next hc =>
      rw [if_neg hc]
      dsimp only at h ⊢
      split at h
      · cases h
      · next hname =>
        rw [if_neg hname]
        split at h
        · obtain ⟨⟨value, size⟩, hv, h⟩ := bind_eq_ok_iff.1 h
          exact bind_eq_ok_iff.2 ⟨_, hvalue hv, h⟩
        · exact h
  have htile : ∀ {cs} {p p' skip : Nat} {as : List Attribute},
      Text.tileFrom step p skip cs = .ok as → Text.tileFrom step p' skip cs = .ok as := by
    intro cs
    induction cs with
    | nil => intro p p' skip as h; simpa using h
    | cons c cs ih =>
      intro p p' skip as h
      cases skip with
      | succ skip => exact ih h
      | zero =>
        obtain ⟨⟨out, size⟩, hs, h⟩ := bind_eq_ok_iff.1 h
        obtain ⟨rest, hr, h⟩ := bind_eq_ok_iff.1 h
        exact bind_eq_ok_iff.2 ⟨_, hstep hs, bind_eq_ok_iff.2 ⟨_, ih hr, h⟩⟩
  exact htile h

/-- An element at another offset. -/
def Element.placed (e : Element) (offset : Nat) : Element := { e with offset }

theorem Element.fold_placed (e : Element) (a : Attribute) (offset : Nat) :
    (e.placed offset).fold a = (e.fold a).placed offset := by
  have hclass : ∀ (e : Element) (v : Value),
      (e.placed offset).addClass v = (e.addClass v).placed offset := by
    intro e v
    rw [Element.addClass, Element.addClass]
    split
    · next h => rw [if_pos (by exact h)]
    · next h => rw [if_neg (by exact h)]; rfl
  have hclasses : ∀ (vs : List Value) (e : Element),
      vs.foldl Element.addClass (e.placed offset)
        = (vs.foldl Element.addClass e).placed offset := by
    intro vs
    induction vs with
    | nil => exact fun _ ↦ rfl
    | cons v vs ih => exact fun e ↦ by rw [List.foldl_cons, List.foldl_cons, hclass, ih]
  rw [Element.fold, Element.fold]
  split
  · rfl
  · split
    · exact hclasses _ e
    · rfl

namespace Tree

section Continuing

variable {stop stop' close : Nat} {more : Tokens}

theorem foldl_fold_placed (as : List Attribute) (e : Element) (offset : Nat) :
    as.foldl Element.fold (e.placed offset) = (as.foldl Element.fold e).placed offset := by
  induction as generalizing e with
  | nil => rfl
  | cons a as ih => rw [List.foldl_cons, List.foldl_cons, Element.fold_placed, ih]

theorem addClass_placed (e : Element) (v : Value) (offset : Nat) :
    (e.placed offset).addClass v = (e.addClass v).placed offset := by
  rw [Element.addClass, Element.addClass]
  split
  · next h => rw [if_pos (by exact h)]
  · next h => rw [if_neg (by exact h)]; rfl

variable (stop') in
/-- The modifiers of an element do not depend on where it begins and what comes after them. -/
theorem modifiers_continues {e e₁ : Element} {ts us rest : Tokens}
    (h : modifiers stop e ts = .ok (e₁, rest))
    (hc : Continues (⟨.groupClose, close⟩ :: more) ts us) (offset : Nat) :
    ∃ rest', modifiers stop' (e.placed offset) us = .ok (e₁.placed offset, rest') ∧
      Continues (⟨.groupClose, close⟩ :: more) rest rest' := by
  fun_induction modifiers stop e ts generalizing us with
  | case1 e _ text _ rest ih =>
    cases hc with | cons _ _ o hc => cases hc with | cons _ _ o' hc =>
    obtain ⟨rest', h', hrest⟩ := ih h hc
    exact ⟨rest', by rw [modifiers]; exact h', hrest⟩
  | case2 => simp at h
  | case3 e _ text _ rest ih =>
    cases hc with | cons _ _ o hc => cases hc with | cons _ _ o' hc =>
    obtain ⟨rest', h', hrest⟩ := ih h hc
    exact ⟨rest', by rw [modifiers, addClass_placed]; exact h', hrest⟩
  | case4 => simp at h
  | case5 e inner o₁ rest ih =>
    cases hc with | cons _ _ o hc =>
    obtain ⟨attributes, hread, h⟩ := bind_eq_ok_iff.1 h
    obtain ⟨rest', h', hrest⟩ := ih attributes h hc
    refine ⟨rest', ?_, hrest⟩
    rw [modifiers]
    refine bind_eq_ok_iff.2 ⟨attributes, AttributeSet.read_ok hread, ?_⟩
    rwa [foldl_fold_placed]
  | case6 e inner o₁ rest ih =>
    cases hc with | cons _ _ o hc =>
    obtain ⟨rest', h', hrest⟩ := ih h hc
    exact ⟨rest', by rw [modifiers]; exact h', hrest⟩
  | case7 e ts h₁ h₂ h₃ h₄ h₅ h₆ =>
    cases h
    refine ⟨us, ?_, hc⟩
    cases hc with
    | nil => simp [modifiers]
    | cons lexeme o o' hc =>
      cases lexeme with
      | hash => exact (h₂ _ _ rfl).elim
      | dot => exact (h₄ _ _ rfl).elim
      | attributes inner => exact (h₅ _ _ _ rfl).elim
      | text inner => exact (h₆ _ _ _ rfl).elim
      | _ => rfl

theorem multiplier_ok {digits : String} {o o' : Nat} {m : Multiplier}
    (h : multiplier digits o = .ok m) : multiplier digits o' = .ok m := by
  rw [multiplier] at h ⊢
  split at h
  · cases h
  · next hd =>
    rw [if_neg hd]
    split at h
    · cases h
    · cases h
    · exact h

theorem mark_continues {e e₁ : Element} {times times₁ : Option Multiplier} {ts us rest : Tokens}
    (h : mark e times ts = .ok (e₁, times₁, rest))
    (hc : Continues (⟨.groupClose, close⟩ :: more) ts us) (offset : Nat) :
    ∃ rest', mark (e.placed offset) times us = .ok (e₁.placed offset, times₁, rest') ∧
      Continues (⟨.groupClose, close⟩ :: more) rest rest' := by
  cases hc with
  | nil =>
    cases h
    exact ⟨_, rfl, .nil⟩
  | cons lexeme o o' hc =>
    cases lexeme with
    | times digits =>
      rw [mark] at h ⊢
      split at h
      next ht =>
        obtain ⟨m, hm, h⟩ := bind_eq_ok_iff.1 h
        cases h
        exact ⟨_, by rw [if_pos ht, multiplier_ok hm]; rfl, hc⟩
      next ht =>
        cases h
        exact ⟨_, by rw [if_neg ht], .cons _ _ _ hc⟩
    | close =>
      cases h
      exact ⟨_, rfl, hc⟩
    | _ =>
      cases h
      exact ⟨_, rfl, .cons _ _ _ hc⟩

theorem nodeOf_placed (e : Element) (times : Option Multiplier) (offset : Nat) :
    (nodeOf e times).Like .same (nodeOf (e.placed offset) times) := by
  have hrel : ∀ o : Option Value, Option.Rel Eq o o := by
    rintro (_ | v)
    · exact .none
    · exact .some rfl
  have hlike : e.Like .same (e.placed offset) :=
    ⟨rfl, hrel _, List.forall₂_same.2 fun _ _ ↦ rfl, List.forall₂_same.2 fun _ _ ↦ rfl, hrel _, rfl⟩
  rw [nodeOf, nodeOf]
  have hbare : (e.placed offset).isBare = e.isBare := rfl
  have htext : (e.placed offset).text = e.text := rfl
  rw [htext]
  cases e.text with
  | none => exact .element hlike rfl .nil
  | some text =>
    dsimp only
    rw [hbare]
    split
    · exact .text _ _ rfl rfl
    · exact .element hlike rfl .nil

theorem finish_continues {e : Element} {node : Node} {ts us rest : Tokens}
    (h : finish stop e ts = .ok (node, rest))
    (hc : Continues (⟨.groupClose, close⟩ :: more) ts us) (offset : Nat) :
    ∃ node' rest', finish stop' (e.placed offset) us = .ok (node', rest') ∧
      node.Like .same node' ∧ Continues (⟨.groupClose, close⟩ :: more) rest rest' := by
  obtain ⟨⟨e₁, rest₁⟩, h₁, h⟩ := bind_eq_ok_iff.1 h
  obtain ⟨⟨e₂, times₂, rest₂⟩, h₂, h⟩ := bind_eq_ok_iff.1 h
  obtain ⟨⟨e₃, times₃, rest₃⟩, h₃, h⟩ := bind_eq_ok_iff.1 h
  cases h
  obtain ⟨us₁, h₁', hc₁⟩ := modifiers_continues stop' h₁ hc offset
  obtain ⟨us₂, h₂', hc₂⟩ := mark_continues h₂ hc₁ offset
  obtain ⟨us₃, h₃', hc₃⟩ := mark_continues h₃ hc₂ offset
  exact ⟨_, us₃, bind_eq_ok_iff.2 ⟨_, h₁', bind_eq_ok_iff.2 ⟨_, h₂',
    bind_eq_ok_iff.2 ⟨_, h₃', rfl⟩⟩⟩, nodeOf_placed _ _ _, hc₃⟩

theorem element_continues {node : Node} {ts us rest : Tokens}
    (h : element stop ts = .ok (node, rest))
    (hc : Continues (⟨.groupClose, close⟩ :: more) ts us) :
    ∃ node' rest', element stop' us = .ok (node', rest') ∧
      node.Like .same node' ∧ Continues (⟨.groupClose, close⟩ :: more) rest rest' := by
  cases hc with
  | nil => simp [element] at h
  | @cons ts us lexeme o o' hc =>
    have hother : startsElement lexeme = true → (∀ name, lexeme ≠ .literal name) →
        ∃ node' rest', element stop' (⟨lexeme, o'⟩ :: us) = .ok (node', rest') ∧
          node.Like .same node' ∧ Continues (⟨.groupClose, close⟩ :: more) rest rest' := by
      intro hs hl
      rw [element.eq_def] at h ⊢
      cases lexeme with
      | literal name => exact (hl name rfl).elim
      | _ =>
        simp only [hs, if_true] at h ⊢
        exact finish_continues h (.cons _ o o' hc) o'
    have hs := startsElement_of_element h
    by_cases hl : ∃ name, lexeme = .literal name
    · obtain ⟨name, rfl⟩ := hl
      exact finish_continues h hc o'
    · exact hother hs fun name hname ↦ hl ⟨name, hname⟩

theorem climbs_continues {ts us : Tokens}
    (hc : Continues (⟨.groupClose, close⟩ :: more) ts us) :
    (climbs us).1 = (climbs ts).1 ∧
      Continues (⟨.groupClose, close⟩ :: more) (climbs ts).2 (climbs us).2 := by
  induction hc with
  | nil => exact ⟨rfl, .nil⟩
  | cons lexeme o o' hc ih =>
    cases lexeme with
    | climb => exact ⟨congrArg Nat.succ ih.1, ih.2⟩
    | _ => exact ⟨rfl, .cons _ _ _ hc⟩

theorem atEnd_continues {ts us : Tokens} (hc : Continues (⟨.groupClose, close⟩ :: more) ts us) :
    atEnd us = atEnd ts := by
  cases hc with
  | nil => rfl
  | cons lexeme o o' hc => cases lexeme <;> rfl

theorem hasOperand_continues {ts us : Tokens}
    (hc : Continues (⟨.groupClose, close⟩ :: more) ts us) : hasOperand us = hasOperand ts := by
  cases hc with
  | nil => rfl
  | cons => rfl

theorem operator_continues {node node' : Node} (hn : node.isText = node'.isText)
    {level next : Nat} {ts us rest : Tokens} (h : operator node level ts = .ok (next, rest))
    (hend : atEnd ts = false) (hc : Continues (⟨.groupClose, close⟩ :: more) ts us) :
    ∃ rest', operator node' level us = .ok (next, rest') ∧
      Continues (⟨.groupClose, close⟩ :: more) rest rest' := by
  cases hc with
  | nil => simp [atEnd] at hend
  | cons lexeme o o' hc =>
    cases lexeme with
    | child =>
      rw [operator] at h ⊢
      rw [← hn]
      split at h
      · cases h
      · next ht =>
        cases h
        exact ⟨_, by rw [if_neg ht], hc⟩
    | sibling =>
      cases h
      exact ⟨_, rfl, hc⟩
    | climb =>
      obtain ⟨hcount, hrest⟩ := climbs_continues hc
      cases h
      exact ⟨_, by rw [← hcount]; rfl, hrest⟩
    | _ => cases h

/-- Items at the same levels, with nodes that are alike. -/
abbrev Items (R : Likeness) : List (Nat × Node) → List (Nat × Node) → Prop :=
  List.Forall₂ fun a b ↦ a.1 = b.1 ∧ a.2.Like R b.2

/-- What a pass reads, it reads with a closing parenthesis after it, too. -/
def Resumes (more : Tokens) (close : Nat)
    (inside inside' : Tokens → Except Fault (List (Nat × Node) × Tokens)) : Prop :=
  ∀ ts us items rest, inside ts = .ok (items, rest) →
    Continues (⟨.groupClose, close⟩ :: more) ts us →
    ∃ items' rest', inside' us = .ok (items', rest') ∧ Items .same items items' ∧
      Continues (⟨.groupClose, close⟩ :: more) rest rest'

theorem mapLast_like {R : Likeness} {f g : Node → Node}
    (hfg : ∀ n m : Node, n.Like R m → (f n).Like R (g m)) :
    ∀ {ns ms : List Node}, Node.AllLike R ns ms → Node.AllLike R (mapLast f ns) (mapLast g ms)
  | _, _, .nil => .nil
  | _, _, .cons hn .nil => .cons (hfg _ _ hn) .nil
  | _, _, .cons hn (.cons hm hns) => .cons hn (mapLast_like hfg (.cons hm hns))

theorem attach_like {R : Likeness} {n m : Node} (h : n.Like R m) (level : Nat)
    {ns ms : List Node} (hns : Node.AllLike R ns ms) :
    Node.AllLike R (attach level n ns) (attach level m ms) := by
  induction level generalizing ns ms with
  | zero => exact hns.append (.singleton h)
  | succ level ih =>
    refine mapLast_like (fun k l hkl ↦ ?_) hns
    cases hkl with
    | element he ht hc => exact .element he ht (ih hc)
    | text i j hv ht => exact .text i j hv ht
    | group i j ht hc => exact .group i j ht (ih hc)

/-- Items that are alike hang in trees that are alike. -/
theorem nest_like {R : Likeness} {items items' : List (Nat × Node)} (h : Items R items items') :
    Node.AllLike R (nest items) (nest items') := by
  suffices hfold : ∀ ns ms : List Node, Node.AllLike R ns ms →
      Node.AllLike R (items.foldl (fun nodes item ↦ attach item.1 item.2 nodes) ns)
        (items'.foldl (fun nodes item ↦ attach item.1 item.2 nodes) ms) from hfold [] [] .nil
  induction h with
  | nil => exact fun _ _ hns ↦ hns
  | @cons a b items items' hab _ ih =>
    intro ns ms hns
    rw [List.foldl_cons, List.foldl_cons, hab.1]
    exact ih _ _ (attach_like hab.2 b.1 hns)

/-- An item that is no group is an element. -/
theorem item_of_ne_groupOpen {lexeme : Lexeme} (hopen : lexeme ≠ .groupOpen) (stop offset : Nat)
    (inside : Tokens → Except Fault (List (Nat × Node) × Tokens)) (ts : Tokens) :
    item stop inside (⟨lexeme, offset⟩ :: ts)
      = if isOperator lexeme then .error (.malformed .noLeftOperand offset)
        else element stop (⟨lexeme, offset⟩ :: ts) := by
  cases lexeme with
  | groupOpen => exact (hopen rfl).elim
  | _ => rfl

variable (stop') in
theorem item_continues {inside inside' : Tokens → Except Fault (List (Nat × Node) × Tokens)}
    (hin : Resumes more close inside inside') {node : Node} {ts us rest : Tokens}
    (h : item stop inside ts = .ok (node, rest))
    (hc : Continues (⟨.groupClose, close⟩ :: more) ts us) :
    ∃ node' rest', item stop' inside' us = .ok (node', rest') ∧
      node.Like .same node' ∧ Continues (⟨.groupClose, close⟩ :: more) rest rest' := by
  cases hc with
  | nil => simp [item] at h
  | @cons ts us lexeme o o' hc =>
    by_cases hopen : lexeme = .groupOpen
    · subst hopen
      obtain ⟨⟨items, rest₁⟩, h₁, h⟩ := bind_eq_ok_iff.1 h
      obtain ⟨items', rest₁', h₁', hitems, hc₁⟩ := hin _ _ _ _ h₁ hc
      dsimp only at h
      split at h
      next rest₂ =>
        cases hc₁ with | @cons _ us₂ _ _ o₂ hc₂ =>
        split at h
        next => cases h
        next hempty =>
          have hempty' : ¬ items'.isEmpty = true := by
            cases hitems with
            | nil => exact hempty
            | cons => simp
          split at h
          next digits o₃ rest₃ =>
            obtain ⟨m, hm, h⟩ := bind_eq_ok_iff.1 h
            cases h
            cases hc₂ with | @cons _ us₃ _ _ o₃' hc₃ =>
            refine ⟨.group (nest items') (some m) o', us₃, ?_, .group o o' rfl (nest_like hitems),
              hc₃⟩
            refine bind_eq_ok_iff.2 ⟨_, h₁', ?_⟩
            simp only [hempty', Bool.false_eq_true, if_false]
            exact bind_eq_ok_iff.2 ⟨m, multiplier_ok hm, rfl⟩
          next hnotimes =>
            cases h
            refine ⟨.group (nest items') none o', us₂, ?_, .group o o' rfl (nest_like hitems), hc₂⟩
            refine bind_eq_ok_iff.2 ⟨_, h₁', ?_⟩
            simp only [hempty', Bool.false_eq_true, if_false]
            cases hc₂ with
            | nil => rfl
            | cons lexeme o₃ o₃' hc₃ =>
              cases lexeme with
              | times digits => exact (hnotimes _ _ _ rfl).elim
              | _ => rfl
      next => cases h
    · rw [item_of_ne_groupOpen hopen] at h ⊢
      split at h
      next => cases h
      next hop =>
        rw [if_neg hop]
        exact element_continues h (.cons _ o o' hc)

variable (stop') in
/-- **A row of items in parentheses.**  What is read of tokens is read of tokens of the same kinds
with a closing parenthesis after them. -/
theorem statements_continues {fuel fuel' level : Nat} (hfuel : fuel ≤ fuel')
    {items : List (Nat × Node)} {ts us rest : Tokens}
    (h : statements stop fuel level ts = .ok (items, rest))
    (hc : Continues (⟨.groupClose, close⟩ :: more) ts us) :
    ∃ items' rest', statements stop' fuel' level us = .ok (items', rest') ∧
      Items .same items items' ∧ Continues (⟨.groupClose, close⟩ :: more) rest rest' := by
  induction fuel generalizing fuel' level items ts us rest with
  | zero => simp [statements] at h
  | succ fuel ih =>
    obtain ⟨fuel', rfl⟩ : ∃ k, fuel' = k + 1 := ⟨fuel' - 1, by omega⟩
    have hle : fuel ≤ fuel' := by omega
    rw [statements] at h ⊢
    rw [atEnd_continues hc]
    split at h
    next hend =>
      cases h
      exact ⟨[], us, by rw [if_pos hend], .nil, hc⟩
    next hend =>
      rw [if_neg hend]
      obtain ⟨⟨node, rest₁⟩, h₁, h⟩ := bind_eq_ok_iff.1 h
      obtain ⟨node', rest₁', h₁', hnode, hc₁⟩ :=
        item_continues stop' (fun ts us items rest h hc ↦ ih hle h hc) h₁ hc
      have hat := atEnd_continues hc₁
      dsimp only at h
      split at h
      next hend₁ =>
        cases h
        refine ⟨[(level, node')], rest₁', bind_eq_ok_iff.2 ⟨_, h₁', ?_⟩,
          .cons ⟨rfl, hnode⟩ .nil, hc₁⟩
        dsimp only
        rw [hat, if_pos hend₁]
        rfl
      next hend₁ =>
        obtain ⟨⟨next, after⟩, h₂, h⟩ := bind_eq_ok_iff.1 h
        have htext : node.isText = node'.isText := by cases hnode <;> rfl
        obtain ⟨after', h₂', hc₂⟩ := operator_continues htext h₂ (by simpa using hend₁) hc₁
        dsimp only at h
        split at h
        next hoperand =>
          obtain ⟨⟨items₃, rest₃⟩, h₃, h⟩ := bind_eq_ok_iff.1 h
          cases h
          obtain ⟨items₃', rest₃', h₃', hitems, hc₃⟩ := ih hle h₃ hc₂
          refine ⟨(level, node') :: items₃', rest₃', bind_eq_ok_iff.2 ⟨_, h₁', ?_⟩,
            .cons ⟨rfl, hnode⟩ hitems, hc₃⟩
          dsimp only
          rw [hat, if_neg hend₁]
          refine bind_eq_ok_iff.2 ⟨_, h₂', ?_⟩
          dsimp only
          rw [hasOperand_continues hc₂, if_pos hoperand]
          exact bind_eq_ok_iff.2 ⟨_, h₃', rfl⟩
        next => cases h

/-- A row of items that was read as a whole is the inside of a group. -/
theorem item_group {fuel fuel' : Nat} (hfuel : fuel ≤ fuel') {items : List (Nat × Node)}
    {ts us : Tokens} (h : statements stop fuel 0 ts = .ok (items, [])) (hne : items ≠ [])
    (hc : Continues (⟨.groupClose, close⟩ :: more) ts us) (offset : Nat) :
    ∃ nodes, Node.AllLike .same (nest items) nodes ∧
      (∀ digits o rest m, more = ⟨.times digits, o⟩ :: rest → multiplier digits o = .ok m →
        item stop' (statements stop' fuel' 0) (⟨.groupOpen, offset⟩ :: us)
          = .ok (.group nodes (some m) offset, rest)) ∧
      ((∀ digits o rest, more ≠ ⟨.times digits, o⟩ :: rest) →
        item stop' (statements stop' fuel' 0) (⟨.groupOpen, offset⟩ :: us)
          = .ok (.group nodes none offset, more)) := by
  obtain ⟨items', rest', h', hitems, hrest⟩ := statements_continues stop' hfuel h hc
  cases hrest
  have hempty : items'.isEmpty = false := by
    cases hitems with
    | nil => exact (hne rfl).elim
    | cons => rfl
  refine ⟨nest items', nest_like hitems, ?_, ?_⟩
  · rintro digits o rest m rfl hm
    refine bind_eq_ok_iff.2 ⟨_, h', ?_⟩
    simp only [hempty, Bool.false_eq_true, if_false]
    exact bind_eq_ok_iff.2 ⟨m, hm, rfl⟩
  · intro hnotimes
    refine bind_eq_ok_iff.2 ⟨_, h', ?_⟩
    simp only [hempty, Bool.false_eq_true, if_false]
    rfl

end Continuing

/-! ## Repeated and copied abbreviations -/

/-- The abbreviation of a group with a multiplier. -/
def repeated (s : String) (n : Nat) : String := "(" ++ s ++ ")*" ++ toString n

/-- The abbreviation of as many groups next to each other. -/
def copied (s : String) (n : Nat) : String :=
  "+".intercalate (List.replicate n ("(" ++ s ++ ")"))

theorem toList_repeated (s : String) (n : Nat) :
    (repeated s n).toList = '(' :: (s.toList ++ ')' :: '*' :: Nat.toDigits 10 n) := by
  simp [repeated]

theorem toList_copied_one (s : String) : (copied s 1).toList = '(' :: (s.toList ++ [')']) := by
  simp [copied]

theorem toList_copied_succ (s : String) (n : Nat) :
    (copied s (n + 2)).toList = '(' :: (s.toList ++ ')' :: '+' :: (copied s (n + 1)).toList) := by
  have hne : List.replicate (n + 1) ("(" ++ s ++ ")") ≠ [] := by simp
  rw [copied, List.replicate_succ, String.intercalate_cons_of_ne_nil hne, ← copied]
  simp

/-- What is known of an abbreviation that is read. -/
theorem exists_row_of_parse {s : String} {nodes : List Node} (h : parse s = .ok nodes) :
    ∃ spelled items, Spells 0 spelled s.toList ∧
      statements s.length (spelled.length + 1) 0 (spelled.map Prod.fst) = .ok (items, []) ∧
      items ≠ [] ∧ nest items = nodes := by
  rw [parse, located_eq_ok_iff] at h
  obtain ⟨tokens, htokens, h⟩ := bind_eq_ok_iff.1 h
  obtain ⟨spelled, hspells, rfl⟩ := Token.exists_spells htokens
  rw [ofTokens] at h
  split at h
  · cases h
  next hne =>
    obtain ⟨⟨items, rest⟩, hrow, h⟩ := bind_eq_ok_iff.1 h
    rw [List.length_map] at hrow
    cases rest with
    | cons => cases h
    | nil =>
      cases h
      refine ⟨spelled, items, hspells, hrow, ?_, rfl⟩
      rintro rfl
      rw [statements] at hrow
      split at hrow
      · obtain ⟨-, hnil⟩ := Prod.mk.inj (Except.ok.inj hrow)
        exact hne (by rw [hnil]; rfl)
      · obtain ⟨⟨node, rest₁⟩, -, hrow⟩ := bind_eq_ok_iff.1 hrow
        dsimp only at hrow
        split at hrow
        · cases hrow
        · obtain ⟨⟨next, after⟩, -, hrow⟩ := bind_eq_ok_iff.1 hrow
          dsimp only at hrow
          split at hrow
          · obtain ⟨⟨items₃, rest₃⟩, -, hrow⟩ := bind_eq_ok_iff.1 hrow
            cases hrow
          · cases hrow

theorem Spells.sign {pos : Nat} {c : Char} {lexeme : Lexeme} (h : Lexeme.ofChar? c = some lexeme)
    {more : List (Token × List Char)} {rest : List Char} (others : Spells (pos + 1) more rest) :
    Spells pos ((⟨lexeme, pos⟩, [c]) :: more) (c :: rest) :=
  Spells.cons (Begins.sign rest h) others

/-- An abbreviation that is read is read as a group where it stands in parentheses. -/
theorem exists_group {s : String} {nodes : List Node} (h : parse s = .ok nodes)
    (hlast : s.toList.getLast? ≠ some '\\') (pos : Nat) {more : List (Token × List Char)}
    {tail : List Char} (hmore : Spells (pos + 1 + s.toList.length + 1) more tail) :
    ∃ inner, Spells pos ((⟨.groupOpen, pos⟩, ['(']) :: inner) ('(' :: (s.toList ++ ')' :: tail)) ∧
      more.length < inner.length ∧
      ∀ stop fuel, inner.length ≤ fuel → ∃ nodes', Node.AllLike .same nodes nodes' ∧
        (∀ digits o rest m, more.map Prod.fst = ⟨.times digits, o⟩ :: rest →
          multiplier digits o = .ok m →
          item stop (statements stop fuel 0) (⟨.groupOpen, pos⟩ :: inner.map Prod.fst)
            = .ok (.group nodes' (some m) pos, rest)) ∧
        ((∀ digits o rest, more.map Prod.fst ≠ ⟨.times digits, o⟩ :: rest) →
          item stop (statements stop fuel 0) (⟨.groupOpen, pos⟩ :: inner.map Prod.fst)
            = .ok (.group nodes' none pos, more.map Prod.fst)) := by
  obtain ⟨spelled, items, hspells, hrow, hne, rfl⟩ := exists_row_of_parse h
  obtain ⟨spelled', hspells', hsame⟩ := hspells.close hlast (pos + 1)
    (Spells.sign (rfl : Lexeme.ofChar? ')' = some .groupClose) hmore)
  refine ⟨_, Spells.sign (rfl : Lexeme.ofChar? '(' = some .groupOpen) hspells', ?_, ?_⟩
  · simp only [List.length_append, List.length_cons]
    omega
  · intro stop fuel hfuel
    have hlexemes : List.Forall₂ (fun t u : Token ↦ t.lexeme = u.lexeme) (spelled.map Prod.fst)
        (spelled'.map Prod.fst) := by
      rw [List.forall₂_map_left_iff, List.forall₂_map_right_iff]
      exact hsame
    have hle : spelled.length + 1 ≤ fuel := by
      have := hsame.length_eq
      simp only [List.length_append, List.length_cons] at hfuel
      omega
    rw [List.map_append]
    exact item_group hle hrow hne (Continues.of_forall₂ hlexemes) pos

theorem nest_top (nodes : List Node) : nest (nodes.map (0, ·)) = nodes := by
  suffices h : ∀ before : List Node,
      (nodes.map ((0 : Nat), ·)).foldl (fun nodes item ↦ attach item.1 item.2 nodes) before
        = before ++ nodes from h []
  induction nodes with
  | nil => simp
  | cons n nodes ih => intro before; simp [ih, attach]

/-- A text is read from its tokens. -/
theorem parse_of_spells {s : String} {spelled : List (Token × List Char)}
    (h : Spells 0 spelled s.toList) (hne : spelled ≠ []) {items : List (Nat × Node)}
    (hrow : statements s.length (spelled.length + 1) 0 (spelled.map Prod.fst) = .ok (items, [])) :
    parse s = .ok (nest items) := by
  have hempty : (spelled.map Prod.fst).isEmpty = false := by simpa using hne
  rw [parse, located_eq_ok_iff]
  refine bind_eq_ok_iff.2 ⟨_, h.tokens, ?_⟩
  rw [ofTokens, hempty, List.length_map]
  exact bind_eq_ok_iff.2 ⟨_, hrow, rfl⟩

/-- **A repeated abbreviation** is a group of what the abbreviation is. -/
theorem parse_repeated {s : String} {nodes : List Node} (h : parse s = .ok nodes)
    (hlast : s.toList.getLast? ≠ some '\\') {n : Nat} (hn : 1 ≤ n) :
    ∃ nodes', parse (repeated s n) = .ok [.group nodes' (some { count := n }) 0] ∧
      Node.AllLike .same nodes nodes' := by
  have htimes : ∀ pos, Spells pos [(⟨.times (toString n), pos⟩, '*' :: Nat.toDigits 10 n)]
      ('*' :: Nat.toDigits 10 n) := by
    intro pos
    have hdigits := Text.takeWhile_isDigit_toDigits n []
    rw [List.takeWhile_nil, List.append_nil] at hdigits
    have hbegins : Begins (.times (toString n)) ('*' :: Nat.toDigits 10 n) [] := by
      rw [Nat.toString_eq_ofList_toDigits]
      exact .times (by rw [List.append_nil, hdigits])
    simpa using Spells.cons hbegins (.nil _)
  obtain ⟨inner, hspells, -, hitem⟩ := exists_group h hlast 0 (htimes _)
  obtain ⟨nodes', hlike, hitem, -⟩ := hitem (repeated s n).length (inner.length + 1) (by omega)
  have hitem := hitem _ _ _ _ rfl (multiplier_toString hn _)
  refine ⟨nodes', ?_, hlike⟩
  rw [← toList_repeated] at hspells
  refine (parse_of_spells hspells (by simp) ?_ : parse (repeated s n)
    = .ok (nest [(0, .group nodes' (some { count := n }) 0)]))
  rw [List.length_cons, statements]
  exact bind_eq_ok_iff.2 ⟨_, hitem, rfl⟩

/-- **A copied abbreviation** is a row of groups of what the abbreviation is. -/
theorem parse_copied {s : String} {nodes : List Node} (h : parse s = .ok nodes)
    (hlast : s.toList.getLast? ≠ some '\\') {n : Nat} (hn : 1 ≤ n) :
    ∃ groups, parse (copied s n) = .ok groups ∧ groups.length = n ∧
      ∀ g ∈ groups, ∃ nodes' offset, g = .group nodes' none offset ∧
        Node.AllLike .same nodes nodes' := by
  have hrow : ∀ n pos, ∃ inner, Spells pos ((⟨.groupOpen, pos⟩, ['(']) :: inner)
      (copied s (n + 1)).toList ∧
      ∀ stop fuel, inner.length + 2 ≤ fuel → ∃ groups : List Node,
        statements stop fuel 0 (⟨.groupOpen, pos⟩ :: inner.map Prod.fst)
          = .ok (groups.map (0, ·), []) ∧
        groups.length = n + 1 ∧ ∀ g ∈ groups, ∃ nodes' offset, g = .group nodes' none offset ∧
          Node.AllLike .same nodes nodes' := by
    intro n
    induction n with
    | zero =>
      intro pos
      obtain ⟨inner, hspells, -, hitem⟩ := exists_group h hlast pos (.nil _)
      refine ⟨inner, by rwa [toList_copied_one], fun stop fuel hfuel ↦ ?_⟩
      obtain ⟨fuel, rfl⟩ : ∃ k, fuel = k + 1 := ⟨fuel - 1, by omega⟩
      obtain ⟨nodes', hlike, -, hitem⟩ := hitem stop fuel (by omega)
      refine ⟨[.group nodes' none pos], ?_, rfl, ?_⟩
      · rw [statements]
        exact bind_eq_ok_iff.2 ⟨_, hitem (by simp), rfl⟩
      · intro g hg
        exact ⟨nodes', pos, List.mem_singleton.1 hg, hlike⟩
    | succ n ih =>
      intro pos
      obtain ⟨others, hothers, hgroups⟩ := ih (pos + 1 + s.toList.length + 1 + 1)
      obtain ⟨inner, hspells, hlen, hitem⟩ := exists_group h hlast pos
        (Spells.sign (rfl : Lexeme.ofChar? '+' = some .sibling) hothers)
      refine ⟨inner, by rwa [toList_copied_succ], fun stop fuel hfuel ↦ ?_⟩
      obtain ⟨fuel, rfl⟩ : ∃ k, fuel = k + 1 := ⟨fuel - 1, by omega⟩
      obtain ⟨nodes', hlike, -, hitem⟩ := hitem stop fuel (by omega)
      obtain ⟨groups, hrest, hcount, hall⟩ := hgroups stop fuel (by
        simp only [List.length_cons] at hlen
        omega)
      refine ⟨.group nodes' none pos :: groups, ?_, by rw [List.length_cons, hcount], ?_⟩
      · rw [statements]
        refine bind_eq_ok_iff.2 ⟨_, hitem (by simp), ?_⟩
        exact bind_eq_ok_iff.2 ⟨_, rfl, bind_eq_ok_iff.2 ⟨_, hrest, rfl⟩⟩
      · rw [List.forall_mem_cons]
        exact ⟨⟨nodes', pos, rfl, hlike⟩, hall⟩
  obtain ⟨n, rfl⟩ := Nat.exists_eq_add_of_le' hn
  obtain ⟨inner, hspells, hgroups⟩ := hrow n 0
  obtain ⟨groups, hstatements, hcount, hall⟩ := hgroups (copied s (n + 1)).length (inner.length + 2)
    (Nat.le_refl _)
  refine ⟨groups, ?_, hcount, hall⟩
  rw [parse_of_spells hspells (by simp) hstatements, nest_top]

end Tree

end Shorthand.Markup
