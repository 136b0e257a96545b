import Mathlib.Data.List.Induction
import Shorthand.Expansion
import Shorthand.Proofs.Markers
import Shorthand.Proofs.Numeral
import Shorthand.Proofs.Unrolling

/-!
# Escaped text

A text chunk takes any text, if the characters that mean something in it get a backslash.  Three
readers then see these backslashes, one after the other: the cutting into tokens drops them, except
those before dollar signs; the reader of fields passes over a backslash together with the character
after it; and numbering drops those before dollar signs.

They agree for most texts, but not for all, since a backslash that stands for itself has lost its
own backslash when the two later readers meet it.  At the end of the text it escapes what follows
the text; and before a dollar sign it is paired off with that sign's backslash, so that the sign may
begin a field.  `ReadsLiterally` excludes just that.

* `escape` : a text with a backslash before each of its special characters.
* `markupTree_escaped_text` : a text reads back, with the number of the copy behind it, exactly when
  it `ReadsLiterally`.
* `backslash_not_literal` : a single backslash does not.
-/

set_option autoImplicit false

namespace Shorthand.Markup.Escaping

/-! ## Escaping, and what the tokens keep of it -/

/-- A character that stands for something else than itself in a text chunk. -/
def isSpecial (c : Char) : Bool := c == '\\' || c == '$' || c == '\x7b' || c == '\x7d'

/-- A text with a backslash before each of its special characters. -/
def escape (cs : List Char) : List Char :=
  cs.flatMap fun c ↦ if isSpecial c then ['\\', c] else [c]

/-- What an escaped text is after tokens are cut: only dollar signs still have their backslash. -/
def halfEscaped (cs : List Char) : List Char := cs.flatMap unescaped

theorem isSpecial_eq_false_iff {c : Char} :
    isSpecial c = false ↔ c ≠ '\\' ∧ c ≠ '$' ∧ c ≠ '\x7b' ∧ c ≠ '\x7d' := by
  simp [isSpecial, and_assoc]

theorem textChars_escape (t rest : List Char) :
    textChars 0 (escape t ++ rest)
      = (textChars 0 rest).map fun r ↦ (halfEscaped t ++ r.1, r.2 + (escape t).length) := by
  induction t with
  | nil => simp [escape, halfEscaped]
  | cons c t ih =>
    rw [escape, List.flatMap_cons, ← escape, halfEscaped, List.flatMap_cons, ← halfEscaped,
      List.append_assoc]
    cases hc : isSpecial c with
    | true =>
      rw [if_pos rfl, List.cons_append, List.singleton_append, textChars_pair, ih, Option.map_map]
      congr 1
      funext r
      simp
      omega
    | false =>
      obtain ⟨h1, h2, h3, h4⟩ := isSpecial_eq_false_iff.1 hc
      rw [if_neg (by simp), List.singleton_append, textChars_other 0 ⟨h1, h3, h4⟩, ih,
        Option.map_map, unescaped_of_ne h2]
      rfl

/-! ## Fields -/

/-- Does a text hold a field marker after an odd number of backslashes?  The text is walked as the
reader of fields does it, a backslash together with the character after it. -/
def uncovers : List Char → Bool
  | '\\' :: '$' :: cs => (Field.read? ('$' :: cs)).isSome || uncovers cs
  | '\\' :: _ :: cs => uncovers cs
  | _ :: cs => uncovers cs
  | [] => false

theorem halfEscaped_cons (c : Char) (cs : List Char) :
    halfEscaped (c :: cs) = unescaped c ++ halfEscaped cs := rfl

/-- A dollar sign is as good as an escaped one to what is before it. -/
theorem alike_halfEscaped (cs : List Char) : Field.Alike cs (halfEscaped cs ++ ['$']) := by
  have hdollar : Field.Neutral ['$'] :=
    ⟨⟨'$', [], rfl, by decide⟩, braces_of_forall (by simp)⟩
  have hescaped : Field.Neutral ['\\', '$'] :=
    ⟨⟨'\\', ['$'], rfl, by decide⟩, braces_of_forall (by simp)⟩
  induction cs with
  | nil => exact .last hdollar
  | cons c cs ih =>
    rw [halfEscaped_cons, List.append_assoc]
    by_cases hd : c = '$'
    · subst hd
      exact ih.part hdollar hescaped
    · rw [unescaped_of_ne hd]
      exact .char c ih

/-- Escaping what follows a dollar sign neither makes nor breaks a field. -/
theorem read?_halfEscaped (cs : List Char) :
    (Field.read? ('$' :: (halfEscaped cs ++ ['$']))).isSome = (Field.read? ('$' :: cs)).isSome :=
  (alike_halfEscaped cs).isSome_read?.symm

/-- Without an uncovered marker an escaped text is read as characters only. -/
theorem tile_halfEscaped {t : List Char} (h : uncovers t = false) :
    Text.tile Piece.read 0 (halfEscaped t ++ ['$']) = (halfEscaped t ++ ['$']).map .char := by
  have hb : unescaped '\\' = ['\\'] := rfl
  fun_induction uncovers t with
  | case1 cs ih =>
    obtain ⟨hf, hs⟩ := Bool.or_eq_false_iff.1 h
    have hnone : Field.read? ('$' :: (halfEscaped cs ++ ['$'])) = none := by
      rw [← Option.not_isSome_iff_eq_none, read?_halfEscaped, hf]
      exact Bool.false_ne_true
    simp only [halfEscaped_cons, hb, unescaped_dollar, List.cons_append, List.nil_append,
      List.map_cons]
    rw [Piece.tile_pair, Piece.tile_char (by decide) hnone, ih hs]
  | case2 d cs hd ih =>
    simp only [halfEscaped_cons, hb, unescaped_of_ne hd, List.cons_append, List.nil_append,
      List.map_cons]
    rw [Piece.tile_pair, ih h]
  | case3 c cs h1 h2 ih =>
    by_cases hc : c = '\\'
    · cases cs with
      | nil => subst hc; rfl
      | cons d cs => exact absurd rfl (h2 d cs hc)
    · by_cases hd : c = '$'
      · subst hd
        simp only [halfEscaped_cons, unescaped_dollar, List.cons_append, List.nil_append,
          List.map_cons]
        rw [Piece.tile_pair, ih h]
      · simp only [halfEscaped_cons, unescaped_of_ne hd, List.cons_append, List.nil_append,
          List.map_cons]
        rw [Piece.tile_char hc (Field.read?_eq_none hd _), ih h]
  | case4 => rfl

/-- An uncovered marker is read as a field. -/
theorem exists_field_of_uncovers {t : List Char} (h : uncovers t = true) :
    ∃ f, .field f ∈ Text.tile Piece.read 0 (halfEscaped t ++ ['$']) := by
  have hb : unescaped '\\' = ['\\'] := rfl
  fun_induction uncovers t with
  | case1 cs ih =>
    simp only [halfEscaped_cons, hb, unescaped_dollar, List.cons_append, List.nil_append]
    rw [Piece.tile_pair]
    cases hf : Field.read? ('$' :: (halfEscaped cs ++ ['$'])) with
    | some r =>
      refine ⟨r.1, ?_⟩
      rw [Text.tile_cons, Piece.read_field (by decide) hf]
      simp
    | none =>
      have hno : (Field.read? ('$' :: cs)).isSome = false := by
        rw [← read?_halfEscaped, hf]
        rfl
      rw [hno, Bool.false_or] at h
      obtain ⟨f, hm⟩ := ih h
      refine ⟨f, ?_⟩
      rw [Piece.tile_char (by decide) hf]
      simp [hm]
  | case2 d cs hd ih =>
    obtain ⟨f, hm⟩ := ih h
    refine ⟨f, ?_⟩
    simp only [halfEscaped_cons, hb, unescaped_of_ne hd, List.cons_append, List.nil_append]
    rw [Piece.tile_pair]
    simp [hm]
  | case3 c cs h1 h2 ih =>
    obtain ⟨f, hm⟩ := ih h
    refine ⟨f, ?_⟩
    by_cases hc : c = '\\'
    · cases cs with
      | nil => simp [uncovers] at h
      | cons d cs => exact absurd rfl (h2 d cs hc)
    · by_cases hd : c = '$'
      · subst hd
        simp only [halfEscaped_cons, unescaped_dollar, List.cons_append, List.nil_append]
        rw [Piece.tile_pair]
        simp [hm]
      · simp only [halfEscaped_cons, unescaped_of_ne hd, List.cons_append, List.nil_append]
        rw [Piece.tile_char hc (Field.read?_eq_none hd _)]
        simp [hm]
  | case4 => simp at h

/-- Is the character after a text escaped, when backslashes are paired off from the left? -/
def escapedAfter (cs : List Char) : Bool := cs.foldl (fun open_ c ↦ c == '\\' && !open_) false

theorem isEscaped_reverse (cs : List Char) :
    Extraction.isEscaped cs.reverse = escapedAfter cs := by
  induction cs using List.reverseRecOn with
  | nil => rfl
  | append_singleton cs c ih =>
    rw [escapedAfter, List.foldl_append, ← escapedAfter, ← ih, List.reverse_append]
    simp only [List.reverse_singleton, List.singleton_append, List.foldl_cons, List.foldl_nil,
      Extraction.isEscaped, List.takeWhile_cons]
    by_cases hc : c = '\\'
    · simp only [hc, beq_self_eq_true, if_true, List.length_cons, Bool.true_and]
      generalize (List.takeWhile (· == '\\') cs.reverse).length = k
      rcases Nat.mod_two_eq_zero_or_one k with hk | hk
      · have : (k + 1) % 2 = 1 := by omega
        rw [hk, this]
        rfl
      · have : (k + 1) % 2 = 0 := by omega
        rw [hk, this]
        rfl
    · simp [hc]

theorem escapedAfter_pair (c : Char) (cs : List Char) :
    escapedAfter ('\\' :: c :: cs) = escapedAfter cs := by
  simp [escapedAfter]

theorem escapedAfter_cons {c : Char} (h : c ≠ '\\') (cs : List Char) :
    escapedAfter (c :: cs) = escapedAfter cs := by
  simp [escapedAfter, beq_eq_false_iff_ne.2 h]

/-- Does a text hold a field marker after an odd number of backslashes? -/
def UncoversField (cs : List Char) : Prop :=
  ∃ before rest, cs = before ++ rest ∧ Extraction.isEscaped before.reverse = true ∧
    (Field.read? rest).isSome = true

theorem uncovers_pair {c : Char} (h : c ≠ '$') (cs : List Char) :
    uncovers ('\\' :: c :: cs) = uncovers cs := by
  rw [uncovers.eq_def]
  simp

theorem uncovers_cons {c : Char} (h : c ≠ '\\') (cs : List Char) :
    uncovers (c :: cs) = uncovers cs := by
  rw [uncovers.eq_def]
  simp [h]

theorem uncovers_append : ∀ (before : List Char) {rest : List Char}, escapedAfter before = true →
    (Field.read? rest).isSome = true → uncovers (before ++ rest) = true
  | [], _, hb, _ => by simp [escapedAfter] at hb
  | [c], [], _, hf => by simp [Field.read?] at hf
  | [c], d :: rest, hb, hf => by
    have hc : c = '\\' := by simpa [escapedAfter] using hb
    have hd : d = '$' := by
      by_contra hd
      rw [Field.read?_eq_none hd] at hf
      exact Bool.false_ne_true hf
    subst hc hd
    simp [uncovers, hf]
  | c :: d :: before, rest, hb, hf => by
    by_cases hc : c = '\\'
    · subst hc
      rw [escapedAfter_pair] at hb
      have ih := uncovers_append before hb hf
      by_cases hd : d = '$'
      · simp [hd, uncovers, ih]
      · rw [List.cons_append, List.cons_append, uncovers_pair hd, ih]
    · rw [escapedAfter_cons hc] at hb
      rw [List.cons_append, uncovers_cons hc]
      exact uncovers_append (d :: before) hb hf

theorem uncoversField_iff (cs : List Char) : UncoversField cs ↔ uncovers cs = true := by
  simp only [UncoversField, isEscaped_reverse]
  constructor
  · rintro ⟨before, rest, rfl, hb, hf⟩
    exact uncovers_append before hb hf
  · intro h
    fun_induction uncovers cs with
    | case1 cs ih =>
      rcases Bool.or_eq_true_iff.1 h with hf | hs
      · exact ⟨['\\'], '$' :: cs, rfl, rfl, hf⟩
      · obtain ⟨u, v, rfl, hu, hv⟩ := ih hs
        exact ⟨'\\' :: '$' :: u, v, rfl, by rw [escapedAfter_pair, hu], hv⟩
    | case2 d cs hd ih =>
      obtain ⟨u, v, rfl, hu, hv⟩ := ih h
      exact ⟨'\\' :: d :: u, v, rfl, by rw [escapedAfter_pair, hu], hv⟩
    | case3 c cs h1 h2 ih =>
      obtain ⟨u, v, rfl, hu, hv⟩ := ih h
      have hc : c ≠ '\\' := by
        rintro rfl
        cases u with
        | nil => simp [escapedAfter] at hu
        | cons d u => exact h2 d (u ++ v) rfl rfl
      exact ⟨c :: u, v, rfl, by rw [escapedAfter_cons hc, hu], hv⟩
    | case4 => simp at h

/-! ## Numbering -/

theorem head?_halfEscaped_append (c : Char) (t rest : List Char) :
    (halfEscaped (c :: t) ++ rest).head? ≠ some '$' := by
  rw [halfEscaped_cons]
  by_cases hd : c = '$'
  · subst hd
    simp [unescaped_dollar]
  · simp [unescaped_of_ne hd, hd]

/-- Numbering takes the backslashes off again, unless the last of them meets a dollar sign that
was not escaped. -/
theorem number_halfEscaped (count index : Int) (t rest : List Char)
    (h : t.getLast? = some '\\' → rest.head? ≠ some '$') :
    Text.tile (Numbering.step count index) 0 (halfEscaped t ++ rest)
      = t ++ Text.tile (Numbering.step count index) 0 rest := by
  induction t with
  | nil => rfl
  | cons c t ih =>
    have ht : t.getLast? = some '\\' → rest.head? ≠ some '$' := by
      intro hl
      refine h ?_
      rw [List.getLast?_cons, hl]
      rfl
    rw [halfEscaped_cons]
    by_cases hd : c = '$'
    · subst hd
      rw [unescaped_dollar, List.append_assoc, List.cons_append, List.singleton_append,
        Numbering.tile_escaped, ih ht, List.cons_append]
    · rw [unescaped_of_ne hd, List.append_assoc, List.singleton_append, List.cons_append, ← ih ht]
      by_cases hb : c = '\\'
      · subst hb
        refine Numbering.tile_backslash count index ?_
        cases t with
        | nil => exact h rfl
        | cons d t => exact head?_halfEscaped_append d t rest
      · exact Numbering.tile_plain count index hb hd _

/-- The number of a copy on its own. -/
theorem number_dollar (count index : Nat) :
    Text.tile (Numbering.step count index) 0 ['$'] = Nat.toDigits 10 index := by
  have hpos : 0 < (Nat.toDigits 10 index).length := Nat.length_toDigits_pos
  have hpad : 1 - (Nat.toDigits 10 index).length = 0 := by omega
  simp [Text.tile_cons, Numbering.step, Numbering.suffix, Numbering.position, Numbering.padded,
    hpad]

/-- What numbering makes of an escaped text before a dollar sign. -/
theorem text_halfEscaped (count index : Nat) (t : List Char) :
    (Numbering.text count index (String.ofList (halfEscaped t ++ ['$']))).toList
      = if t.getLast? = some '\\' then t.dropLast ++ ['$'] else t ++ Nat.toDigits 10 index := by
  rw [Numbering.text, String.toList_ofList, String.toList_ofList]
  split
  · rename_i hl
    obtain ⟨t, rfl⟩ := List.getLast?_eq_some_iff.1 hl
    have hh : halfEscaped (t ++ ['\\']) ++ ['$'] = halfEscaped t ++ ['\\', '$'] := by
      simp [halfEscaped, unescaped]
    rw [hh, number_halfEscaped count index t _ (by simp), Numbering.tile_escaped, Text.tile_nil,
      List.dropLast_concat]
  · rename_i hl
    rw [number_halfEscaped count index t _ (fun h ↦ absurd h hl), number_dollar]

/-! ## The tokens and the tree -/

/-- The abbreviation of `n` copies of an escaped text, each with its number after it. -/
def numbered (t : String) (n : Nat) : String :=
  "\x7b" ++ String.ofList (escape t.toList) ++ "$\x7d*" ++ toString n

theorem toList_numbered (t : String) (n : Nat) :
    (numbered t n).toList
      = ('\x7b' :: (escape t.toList ++ ['$', '\x7d'])) ++ ('*' :: Nat.toDigits 10 n) := by
  simp [numbered]

theorem ofText_numbered (t : String) (n : Nat) :
    Token.ofText (numbered t n)
      = .ok [⟨.text (String.ofList (halfEscaped t.toList ++ ['$'])), 0⟩,
          ⟨.times (toString n), (escape t.toList).length + 3⟩] := by
  have htext : Token.scan 0 (('\x7b' :: (escape t.toList ++ ['$', '\x7d']))
      ++ ('*' :: Nat.toDigits 10 n))
      = .ok ([⟨.text (String.ofList (halfEscaped t.toList ++ ['$'])), 0⟩],
          ('\x7b' :: (escape t.toList ++ ['$', '\x7d'])).length) := by
    have hend : ∀ rest, textChars 0 ('$' :: '\x7d' :: rest) = some (['$'], 2) := fun rest ↦ by
      rw [textChars_other 0 (by decide), textChars_close_zero]
      rfl
    simp [Token.scan, Lexeme.ofChar?, List.append_assoc, textChars_escape, hend]
    omega
  have htimes : ∀ pos, Token.scan pos (('*' :: Nat.toDigits 10 n) ++ [])
      = .ok ([⟨.times (toString n), pos⟩], ('*' :: Nat.toDigits 10 n).length) := by
    intro pos
    have hdigits := Text.takeWhile_isDigit_toDigits n []
    simp only [List.append_nil, List.takeWhile_nil] at hdigits
    simp [Token.scan, Lexeme.ofChar?, hdigits, Nat.repr_eq_ofList_toDigits]
  rw [Token.ofText, toList_numbered, Text.tileFrom_piece (by simp) htext]
  rw [← List.append_nil ('*' :: Nat.toDigits 10 n), Text.tileFrom_piece (by simp) (htimes _)]
  simp [Except.map]

/-- A text with a multiplier, and nothing else. -/
theorem ofTokens_text_times {inner digits : String} {n pos : Nat} (stop : Nat)
    (h : Tree.multiplier digits pos = .ok { count := n }) :
    Tree.ofTokens stop [⟨.text inner, 0⟩, ⟨.times digits, pos⟩]
      = .ok [.text (Value.parse inner) (some { count := n }) 0] := by
  have hfinish : Tree.finish stop {} [⟨.text inner, 0⟩, ⟨.times digits, pos⟩]
      = .ok (.text (Value.parse inner) (some { count := n }) 0, []) := by
    rw [Tree.finish, Tree.modifiers, Tree.modifiers]
    · simp [bind, Except.bind, pure, Except.pure, Tree.mark, h, Tree.nodeOf, Element.addText,
        Element.isBare]
    all_goals simp
  have hitem : ∀ inside, Tree.item stop inside [⟨.text inner, 0⟩, ⟨.times digits, pos⟩]
      = .ok (.text (Value.parse inner) (some { count := n }) 0, []) := fun _ ↦ hfinish
  rw [Tree.ofTokens, List.length_cons, Tree.statements, hitem]
  rfl

theorem parse_numbered (t : String) {n : Nat} (hn : 1 ≤ n) :
    Tree.parse (numbered t n)
      = .ok [.text (Value.parse (String.ofList (halfEscaped t.toList ++ ['$'])))
          (some { count := n }) 0] := by
  rw [Tree.parse, ofText_numbered]
  simp only [bind, Except.bind]
  rw [ofTokens_text_times _ (Tree.multiplier_toString hn _)]
  rfl

/-! ## What becomes of an escaped text -/

/-- A text that numbering and the reader of fields take for what it says: the dollar sign after it
is not escaped by its last backslash, and no escaped backslash uncovers a field marker. -/
def ReadsLiterally (t : String) : Prop :=
  t.toList.getLast? ≠ some '\\' ∧ ¬ UncoversField t.toList

/-- The copies before they are numbered, and after. -/
theorem markupTree_numbered (c : Config) (t : String) {n : Nat} (hn : 1 ≤ n)
    (hmax : n ≤ c.maxRepeat) :
    Expansion.markupTree c (numbered t n)
      = .ok ((List.range' 1 n).map fun index : Nat ↦
          .text ((Value.parse (String.ofList (halfEscaped t.toList ++ ['$']))).mapText
            (Numbering.text n index)) (some ⟨n, index⟩) 0) := by
  have hscope : ∀ f ∈ (Value.parse (String.ofList (halfEscaped t.toList ++ ['$']))).fields,
      f.scope = 0 := fun f hf ↦ Value.scope_of_mem_parse hf
  rw [Expansion.markupTree, parse_numbered t hn]
  generalize Value.parse (String.ofList (halfEscaped t.toList ++ ['$'])) = v at hscope ⊢
  have hsnippets : Snippet.expandAll c.markupSnippets [.text v (some { count := n }) 0]
      = .ok [.text v (some { count := n }) 0] := rfl
  have hnames : ∀ indices : List Nat, Node.nameAll none
      (indices.map fun index ↦ .text v (some ⟨n, index⟩) 0)
        = indices.map fun index ↦ .text v (some ⟨n, index⟩) 0 := by
    intro indices
    induction indices with
    | nil => rfl
    | cons index indices ih => rw [List.map_cons, Node.nameAll, ih, Node.named]
  have hgroup : ∀ indices : List Nat,
      Node.anyGroup (indices.map fun index ↦ .text v (some ⟨n, index⟩) 0) = false := by
    intro indices
    induction indices with
    | nil => rfl
    | cons index indices ih => rw [List.map_cons, Node.anyGroup, ih, Node.hasGroup, Bool.or_false]
  have hvisit : ∀ indices : List Nat, Node.visitAll Numbering.visitor
      (indices.map fun index ↦ .text v (some ⟨n, index⟩) 0) []
        = (indices.map fun index : Nat ↦
            .text (v.mapText (Numbering.text n index)) (some ⟨n, index⟩) 0, []) := by
    intro indices
    induction indices with
    | nil => rfl
    | cons index indices ih =>
      simp only [List.map_cons, Node.visitAll, Node.visit, Numbering.visitor] at ih ⊢
      simp only [ih]
      rfl
  simp only [bind, Except.bind]
  rw [hsnippets]
  simp only
  rw [Copies.unroll_text hscope hmax]
  simp only
  rw [hnames, Numbering.number, hgroup, hvisit]
  rfl

/-- A node that is a text of nothing but literal characters. -/
def IsLiteralText (s : String) (n : Node) : Prop :=
  ∃ v times offset, n = .text v times offset ∧ v.hasFields = false ∧ v.plain = s

theorem hasFields_mapText (g : String → String) (v : Value) :
    (v.mapText g).hasFields = v.hasFields := by
  rw [Bool.eq_iff_iff, Value.hasFields_iff, Value.hasFields_iff, Value.fields_mapText]

theorem isLiteralText_text_iff {s r : String} {times : Option Multiplier} {offset : Nat} :
    IsLiteralText s (.text [.text r] times offset) ↔ r = s := by
  constructor
  · rintro ⟨v, times', offset', heq, -, hplain⟩
    obtain ⟨rfl, -, -⟩ := Node.text.inj heq
    simpa [Value.plain] using hplain
  · rintro rfl
    exact ⟨_, _, _, rfl, rfl, by simp [Value.plain]⟩

/-- One copy says what it should exactly when the text reads literally. -/
theorem isLiteralText_copy_iff (t : String) (n index : Nat) (times : Option Multiplier) :
    IsLiteralText (t ++ toString index)
        (.text ((Value.parse (String.ofList (halfEscaped t.toList ++ ['$']))).mapText
          (Numbering.text n index)) times 0)
      ↔ ReadsLiterally t := by
  rw [ReadsLiterally, uncoversField_iff]
  cases hcover : uncovers t.toList with
  | true =>
    -- a field stays a field under numbering, so there is more than literal characters
    refine iff_of_false ?_ fun h ↦ h.2 rfl
    rintro ⟨v, times', offset', heq, hfields, -⟩
    obtain ⟨rfl, -, -⟩ := Node.text.inj heq
    obtain ⟨f, hf⟩ := exists_field_of_uncovers hcover
    have hmem : f ∈ (Value.parse (String.ofList (halfEscaped t.toList ++ ['$']))).fields := by
      rw [Value.mem_fields, Value.parse, String.toList_ofList, Value.mem_ofPieces]
      exact hf
    rw [hasFields_mapText] at hfields
    have hne := (Value.hasFields_iff _).2 (List.ne_nil_of_mem hmem)
    rw [hfields] at hne
    exact Bool.false_ne_true hne
  | false =>
    have hvalue : Value.parse (String.ofList (halfEscaped t.toList ++ ['$']))
        = [.text (String.ofList (halfEscaped t.toList ++ ['$']))] := by
      rw [Value.parse, String.toList_ofList, tile_halfEscaped hcover, Value.ofPieces_map_char,
        Value.literal, if_neg (by simp)]
    have hnumber := text_halfEscaped n index t.toList
    rw [hvalue, Value.mapText, List.map_singleton, isLiteralText_text_iff, ← String.toList_inj,
      hnumber, String.toList_append, Nat.toString_eq_ofList_toDigits, String.toList_ofList]
    split
    · -- the two texts differ in length
      rename_i hl
      refine iff_of_false (fun h ↦ ?_) fun h ↦ h.1 hl
      have hlen := congrArg List.length h
      have hpos : 0 < (Nat.toDigits 10 index).length := Nat.length_toDigits_pos
      have hne : t.toList ≠ [] := by
        intro hnil
        rw [hnil] at hl
        simp at hl
      have hlpos := List.length_pos_iff.2 hne
      rw [List.length_append, List.length_dropLast, List.length_singleton, List.length_append]
        at hlen
      omega
    · rename_i hl
      exact iff_of_true rfl ⟨hl, Bool.false_ne_true⟩

/-- **Escaped text is literal.**  An escaped text with a counter behind it and a multiplier `*n`
always stands for `n` nodes, and each of them is the text followed by its number exactly when the
text reads literally. -/
theorem markupTree_escaped_text (c : Config) (t : String) (n : Nat) (hn : 1 ≤ n)
    (hmax : n ≤ c.maxRepeat) :
    ∃ nodes, Expansion.markupTree c (numbered t n) = .ok nodes ∧ nodes.length = n ∧
      (∀ node ∈ nodes, node.isText = true) ∧
      ((∀ index node, nodes[index]? = some node →
        IsLiteralText (t ++ toString (index + 1)) node) ↔ ReadsLiterally t) := by
  refine ⟨_, markupTree_numbered c t hn hmax, by simp, ?_, ?_⟩
  · intro node hnode
    obtain ⟨index, -, rfl⟩ := List.mem_map.1 hnode
    rfl
  · constructor
    · intro h
      have hfirst := h 0 _ (by
        rw [List.getElem?_map, List.getElem?_range' hn]
        rfl)
      exact (isLiteralText_copy_iff t n _ _).1 hfirst
    · intro h index node hnode
      rw [List.getElem?_map] at hnode
      obtain ⟨number, hnumber, rfl⟩ := Option.map_eq_some_iff.1 hnode
      obtain ⟨hlt, heq⟩ := List.getElem?_eq_some_iff.1 hnumber
      rw [List.getElem_range'] at heq
      have : number = index + 1 := by omega
      subst this
      exact (isLiteralText_copy_iff t n _ _).2 h

/-- A price and a marker in braces, twice: every dollar sign and brace is kept. -/
theorem markupTree_escaped_price :
    1 ≤ 2 ∧ 2 ≤ ({} : Config).maxRepeat ∧ ReadsLiterally "\\\\$\x7b1\x7d$5" ∧
      ∃ nodes, Expansion.markupTree {} (numbered "\\\\$\x7b1\x7d$5" 2) = .ok nodes ∧
        nodes.length = 2 ∧ ∀ index node, nodes[index]? = some node →
          IsLiteralText ("\\\\$\x7b1\x7d$5" ++ toString (index + 1)) node := by
  have hreads : ReadsLiterally "\\\\$\x7b1\x7d$5" := by
    refine ⟨by decide, ?_⟩
    rw [uncoversField_iff]
    decide
  obtain ⟨nodes, htree, hlength, -, hiff⟩ :=
    markupTree_escaped_text {} "\\\\$\x7b1\x7d$5" 2 (by decide) (by decide)
  exact ⟨by decide, by decide, hreads, nodes, htree, hlength, hiff.2 hreads⟩

/-- A single backslash does not read literally: it escapes the counter behind it. -/
theorem backslash_not_literal :
    ¬ ∃ nodes, Expansion.markupTree {} (numbered "\\" 1) = .ok nodes ∧ nodes.length = 1 ∧
      ∀ index node, nodes[index]? = some node →
        IsLiteralText ("\\" ++ toString (index + 1)) node := by
  rintro ⟨nodes, htree, -, hall⟩
  rw [markupTree_numbered {} "\\" (by decide) (by decide)] at htree
  obtain rfl := Except.ok.inj htree
  have hfirst := hall 0 _ rfl
  exact ((isLiteralText_copy_iff "\\" 1 1 _).1 hfirst).1 (by decide)

end Shorthand.Markup.Escaping
