import Mathlib.Data.List.Nodup
import Shorthand.Proofs.Regular
import Shorthand.Proofs.Spelling

/-!
# Attribute sets read back

The inside of an attribute set is read twice.  The cutting into tokens looks for the bracket that
closes the set, and only minds quotes and backslashes; the reader of the set then takes names and
values apart, and only minds blanks, equals signs and the quote that a value begins with.  They
agree on a row of attributes that are written in one of the four forms: a quote is only ever open
inside a quoted value, where neither reader looks at brackets or blanks.

* `AttributeSet.Written` : an attribute as it is written; `Written.Fits` says with which characters.
* `AttributeSet.passes_joined` : the cutting into tokens passes over a row of attributes.
* `AttributeSet.tileFrom_joined` : the reader of the set finds them.
* `Tree.parse_written` : an element with a written set has these attributes, in order.
-/

set_option autoImplicit false

namespace Shorthand.Markup

namespace AttributeSet

/-! ## Attributes as they are written -/

/-- How the value of an attribute is written. -/
inductive Wording where
  /-- There is no value. -/
  | bare
  /-- The value goes up to the next blank. -/
  | plain (value : List Char)
  /-- The value stands between two quotes. -/
  | quoted (quote : Char) (value : List Char)

namespace Wording

/-- What is written after the name. -/
def text : Wording → List Char
  | bare => []
  | plain value => '=' :: value
  | quoted quote value => '=' :: quote :: (value ++ [quote])

/-- The value that is meant. -/
def value : Wording → Value
  | bare => []
  | plain value | quoted _ value => Value.parse (String.ofList value)

/-- The characters of a value leave no doubt where it ends. -/
def Fits : Wording → Prop
  | bare => True
  | plain value =>
    ∀ c ∈ value, Text.isBlank c = false ∧ c ≠ '\'' ∧ c ≠ '"' ∧ c ≠ ']' ∧ c ≠ '\\'
  | quoted quote value => (quote = '\'' ∨ quote = '"') ∧ quote ∉ value ∧ '\\' ∉ value

instance : DecidablePred Fits
  | bare => inferInstanceAs (Decidable True)
  | plain value => List.decidableBAll
      (fun c ↦ Text.isBlank c = false ∧ c ≠ '\'' ∧ c ≠ '"' ∧ c ≠ ']' ∧ c ≠ '\\') value
  | quoted quote value => inferInstanceAs (Decidable
      ((quote = '\'' ∨ quote = '"') ∧ quote ∉ value ∧ '\\' ∉ value))

end Wording

/-- An attribute as it is written. -/
structure Written where
  name : List Char
  wording : Wording

namespace Written

/-- The text of an attribute. -/
def text (w : Written) : List Char := w.name ++ w.wording.text

/-- The attribute that is meant. -/
def meaning (w : Written) : Attribute where
  name := String.ofList w.name
  value := w.wording.value

/-- An attribute with a name of its own, which is not that of the id or of the classes, and with
characters that leave no doubt where the name and the value end. -/
structure Fits (w : Written) : Prop where
  ne_nil : w.name ≠ []
  name : ∀ c ∈ w.name,
    Text.isBlank c = false ∧ c ≠ '=' ∧ c ≠ '\'' ∧ c ≠ '"' ∧ c ≠ ']' ∧ c ≠ '\\'
  ne_id : Text.lower (String.ofList w.name) ≠ "id"
  ne_class : Text.lower (String.ofList w.name) ≠ "class"
  wording : w.wording.Fits

instance : DecidablePred Fits := fun w ↦
  letI := List.decidableBAll (fun c ↦ Text.isBlank c = false ∧ c ≠ '=' ∧ c ≠ '\'' ∧ c ≠ '"' ∧
    c ≠ ']' ∧ c ≠ '\\') w.name
  decidable_of_iff
    (w.name ≠ [] ∧ (∀ c ∈ w.name,
        Text.isBlank c = false ∧ c ≠ '=' ∧ c ≠ '\'' ∧ c ≠ '"' ∧ c ≠ ']' ∧ c ≠ '\\') ∧
      Text.lower (String.ofList w.name) ≠ "id" ∧ Text.lower (String.ofList w.name) ≠ "class" ∧
      w.wording.Fits)
    ⟨fun ⟨hne, hname, hid, hclass, hwording⟩ ↦ ⟨hne, hname, hid, hclass, hwording⟩,
      fun ⟨hne, hname, hid, hclass, hwording⟩ ↦ ⟨hne, hname, hid, hclass, hwording⟩⟩

end Written

/-- A row of attributes, with a blank between one and the next. -/
def joined (ws : List Written) : List Char := [' '].intercalate (ws.map Written.text)

theorem joined_cons_cons (w v : Written) (ws : List Written) :
    joined (w :: v :: ws) = w.text ++ ' ' :: joined (v :: ws) := by
  simp [joined, List.intercalate_cons_cons]

/-! ## The closing bracket -/

/-- The cutting into tokens passes over a text when it looks for the closing bracket. -/
def Passes (cs : List Char) : Prop :=
  ∀ rest, attributeChars none (cs ++ rest) = (attributeChars none rest).map (cs ++ ·)

theorem passes_nil : Passes [] := by
  intro rest
  cases h : attributeChars none rest <;> simp [h, Except.map]

theorem Passes.append {cs ds : List Char} (hcs : Passes cs) (hds : Passes ds) :
    Passes (cs ++ ds) := by
  intro rest
  rw [List.append_assoc, hcs, hds]
  cases attributeChars none rest <;> simp [Except.map]

theorem passes_singleton {c : Char} (h : c ≠ '\\' ∧ c ≠ ']' ∧ c ≠ '\'' ∧ c ≠ '"') : Passes [c] := by
  intro rest
  rw [List.singleton_append, attributeChars.eq_def]
  simp [h.1, h.2.1, h.2.2.1, h.2.2.2]

theorem passes_of_forall {cs : List Char}
    (h : ∀ c ∈ cs, c ≠ '\\' ∧ c ≠ ']' ∧ c ≠ '\'' ∧ c ≠ '"') : Passes cs := by
  induction cs with
  | nil => exact passes_nil
  | cons c cs ih =>
    obtain ⟨hc, hcs⟩ := List.forall_mem_cons.1 h
    exact (passes_singleton hc).append (ih hcs)

/-- Inside quotes everything is passed over up to the closing quote. -/
theorem attributeChars_quoted {quote : Char} {value : List Char} (hquote : quote ≠ '\\')
    (hmem : quote ∉ value) (hescape : '\\' ∉ value) (rest : List Char) :
    attributeChars (some quote) (value ++ quote :: rest)
      = (attributeChars none rest).map (value ++ quote :: ·) := by
  induction value with
  | nil =>
    rw [List.nil_append, attributeChars.eq_def]
    simp [hquote]
  | cons c value ih =>
    obtain ⟨hc, hmem⟩ := not_or.1 (List.mem_cons.not.1 hmem)
    obtain ⟨hb, hescape⟩ := not_or.1 (List.mem_cons.not.1 hescape)
    rw [List.cons_append, attributeChars.eq_def]
    simp only [beq_eq_false_iff_ne.2 (Ne.symm hb), beq_eq_false_iff_ne.2 (Ne.symm hc),
      Bool.false_eq_true, if_false, ih hmem hescape]
    cases attributeChars none rest <;> rfl

theorem passes_quoted {quote : Char} {value : List Char} (hquote : quote = '\'' ∨ quote = '"')
    (hmem : quote ∉ value) (hescape : '\\' ∉ value) : Passes (quote :: (value ++ [quote])) := by
  intro rest
  have hinside := attributeChars_quoted (by rcases hquote with rfl | rfl <;> decide) hmem hescape
    rest
  rw [List.cons_append, List.append_assoc, List.singleton_append, attributeChars.eq_def]
  rcases hquote with rfl | rfl
  all_goals
    simp only [beq_iff_eq, Char.reduceEq, if_false, if_true, Bool.or_true, Bool.true_or, hinside,
      beq_self_eq_true]
    cases attributeChars none rest <;> simp [Except.map]

theorem Wording.Fits.passes {wording : Wording} (h : wording.Fits) : Passes wording.text := by
  have hequals : Passes ['='] := passes_singleton (by decide)
  cases wording with
  | bare => exact passes_nil
  | plain value =>
    exact hequals.append (passes_of_forall fun c hc ↦
      ⟨(h c hc).2.2.2.2, (h c hc).2.2.2.1, (h c hc).2.1, (h c hc).2.2.1⟩)
  | quoted quote value => exact hequals.append (passes_quoted h.1 h.2.1 h.2.2)

theorem passes_joined {ws : List Written} (h : ∀ w ∈ ws, w.Fits) : Passes (joined ws) := by
  have htext : ∀ w ∈ ws, Passes w.text := fun w hw ↦
    (passes_of_forall fun c hc ↦ by
      obtain ⟨-, -, hsingle, hdouble, hclose, hescape⟩ := (h w hw).name c hc
      exact ⟨hescape, hclose, hsingle, hdouble⟩).append (h w hw).wording.passes
  clear h
  induction ws with
  | nil => exact passes_nil
  | cons w ws ih =>
    obtain ⟨hw, hws⟩ := List.forall_mem_cons.1 htext
    cases ws with
    | nil => simpa [joined] using hw
    | cons v ws =>
      rw [joined_cons_cons]
      exact hw.append ((passes_singleton (by decide)).append (ih hws))

/-! ## Names and values -/

/-- What may stand after an attribute: nothing, or a blank and more. -/
def Ends (rest : List Char) : Prop := ∀ c ∈ rest.head?, Text.isBlank c = true

/-- A quoted value ends at its quote. -/
theorem quotedChars_append {quote : Char} {value : List Char} (hmem : quote ∉ value)
    (hescape : '\\' ∉ value) (rest : List Char) :
    quotedChars quote (value ++ quote :: rest) = some (value, value.length + 1) := by
  induction value with
  | nil =>
    rw [List.nil_append, quotedChars.eq_def]
    simp
  | cons c value ih =>
    obtain ⟨hc, hmem⟩ := not_or.1 (List.mem_cons.not.1 hmem)
    obtain ⟨hb, hescape⟩ := not_or.1 (List.mem_cons.not.1 hescape)
    have ih := ih hmem hescape
    rw [List.cons_append, quotedChars.eq_def]
    simp only [beq_eq_false_iff_ne.2 (Ne.symm hc), Bool.false_eq_true, if_false]
    split
    · exact absurd rfl hb
    · rw [ih]
      rfl

theorem valueChars_plain {value rest : List Char} (hrest : Ends rest)
    (h : ∀ c ∈ value, Text.isBlank c = false ∧ c ≠ '\'' ∧ c ≠ '"') (pos : Nat) :
    valueChars pos (value ++ rest) = .ok (value, value.length) := by
  cases value with
  | nil =>
    cases rest with
    | nil => rfl
    | cons c rest => simp [valueChars, hrest c rfl]
  | cons c value =>
    have htake : (c :: value ++ rest).takeWhile (fun c ↦ !Text.isBlank c) = c :: value :=
      Text.takeWhile_append_of_stop (fun d hd ↦ by simp [(h d hd).1])
        fun d hd ↦ by simp [hrest d hd]
    obtain ⟨hblank, hsingle, hdouble⟩ := h c List.mem_cons_self
    rw [List.cons_append] at htake ⊢
    simp [valueChars, hblank, hsingle, hdouble, htake]

theorem valueChars_quoted {quote : Char} {value : List Char} (hquote : quote = '\'' ∨ quote = '"')
    (hmem : quote ∉ value) (hescape : '\\' ∉ value) (rest : List Char) (pos : Nat) :
    valueChars pos (quote :: (value ++ [quote]) ++ rest)
      = .ok (value, (quote :: (value ++ [quote])).length) := by
  have hblank : Text.isBlank quote = false := by rcases hquote with rfl | rfl <;> decide
  have hopens : (quote == '\'' || quote == '"') = true := by simpa using hquote
  rw [List.cons_append, List.append_assoc, List.singleton_append, valueChars, hblank, hopens,
    quotedChars_append hmem hescape]
  simp

theorem isNameChar_of_isBlank {c : Char} (h : Text.isBlank c = true) : isNameChar c = false := by
  simp [isNameChar, h]

/-- A name that could be that of an attribute. -/
def IsName (name : List Char) : Prop := name ≠ [] ∧ ∀ c ∈ name, isNameChar c = true

theorem IsName.not_blank {name : List Char} (h : IsName name) (rest : List Char) :
    ((name ++ rest).take 1).all Text.isBlank = false := by
  obtain ⟨c, name, rfl⟩ := List.exists_cons_of_ne_nil h.1
  refine eq_false_of_ne_true fun hblank ↦ ?_
  have hc : Text.isBlank c = true := by simpa using hblank
  exact absurd (h.2 c List.mem_cons_self) (by simp [isNameChar_of_isBlank hc])

/-- A name alone is an attribute without a value. -/
theorem step_bare {name rest : List Char} (h : IsName name) (hrest : Ends rest) (pos : Nat) :
    step pos (name ++ rest) = .ok ([{ name := String.ofList name }], name.length) := by
  have hstop : ∀ c ∈ rest.head?, isNameChar c = false :=
    fun c hc ↦ isNameChar_of_isBlank (hrest c hc)
  rw [step, h.not_blank, Text.takeWhile_append_of_stop h.2 hstop,
    Text.dropWhile_append_of_stop h.2 hstop]
  simp only [Bool.false_eq_true, if_false, List.isEmpty_iff, h.1]
  split
  · exact absurd (hrest '=' rfl) (by decide)
  · rfl

/-- After an equals sign stands a value. -/
theorem step_equals {name rest value : List Char} {size pos : Nat} (h : IsName name)
    (hvalue : valueChars (pos + name.length + 1) rest = .ok (value, size)) :
    step pos (name ++ '=' :: rest)
      = .ok ([{ name := String.ofList name, value := Value.parse (String.ofList value) }],
          name.length + 1 + size) := by
  have hstop : ∀ c ∈ ('=' :: rest).head?, isNameChar c = false := fun c hc ↦ by
    obtain rfl : '=' = c := Option.some.inj hc
    decide
  rw [step, h.not_blank, Text.takeWhile_append_of_stop h.2 hstop,
    Text.dropWhile_append_of_stop h.2 hstop]
  simp only [Bool.false_eq_true, if_false, List.isEmpty_iff, h.1, hvalue]
  rfl

theorem Written.Fits.isName {w : Written} (h : w.Fits) : IsName w.name := by
  refine ⟨h.ne_nil, fun c hc ↦ ?_⟩
  obtain ⟨hblank, hequals, hsingle, hdouble, -⟩ := h.name c hc
  simp [isNameChar, hblank, hequals, hsingle, hdouble]

/-- An attribute is read in front of a blank. -/
theorem step_written {w : Written} (h : w.Fits) {rest : List Char} (hrest : Ends rest) (pos : Nat) :
    step pos (w.text ++ rest) = .ok ([w.meaning], w.text.length) := by
  obtain ⟨name, wording⟩ := w
  have hname : IsName name := h.isName
  have hsize : ∀ value : List Char,
      (name ++ '=' :: value).length = name.length + 1 + value.length :=
    fun value ↦ by rw [List.length_append, List.length_cons, Nat.add_assoc, Nat.add_comm 1]
  rw [Written.text, List.append_assoc]
  cases wording with
  | bare =>
    rw [Wording.text, List.nil_append, List.append_nil]
    exact step_bare hname hrest pos
  | plain value =>
    have hvalue : valueChars (pos + name.length + 1) (value ++ rest) = .ok (value, value.length) :=
      valueChars_plain hrest
        (fun c hc ↦ ⟨(h.wording c hc).1, (h.wording c hc).2.1, (h.wording c hc).2.2.1⟩) _
    rw [Wording.text, hsize]
    exact step_equals hname hvalue
  | quoted quote value =>
    have hvalue := valueChars_quoted h.wording.1 h.wording.2.1 h.wording.2.2 rest
      (pos + name.length + 1)
    rw [Wording.text, hsize]
    exact step_equals hname hvalue

theorem Written.Fits.text_ne_nil {w : Written} (h : w.Fits) : w.text ≠ [] :=
  List.append_ne_nil_of_left_ne_nil h.ne_nil _

/-- The attributes of a row are read in order. -/
theorem tileFrom_joined {ws : List Written} (h : ∀ w ∈ ws, w.Fits) (pos : Nat) :
    Text.tileFrom step pos 0 (joined ws) = .ok (ws.map Written.meaning) := by
  induction ws generalizing pos with
  | nil => rfl
  | cons w ws ih =>
    obtain ⟨hw, hws⟩ := List.forall_mem_cons.1 h
    cases ws with
    | nil =>
      have hlast : step pos (w.text ++ []) = .ok ([w.meaning], w.text.length) :=
        step_written hw (fun c hc ↦ by cases hc) pos
      have htile := Text.tileFrom_piece hw.text_ne_nil hlast
      rw [List.append_nil] at htile
      simp [joined, htile, Except.map]
    | cons v ws =>
      have hblank : ∀ p, step p ([' '] ++ joined (v :: ws)) = .ok ([], [' '].length) := fun p ↦ rfl
      have hfirst : step pos (w.text ++ ([' '] ++ joined (v :: ws)))
          = .ok ([w.meaning], w.text.length) :=
        step_written hw (fun c hc ↦ by obtain rfl := Option.some.inj hc; decide) pos
      rw [joined_cons_cons, ← List.singleton_append, Text.tileFrom_piece hw.text_ne_nil hfirst,
        Text.tileFrom_piece (List.cons_ne_nil _ _) (hblank _), ih hws]
      rfl

end AttributeSet

/-! ## The element -/

open AttributeSet

/-- Attributes of distinct names that are neither the id nor the classes are put on an element as
they are. -/
theorem foldl_fold_of_nodup {as : List Attribute}
    (h : ∀ a ∈ as, Text.lower a.name ≠ "id" ∧ Text.lower a.name ≠ "class") {e : Element}
    (hnames : ((e.attributes ++ as).map (·.name)).Nodup) :
    as.foldl Element.fold e = { e with attributes := e.attributes ++ as } := by
  induction as generalizing e with
  | nil => simp
  | cons a as ih =>
    obtain ⟨⟨hid, hclass⟩, has⟩ := List.forall_mem_cons.1 h
    have hput : a.putInto e.attributes = e.attributes ++ [a] := by
      rw [List.map_append, List.nodup_append] at hnames
      rw [Attribute.putInto_eq a hnames.1, if_neg]
      exact fun hmem ↦ hnames.2.2 _ hmem a.name (by simp) rfl
    have hfold : e.fold a = { e with attributes := e.attributes ++ [a] } := by
      simp [Element.fold, hid, hclass, Element.putAttribute, hput]
    rw [List.foldl_cons, hfold, ih has (by simpa using hnames)]
    simp

namespace Tree

/-- An element with an attribute set, and nothing else. -/
theorem ofTokens_attributes {name inner : String} {place stop : Nat} {as bs : List Attribute}
    (hread : AttributeSet.read (place + 1) inner = .ok as)
    (hfold : as.foldl Element.fold { name := some name }
      = { name := some name, attributes := bs }) :
    ofTokens stop [⟨.literal name, 0⟩, ⟨.attributes inner, place⟩]
      = .ok [.element { name := some name, attributes := bs } none []] := by
  have hmodifiers : modifiers stop { name := some name } [⟨.attributes inner, place⟩]
      = .ok ({ name := some name, attributes := bs }, []) := by
    rw [modifiers, hread]
    simp only [bind, Except.bind]
    rw [hfold]
    rfl
  have hitem : ∀ inside, item stop inside [⟨.literal name, 0⟩, ⟨.attributes inner, place⟩]
      = .ok (.element { name := some name, attributes := bs } none [], []) := fun inside ↦ by
    change finish stop { name := some name } [⟨.attributes inner, place⟩] = _
    rw [finish, hmodifiers]
    rfl
  rw [ofTokens, List.length_cons, statements, hitem]
  rfl

theorem ofText_written {ws : List Written} (h : ∀ w ∈ ws, w.Fits) :
    Token.ofText ("x[" ++ String.ofList (joined ws) ++ "]")
      = .ok [⟨.literal "x", 0⟩, ⟨.attributes (String.ofList (joined ws)), 1⟩] := by
  have hclose : attributeChars none (joined ws ++ [']']) = .ok (joined ws) := by
    rw [passes_joined h]
    exact congrArg Except.ok (List.append_nil _)
  have hset : Spells 1 [(⟨.attributes (String.ofList (joined ws)), 1⟩, '[' :: (joined ws ++ [']']))]
      ('[' :: (joined ws ++ [']']) ++ []) := .cons (.attributes hclose) (.nil _)
  have hname : Begins (.literal "x") ['x'] ('[' :: (joined ws ++ [']']) ++ []) := by
    have hstop := literalChars_of_stop (c := '[') (by decide) (joined ws ++ [']'] ++ [])
    exact .literal (by decide) (by
      rw [List.cons_append, List.nil_append, List.cons_append, literalChars, hstop]
      rfl)
  have htext : ("x[" ++ String.ofList (joined ws) ++ "]").toList
      = ['x'] ++ ('[' :: (joined ws ++ [']']) ++ []) := by
    simp [String.toList_append]
  rw [Token.ofText, htext]
  exact (Spells.cons hname hset).tokens

/-- **Attribute sets read back as written.**  An element with a set of attributes of distinct
names, each written in one of the four forms and with a blank between one and the next, is read, and
it has these attributes in their order, with the values that were written. -/
theorem parse_written {ws : List Written} (h : ∀ w ∈ ws, w.Fits)
    (hnames : (ws.map Written.name).Nodup) :
    parse ("x[" ++ String.ofList (joined ws) ++ "]")
      = .ok [.element { name := some "x", attributes := ws.map Written.meaning } none []] := by
  have hread : AttributeSet.read 2 (String.ofList (joined ws)) = .ok (ws.map Written.meaning) := by
    rw [AttributeSet.read, String.toList_ofList, tileFrom_joined h]
  have hmeant : ((ws.map Written.meaning).map (·.name)).Nodup := by
    have hmap : (ws.map Written.meaning).map (·.name)
        = (ws.map Written.name).map String.ofList := by
      simp [Written.meaning, Function.comp_def]
    rw [hmap]
    exact hnames.map fun _ _ heq ↦ String.ofList_injective heq
  have hordinary : ∀ a ∈ ws.map Written.meaning,
      Text.lower a.name ≠ "id" ∧ Text.lower a.name ≠ "class" := by
    intro a ha
    obtain ⟨w, hw, rfl⟩ := List.mem_map.1 ha
    exact ⟨(h w hw).ne_id, (h w hw).ne_class⟩
  have hfold := foldl_fold_of_nodup hordinary (e := { name := some "x" }) (by simpa using hmeant)
  rw [parse, located_eq_ok_iff, ofText_written h]
  exact ofTokens_attributes hread hfold

/-- Attributes of all four forms, with brackets, blanks, an equals sign, a field and the other quote
in their values. -/
def mixedAttributes : List Written := [
  ⟨"disabled".toList, .bare⟩,
  ⟨"href".toList, .plain "a[0=\x7b".toList⟩,
  ⟨"title".toList, .quoted '"' "x ] 'y'".toList⟩,
  ⟨"value".toList, .quoted '\'' "$\x7b1:say \"z\"\x7d".toList⟩,
  ⟨"alt".toList, .plain []⟩]

theorem parse_written_mixed :
    parse "x[disabled href=a[0=\x7b title=\"x ] 'y'\" value='$\x7b1:say \"z\"\x7d' alt=]"
      = .ok [.element { name := some "x", attributes := [
          { name := "disabled" },
          { name := "href", value := [.text "a[0=\x7b"] },
          { name := "title", value := [.text "x ] 'y'"] },
          { name := "value", value := [.field { index := 1, placeholder := "say \"z\"" }] },
          { name := "alt" }] } none []] :=
  @parse_written mixedAttributes (by decide) (by decide)

end Tree

end Shorthand.Markup
