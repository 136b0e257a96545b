import Mathlib.Data.List.Chain
import Mathlib.Data.List.TakeWhile
import Shorthand.Proofs.Numeral
import Shorthand.Stylesheet.Value

/-!
# Values token by token

A value is typed as a row of numbers, colours and keywords with dashes between them.  A dash is the
sign of a number and a part of a keyword as well, and every token is read as far as it goes.  Still
the row is cut where it was joined, because a token ends at every dash but one: a keyword goes on
where a dash has a letter after it.  Only another keyword begins with a letter.

* `Keyword.IsKeyword` : the grammar of keywords; `Keyword.isKeyword_iff`.
* `ValueToken` : numbers, colours and keywords as they are typed.
* `ValueToken.token_append` : a token is read in front of a separator.
* `ValueToken.tile_joined`, `ValueToken.parseValue_joined` : and so is a row of tokens.
-/

set_option autoImplicit false

namespace Shorthand

namespace Text

theorem toNat_of_isLetter {c : Char} (h : isLetter c = true) : 65 ≤ c.toNat ∧ c.toNat ≤ 122 := by
  change (decide ('A'.val ≤ c.val ∧ c.val ≤ 'Z'.val) ||
    (decide ('a'.val ≤ c.val) && decide (c.val ≤ 'z'.val))) = true at h
  simp only [Bool.or_eq_true, Bool.and_eq_true, decide_eq_true_eq, UInt32.le_iff_toNat_le] at h
  rcases h with ⟨hlow, hhigh⟩ | ⟨hlow, hhigh⟩
  · exact ⟨hlow, Nat.le_trans hhigh (by decide)⟩
  · exact ⟨Nat.le_trans (by decide) hlow, hhigh⟩

/-- A letter is no digit of any script: the zeros of other scripts than ours are no letters. -/
theorem isDecimal_of_isLetter {c : Char} (h : isLetter c = true) : isDecimal c = false := by
  have hzeros : ∀ first ∈ decimalZeros, first = 0x30 ∨ 0x80 ≤ first := by decide
  have hc := toNat_of_isLetter h
  have hnone : decimalValue? c = none := by
    rw [decimalValue?, Option.map_eq_none_iff, List.find?_eq_none]
    intro first hfirst
    have := hzeros first hfirst
    simp only [Bool.and_eq_true, decide_eq_true_eq]
    omega
  rw [isDecimal, hnone, Option.isSome_none]

end Text

namespace Stylesheet

/-! ## Keywords -/

namespace Keyword

/-- A word of a keyword: an ASCII letter, and then letters and numerals of any script and
underscores. -/
def IsWord (word : List Char) : Prop :=
  ∃ c cs, word = c :: cs ∧ Text.isLetter c = true ∧ ∀ d ∈ cs, Text.isWord d = true

/-- A keyword: a word, and perhaps more of them with a dash before each. -/
def IsKeyword (cs : List Char) : Prop :=
  ∃ (word : List Char) (others : List (List Char)),
    IsWord word ∧ (∀ other ∈ others, IsWord other) ∧ cs = word ++ others.flatMap ('-' :: ·)

theorem IsKeyword.exists_cons {cs : List Char} (h : IsKeyword cs) :
    ∃ c tail, cs = c :: tail ∧ Text.isLetter c = true := by
  obtain ⟨_, others, ⟨c, ds, rfl, hc, -⟩, -, rfl⟩ := h
  exact ⟨c, _, rfl, hc⟩

/-- A text in front of which a keyword ends: it is empty, or it begins with a character that is in
no word, and this is no dash with a letter after it. -/
def Stops (rest : List Char) : Prop :=
  ∀ c more, rest = c :: more → Text.isWord c = false ∧
    (c = '-' → ∀ d ∈ more.head?, Text.isLetter d = false)

theorem isWord_dash : Text.isWord '-' = false := by decide

theorem tailSize_word {cs : List Char} (h : ∀ d ∈ cs, Text.isWord d = true) (rest : List Char) :
    tailSize (cs ++ rest) = cs.length + tailSize rest := by
  induction cs with
  | nil => simp
  | cons c cs ih =>
    obtain ⟨hc, hcs⟩ := List.forall_mem_cons.1 h
    rw [List.cons_append, tailSize.eq_def]
    simp only [hc, if_true, ih hcs, List.length_cons]
    omega

theorem tailSize_stops {rest : List Char} (h : Stops rest) : tailSize rest = 0 := by
  fun_cases tailSize rest with
  | case1 => rfl
  | case2 c cs hword => exact absurd hword (by simp [(h c cs rfl).1])
  | case3 d ds hd hword => exact absurd hd (by simp [(h '-' (d :: ds) rfl).2 rfl d rfl])
  | case4 => rfl
  | case5 => rfl

theorem tailSize_words {others : List (List Char)} (h : ∀ other ∈ others, IsWord other)
    {rest : List Char} (hrest : Stops rest) :
    tailSize (others.flatMap ('-' :: ·) ++ rest) = (others.flatMap ('-' :: ·)).length := by
  induction others with
  | nil => exact tailSize_stops hrest
  | cons other others ih =>
    obtain ⟨⟨d, ds, rfl, hd, hds⟩, hothers⟩ := List.forall_mem_cons.1 h
    rw [List.flatMap_cons, List.append_assoc, List.cons_append, List.cons_append, tailSize.eq_def]
    simp only [isWord_dash, Bool.false_eq_true, if_false, hd, if_true, tailSize_word hds,
      ih hothers, List.length_append, List.length_cons]
    omega

/-- A keyword is read as far as it goes. -/
theorem size_append {cs rest : List Char} (h : IsKeyword cs) (hrest : Stops rest) :
    size (cs ++ rest) = cs.length := by
  obtain ⟨_, others, ⟨c, ds, rfl, hc, hds⟩, hothers, rfl⟩ := h
  rw [List.append_assoc, List.cons_append, size, if_pos hc, tailSize_word hds,
    tailSize_words hothers hrest, List.length_append, List.length_cons]
  omega

/-- What carries a keyword on to the end of a text is the rest of a word, and words with dashes. -/
theorem exists_words {cs : List Char} (h : tailSize cs = cs.length) :
    ∃ (ds : List Char) (others : List (List Char)), (∀ d ∈ ds, Text.isWord d = true) ∧
      (∀ other ∈ others, IsWord other) ∧ cs = ds ++ others.flatMap ('-' :: ·) := by
  fun_induction tailSize cs with
  | case1 => exact ⟨[], [], by simp, by simp, rfl⟩
  | case2 c cs hc ih =>
    obtain ⟨ds, others, hds, hothers, rfl⟩ := ih (by simpa using h)
    exact ⟨c :: ds, others, List.forall_mem_cons.2 ⟨hc, hds⟩, hothers, rfl⟩
  | case3 d ds hd _ ih =>
    obtain ⟨es, others, hes, hothers, rfl⟩ := ih (by simpa using h)
    exact ⟨[], (d :: es) :: others, by simp,
      List.forall_mem_cons.2 ⟨⟨d, es, rfl, hd, hes⟩, hothers⟩, rfl⟩
  | case4 => simp at h
  | case5 => simp at h

theorem isKeyword_iff (cs : List Char) : isKeyword cs = true ↔ IsKeyword cs := by
  constructor
  · intro h
    rcases cs with _ | ⟨c, cs⟩
    · cases h
    · have hsize : size (c :: cs) = (c :: cs).length := by simpa [isKeyword] using h
      rw [size] at hsize
      split at hsize
      · next hc =>
        obtain ⟨ds, others, hds, hothers, rfl⟩ := exists_words (by simpa using hsize)
        exact ⟨c :: ds, others, ⟨c, ds, rfl, hc, hds⟩, hothers, rfl⟩
      · cases hsize
  · intro h
    have hsize : size (cs ++ []) = cs.length := size_append h (by rintro _ _ ⟨⟩)
    obtain ⟨_, others, ⟨c, ds, rfl, -⟩, -, rfl⟩ := h
    rw [List.append_nil] at hsize
    rw [isKeyword, hsize]
    simp

end Keyword

/-! ## Numbers and colours -/

/-- A number as it is typed: perhaps a minus sign, digits of any script, perhaps a point with digits
after it, and perhaps a unit.  One of the two rows of digits may be empty. -/
structure Quantity where
  negative : Bool := false
  whole : List Char
  /-- The digits after the point, if there is a point. -/
  fraction : Option (List Char) := none
  unit : List Char := []
  whole_digits : ∀ c ∈ whole, Text.isDecimal c = true
  fraction_digits : ∀ c ∈ fraction.getD [], Text.isDecimal c = true
  some_digit : whole ≠ [] ∨ fraction.getD [] ≠ []
  unit_chars : ∀ c ∈ unit, Text.isLetter c = true ∨ c = '%'

namespace Quantity

/-- A number without its sign and its unit. -/
def magnitude (q : Quantity) : List Char :=
  q.whole ++ q.fraction.toList.flatMap ('.' :: ·)

/-- A number without its unit. -/
def number (q : Quantity) : List Char := (if q.negative then ['-'] else []) ++ q.magnitude

theorem magnitude_ne_nil (q : Quantity) : q.magnitude ≠ [] := by
  rw [magnitude]
  rcases q.some_digit with h | h
  · exact List.append_ne_nil_of_left_ne_nil h _
  · cases hf : q.fraction with
    | none => exact absurd (by rw [hf]; rfl) h
    | some ds => simp

/-- A number is read in front of what carries no number on. -/
theorem magnitude_append (q : Quantity) {rest : List Char}
    (hrest : ∀ c ∈ rest.head?, Text.isDecimal c = false ∧ c ≠ '.') :
    Stylesheet.magnitude (q.magnitude ++ rest) = q.magnitude := by
  have hdigit : ∀ c ∈ rest.head?, Text.isDecimal c = false := fun c hc ↦ (hrest c hc).1
  have hpoint : Text.isDecimal '.' = false := by decide
  rw [magnitude]
  rcases hf : q.fraction with _ | ds
  · -- without a point the number ends with its digits, unless the rest has the point
    simp only [Option.toList_none, List.flatMap_nil, List.append_nil]
    rw [Stylesheet.magnitude, Text.takeWhile_append_of_stop q.whole_digits hdigit,
      Text.dropWhile_append_of_stop q.whole_digits hdigit]
    rcases rest with _ | ⟨c, rest⟩
    · rfl
    · have hc := (hrest c rfl).2
      split
      · next h => exact absurd (List.cons.inj h).1 hc
      · rfl
  · have hds : ∀ c ∈ ds, Text.isDecimal c = true := by simpa [hf] using q.fraction_digits
    have hstop : ∀ c ∈ ('.' :: (ds ++ rest)).head?, Text.isDecimal c = false := by
      rintro _ ⟨⟩
      exact hpoint
    have hsome : (q.whole.isEmpty && ds.isEmpty) = false := by
      simpa [hf, imp_iff_not_or] using q.some_digit
    simp only [Option.toList_some, List.flatMap_singleton, List.append_assoc, List.cons_append]
    rw [Stylesheet.magnitude, Text.takeWhile_append_of_stop q.whole_digits hstop,
      Text.dropWhile_append_of_stop q.whole_digits hstop]
    simp only [Text.takeWhile_append_of_stop hds hdigit, hsome, Bool.false_eq_true, if_false]

theorem head_magnitude (q : Quantity) :
    ∀ c ∈ q.magnitude.head?, Text.isDecimal c = true ∨ c = '.' := by
  intro c hc
  rw [magnitude] at hc
  rcases hw : q.whole with _ | ⟨d, whole⟩
  · rcases hf : q.fraction with _ | ds
    · simp [hw, hf] at hc
    · right
      simpa [hw, hf, eq_comm] using hc
  · left
    have hd : d = c := by simpa [hw] using hc
    exact q.whole_digits c (by simp [hw, hd])

theorem number_append (q : Quantity) {rest : List Char}
    (hrest : ∀ c ∈ rest.head?, Text.isDecimal c = false ∧ c ≠ '.') :
    Stylesheet.number (q.number ++ rest) = q.number := by
  have hmagnitude := q.magnitude_append hrest
  have hhead := q.head_magnitude
  obtain ⟨c, cs, hne⟩ := List.exists_cons_of_ne_nil q.magnitude_ne_nil
  rw [number]
  rw [hne] at hmagnitude hhead ⊢
  cases q.negative with
  | true =>
    simp only [if_true, List.nil_append, List.cons_append] at hmagnitude ⊢
    rw [Stylesheet.number, hmagnitude]
  | false =>
    have hc : c ≠ '-' := by
      rintro rfl
      exact absurd (hhead '-' rfl) (by decide)
    simp only [Bool.false_eq_true, if_false, List.nil_append, List.cons_append] at hmagnitude ⊢
    rw [Stylesheet.number.eq_def]
    split
    · next h => exact absurd (List.cons.inj h).1 hc
    · exact hmagnitude

theorem isLetter_head_number (q : Quantity) (rest : List Char) :
    ∀ c ∈ (q.number ++ rest).head?, Text.isLetter c = false := by
  intro c hc
  obtain ⟨d, cs, hne⟩ := List.exists_cons_of_ne_nil q.magnitude_ne_nil
  have hhead := q.head_magnitude d (by rw [hne]; rfl)
  rw [number, hne] at hc
  cases hq : q.negative with
  | true =>
    obtain rfl : '-' = c := by simpa [hq] using hc
    decide
  | false =>
    obtain rfl : d = c := by simpa [hq] using hc
    rcases hhead with hd | rfl
    · refine Bool.eq_false_iff.2 fun hletter ↦ ?_
      exact absurd hd (by simp [Text.isDecimal_of_isLetter hletter])
    · decide

end Quantity

/-- A colour as it is typed: a `#` with digits after it. -/
structure Shade where
  digits : List Char
  digits_ne_nil : digits ≠ []
  color_digits : ∀ c ∈ digits, isColorDigit c = true

/-! ## Tokens -/

/-- What a value is made of, as it is typed. -/
inductive ValueToken where
  | number (q : Quantity)
  | color (s : Shade)
  | keyword (cs : List Char) (h : Keyword.IsKeyword cs)

namespace ValueToken

/-- A token as it is typed. -/
def text : ValueToken → List Char
  | .number q => q.number ++ q.unit
  | .color s => '#' :: s.digits
  | .keyword cs _ => cs

/-- Is the token a keyword? -/
def isKeyword : ValueToken → Bool
  | .keyword _ _ => true
  | .number _ | .color _ => false

/-- The text that a token stands for: a number with its unit, a colour written out, or the keyword
among those of the property, and then among those of all properties, that was shortened. -/
def meaning (v : Vocabulary) (property : String) (keywords : List String) : ValueToken → String
  | .number q => measure v property q.number q.unit
  | .color s => Stylesheet.color s.digits
  | .keyword cs _ =>
    ((Keyword.find? (String.ofList cs) keywords).or
      (Keyword.find? (String.ofList cs) v.keywords)).getD (String.ofList cs)

/-- Tokens with dashes between them. -/
def joined (tokens : List ValueToken) : List Char := ['-'].intercalate (tokens.map text)

/-- Can two tokens stand beside each other?  Two keywords would be one. -/
def Apart (t u : ValueToken) : Prop := ¬ (t.isKeyword = true ∧ u.isKeyword = true)

/-- A text in front of which a token ends: nothing, or a dash, which after a keyword has no letter
after it. -/
def Ends (t : ValueToken) (rest : List Char) : Prop :=
  ∀ c more, rest = c :: more → c = '-' ∧
    (t.isKeyword = true → ∀ d ∈ more.head?, Text.isLetter d = false)

variable {v : Vocabulary} {property : String} {keywords : List String}

theorem text_ne_nil (t : ValueToken) : t.text ≠ [] := by
  cases t with
  | number q =>
    exact List.append_ne_nil_of_left_ne_nil
      (List.append_ne_nil_of_right_ne_nil _ q.magnitude_ne_nil) _
  | color s => exact List.cons_ne_nil _ _
  | keyword cs h =>
    obtain ⟨c, tail, rfl, -⟩ := h.exists_cons
    exact List.cons_ne_nil c tail

theorem isUnitChar_iff {c : Char} :
    isUnitChar c = true ↔ Text.isLetter c = true ∨ c = '%' := by
  simp [isUnitChar]

/-- What begins with a unit or a dash does not carry a number on. -/
theorem stops_number {unit rest : List Char}
    (hunit : ∀ c ∈ unit, Text.isLetter c = true ∨ c = '%') (hrest : ∀ c ∈ rest.head?, c = '-') :
    ∀ c ∈ (unit ++ rest).head?, Text.isDecimal c = false ∧ c ≠ '.' := by
  intro c hc
  cases unit with
  | nil =>
    rw [hrest c hc]
    decide
  | cons d unit =>
    obtain rfl : d = c := by simpa using hc
    rcases hunit d List.mem_cons_self with h | rfl
    · refine ⟨Text.isDecimal_of_isLetter h, ?_⟩
      rintro rfl
      exact absurd h (by decide)
    · decide

theorem token_number (q : Quantity) {rest : List Char} (h : ∀ c ∈ rest.head?, c = '-') :
    token v property keywords (q.number ++ q.unit ++ rest)
      = (measure v property q.number q.unit, (q.number ++ q.unit).length) := by
  have hnumber : Stylesheet.number (q.number ++ (q.unit ++ rest)) = q.number :=
    q.number_append (stops_number q.unit_chars h)
  have hne : q.number.isEmpty = false := by
    rw [Quantity.number]
    simpa using fun _ ↦ q.magnitude_ne_nil
  have hunit : (q.unit ++ rest).takeWhile isUnitChar = q.unit :=
    Text.takeWhile_append_of_stop (fun c hc ↦ isUnitChar_iff.2 (q.unit_chars c hc)) fun c hc ↦ by
      rw [h c hc]
      decide
  rw [List.append_assoc, token.eq_def]
  simp only [hnumber, hne, Bool.not_false, if_true, List.drop_left, hunit, List.length_append]

/-- No number begins with anything but a digit, a point or a minus sign. -/
theorem number_eq_nil {c : Char} (hdecimal : Text.isDecimal c = false) (hpoint : c ≠ '.')
    (hminus : c ≠ '-') (cs : List Char) : Stylesheet.number (c :: cs) = [] := by
  have hmagnitude : magnitude (c :: cs) = [] := by
    rw [magnitude, List.takeWhile_cons, List.dropWhile_cons, hdecimal]
    simp only [Bool.false_eq_true, if_false]
    split
    · next h => exact absurd (List.cons.inj h).1 hpoint
    · rfl
  rw [Stylesheet.number.eq_def]
  split
  · next h => exact absurd (List.cons.inj h).1 hminus
  · exact hmagnitude

theorem token_color (s : Shade) {rest : List Char} (h : ∀ c ∈ rest.head?, c = '-') :
    token v property keywords ('#' :: s.digits ++ rest)
      = (Stylesheet.color s.digits, ('#' :: s.digits).length) := by
  have hnumber := number_eq_nil (c := '#') (by decide) (by decide) (by decide) (s.digits ++ rest)
  have hdigits : (s.digits ++ rest).takeWhile isColorDigit = s.digits :=
    Text.takeWhile_append_of_stop s.color_digits fun c hc ↦ by
      rw [h c hc]
      decide
  have hne : s.digits.isEmpty = false := by simpa using s.digits_ne_nil
  rw [List.cons_append, token.eq_def]
  simp only [hnumber, List.isEmpty_nil, Bool.not_true, Bool.false_eq_true, if_false, hdigits, hne,
    Bool.not_false, if_true, List.length_cons]

theorem token_keyword {cs : List Char} (hcs : Keyword.IsKeyword cs) {rest : List Char}
    (h : Keyword.Stops rest) :
    token v property keywords (cs ++ rest)
      = (((Keyword.find? (String.ofList cs) keywords).or
          (Keyword.find? (String.ofList cs) v.keywords)).getD (String.ofList cs), cs.length) := by
  have hsize := Keyword.size_append hcs h
  obtain ⟨c, tail, rfl, hc⟩ := hcs.exists_cons
  have hapart : ∀ d, Text.isLetter d = false → c ≠ d := by
    rintro d hd rfl
    exact absurd hc (by simp [hd])
  have hnumber := number_eq_nil (Text.isDecimal_of_isLetter hc) (hapart '.' (by decide))
    (hapart '-' (by decide)) (tail ++ rest)
  have hcolor := hapart '#' (by decide)
  rw [List.cons_append] at hsize ⊢
  rw [token.eq_def]
  split
  · next heq => exact absurd (List.cons.inj heq).1 hcolor
  · have htake : (c :: (tail ++ rest)).take (c :: tail).length = c :: tail := by
      rw [← List.cons_append]
      exact List.take_left
    have hne : (c :: tail).length ≠ 0 := by simp
    simp only [hnumber, hsize, htake, List.isEmpty_nil, Bool.not_true, Bool.false_eq_true, if_false,
      if_pos hne]

/-- **A token is read in front of a separator.** -/
theorem token_append (t : ValueToken) {rest : List Char} (h : t.Ends rest) :
    token v property keywords (t.text ++ rest)
      = (t.meaning v property keywords, t.text.length) := by
  have hdash : ∀ c ∈ rest.head?, c = '-' := by
    cases rest with
    | nil => simp
    | cons d rest => simpa [eq_comm] using (h d rest rfl).1
  cases t with
  | number q => exact token_number q hdash
  | color s => exact token_color s hdash
  | keyword cs hcs =>
    refine token_keyword hcs fun c more hrest ↦ ?_
    obtain ⟨rfl, hmore⟩ := h c more hrest
    exact ⟨Keyword.isWord_dash, fun _ ↦ hmore rfl⟩

/-! ## Rows of tokens -/

theorem joined_cons_cons (t u : ValueToken) (ts : List ValueToken) :
    joined (t :: u :: ts) = t.text ++ '-' :: joined (u :: ts) := by
  simp [joined, List.intercalate_cons_cons]

/-- A token that stands alone, or before a separator, is a piece of its own. -/
theorem valueStep_append (t : ValueToken) {rest : List Char} (h : t.Ends rest) :
    valueStep v property keywords (t.text ++ rest)
      = ([t.meaning v property keywords], t.text.length + rest.head?.toList.length) := by
  have hne : t.text.length ≠ 0 := fun hlength ↦ t.text_ne_nil (List.length_eq_zero_iff.1 hlength)
  rw [valueStep, token_append t h]
  simp only [if_neg hne, List.drop_left]
  cases rest with
  | nil => rfl
  | cons c rest =>
    obtain ⟨rfl, -⟩ := h c rest rfl
    rfl

/-- Only a keyword begins with a letter. -/
theorem isLetter_head {t : ValueToken} (h : t.isKeyword = false) (rest : List Char) :
    ∀ c ∈ (t.text ++ rest).head?, Text.isLetter c = false := by
  cases t with
  | number q =>
    rw [text, List.append_assoc]
    exact q.isLetter_head_number (q.unit ++ rest)
  | color s =>
    rintro _ ⟨⟩
    decide
  | keyword cs hcs => cases h

/-- A token ends before the dash in front of a token that can stand beside it. -/
theorem ends_joined {t u : ValueToken} (h : t.Apart u) (ts : List ValueToken) :
    t.Ends ('-' :: joined (u :: ts)) := by
  rintro c more hmore
  obtain ⟨rfl, rfl⟩ := List.cons.inj hmore
  refine ⟨rfl, fun ht ↦ ?_⟩
  have hu : u.isKeyword = false := Bool.eq_false_iff.2 fun hu ↦ h ⟨ht, hu⟩
  cases ts with
  | nil => simpa [joined] using isLetter_head hu []
  | cons w ts =>
    rw [joined_cons_cons]
    exact isLetter_head hu _

/-- **A row of tokens is cut where it was joined.** -/
theorem tile_joined {tokens : List ValueToken} (h : tokens.IsChain Apart) :
    Text.tile (valueStep v property keywords) 0 (joined tokens)
      = tokens.map (meaning v property keywords) := by
  induction tokens with
  | nil => rfl
  | cons t ts ih =>
    cases ts with
    | nil =>
      have hstep : valueStep v property keywords (t.text ++ [])
          = ([t.meaning v property keywords], t.text.length) :=
        valueStep_append t (by rintro _ _ ⟨⟩)
      have htile := Text.tile_piece t.text_ne_nil hstep
      simpa [joined] using htile
    | cons u ts =>
      obtain ⟨hapart, hchain⟩ := List.isChain_cons_cons.1 h
      -- the dash is read together with the token before it
      have hsplit : joined (t :: u :: ts) = (t.text ++ ['-']) ++ joined (u :: ts) := by
        rw [joined_cons_cons, List.append_assoc, List.singleton_append]
      have hstep : valueStep v property keywords ((t.text ++ ['-']) ++ joined (u :: ts))
          = ([t.meaning v property keywords], (t.text ++ ['-']).length) := by
        rw [List.append_assoc, List.singleton_append, valueStep_append t (ends_joined hapart ts)]
        simp
      rw [hsplit, Text.tile_piece (by simp) hstep, ih hchain]
      rfl

/-- **Values are read token by token.**  A row of tokens with dashes between them, in which no two
keywords stand beside each other, is read as one text: what the tokens stand for, with blanks
between.  Without tokens there is no text. -/
theorem parseValue_joined (v : Vocabulary) (property : String) (keywords : List String)
    (tokens : List ValueToken) (h : tokens.IsChain Apart) :
    parseValue v property keywords (String.ofList (joined tokens))
      = if tokens = [] then []
        else [.text (" ".intercalate (tokens.map (meaning v property keywords)))] := by
  rw [parseValue, String.toList_ofList, tile_joined h]
  cases tokens with
  | nil => rfl
  | cons t ts => rfl

/-- Two numbers, one of them negative and without digits before its point, a colour and a shortened
keyword, and a number in digits of another script. -/
def mixedTokens : List ValueToken := [
  .number ⟨false, ['1', '0'], none, [], List.all_eq_true.1 (by decide), by simp, by simp, by simp⟩,
  .number ⟨true, [], some ['5'], ['e'], by simp, List.all_eq_true.1 (by decide), by simp,
    List.forall_mem_singleton.2 (.inl (by decide))⟩,
  .color ⟨['f', 'C'], by simp, List.all_eq_true.1 (by decide)⟩,
  .keyword ['i', 'b'] ((Keyword.isKeyword_iff _).1 (by decide)),
  .number ⟨true, ['٣'], some [], [], List.all_eq_true.1 (by decide), by simp, by simp, by simp⟩]

/-- A vocabulary with two units and one short name. -/
def pixels : Vocabulary where
  keywords := ["auto"]
  intUnit := "px"
  floatUnit := "em"
  unitAliases := [("e", "em")]
  unitless := ["order"]

theorem parseValue_mixed :
    mixedTokens.IsChain Apart ∧ String.ofList (joined mixedTokens) = "10--.5e-#fC-ib--٣." ∧
      parseValue pixels "display" ["block", "inline-block"] "10--.5e-#fC-ib--٣."
        = [.text "10px -.5em #fCfCfC inline-block -٣.em"] := by
  have hchain : mixedTokens.IsChain Apart := by
    simp [mixedTokens, Apart, isKeyword]
  have htext : String.ofList (joined mixedTokens) = "10--.5e-#fC-ib--٣." := by decide
  refine ⟨hchain, htext, ?_⟩
  rw [← htext, parseValue_joined pixels "display" ["block", "inline-block"] mixedTokens hchain]
  decide +kernel

end ValueToken

end Stylesheet

end Shorthand
