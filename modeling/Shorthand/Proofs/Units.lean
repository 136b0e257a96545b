import Mathlib.Algebra.Order.Field.Basic
import Mathlib.Algebra.Order.Ring.Rat
import Mathlib.Tactic.FieldSimp
import Mathlib.Tactic.NormNum
import Shorthand.Config.Basic
import Shorthand.Proofs.ValueTokens

/-!
# Numbers that lose their unit

Zero needs no unit, and a number is compared with zero in double precision.  Large numbers do no
harm there: the digits may be as many as they like, the number only grows.  Small ones do.  Behind
the point there is room for digits that double precision has no room for, and a number up to half of
the least positive double is rounded to zero and loses its unit, though it has a digit other than
zero.

Digits of all scripts count, so zero is told by the values of the digits, not by the characters.

* `Quantity.value` : what a number amounts to; `exists_quantity`, every number that is read is one.
* `isZero_iff_value_le` : the comparison with zero, in exact terms.
* `value_eq_zero_iff` : a number is zero exactly if its digits are.
* `unit_exact_iff` : which numbers lose their unit, and where that is exactly zero.
* `tiny_loses_unit` : a number that loses its unit and is not zero.
-/

set_option autoImplicit false

namespace Shorthand.Stylesheet

open Text (isDecimal decimalValue? numeral)

namespace Quantity

/-! ## What is read as a number -/

/-- A number may go without digits on one side of its point. -/
theorem digits_nil : ∀ c ∈ ([] : List Char), isDecimal c = true := List.forall_mem_nil _

/-- A number may go without a unit. -/
theorem unit_nil : ∀ c ∈ ([] : List Char), Text.isLetter c = true ∨ c = '%' := List.forall_mem_nil _

theorem exists_magnitude {cs : List Char} (h : Stylesheet.magnitude cs ≠ []) :
    ∃ q : Quantity, q.negative = false ∧ q.unit = [] ∧ q.magnitude = Stylesheet.magnitude cs := by
  have hwhole : ∀ c ∈ cs.takeWhile isDecimal, isDecimal c = true :=
    List.all_eq_true.1 List.all_takeWhile
  rw [Stylesheet.magnitude] at h ⊢
  split at h
  · next rest hrest =>
    have hfraction : ∀ c ∈ rest.takeWhile isDecimal, isDecimal c = true :=
      List.all_eq_true.1 List.all_takeWhile
    cases hnone : (cs.takeWhile isDecimal).isEmpty && (rest.takeWhile isDecimal).isEmpty with
    | true =>
      simp only [hnone, if_true] at h
      exact absurd rfl h
    | false =>
      refine ⟨⟨false, cs.takeWhile isDecimal, some (rest.takeWhile isDecimal), [], hwhole,
        hfraction, ?_, unit_nil⟩, rfl, rfl, ?_⟩
      · simpa [imp_iff_not_or] using hnone
      · simp [magnitude, hnone]
  · exact ⟨⟨false, cs.takeWhile isDecimal, none, [], hwhole, digits_nil, .inl h, unit_nil⟩, rfl,
      rfl, by simp [magnitude]⟩

/-- Every number that begins a text is a number as it is typed. -/
theorem exists_quantity {cs : List Char} (h : Stylesheet.number cs ≠ []) :
    ∃ q : Quantity, q.unit = [] ∧ q.number = Stylesheet.number cs := by
  rw [Stylesheet.number.eq_def] at h ⊢
  split at h
  · next rest =>
    have hmagnitude : Stylesheet.magnitude rest ≠ [] := by
      intro hnil
      simp [hnil] at h
    obtain ⟨q, -, hunit, hq⟩ := exists_magnitude hmagnitude
    refine ⟨{ q with negative := true }, hunit, ?_⟩
    obtain ⟨c, found, hfound⟩ := List.exists_cons_of_ne_nil hmagnitude
    have hmag : magnitude { q with negative := true } = c :: found := hq.trans hfound
    simp only [hfound, number, hmag]
    rfl
  · obtain ⟨q, hsign, hunit, hq⟩ := exists_magnitude h
    exact ⟨q, hunit, by simp [number, hsign, hq]⟩

/-! ## What a number amounts to -/

/-- The digits after the point. -/
def places (q : Quantity) : List Char := q.fraction.getD []

/-- What a number amounts to, without its sign. -/
def value (q : Quantity) : ℚ := numeral q.whole + numeral q.places / 10 ^ q.places.length

/-- Has a number no digit but zeros? -/
def OnlyZeros (q : Quantity) : Prop := ∀ c ∈ q.number, ∀ d, decimalValue? c = some d → d = 0

theorem mem_number_iff (q : Quantity) {c : Char} (hc : isDecimal c = true) :
    c ∈ q.number ↔ c ∈ q.whole ∨ c ∈ q.places := by
  have hminus : c ≠ '-' := by
    rintro rfl
    exact absurd hc (by decide)
  have hpoint : c ≠ '.' := by
    rintro rfl
    exact absurd hc (by decide)
  rw [number, magnitude, places]
  cases q.negative <;> cases q.fraction <;> simp [hminus, hpoint]

theorem onlyZeros_iff (q : Quantity) :
    q.OnlyZeros ↔ numeral q.whole = 0 ∧ numeral q.places = 0 := by
  rw [Text.numeral_eq_zero_iff, Text.numeral_eq_zero_iff]
  have hdecimal : ∀ {c : Char} {d : Nat}, decimalValue? c = some d → isDecimal c = true := by
    intro c d hd
    rw [isDecimal, hd]
    rfl
  constructor
  · intro h
    exact ⟨fun c hc d hd ↦ h c ((q.mem_number_iff (hdecimal hd)).2 (.inl hc)) d hd,
      fun c hc d hd ↦ h c ((q.mem_number_iff (hdecimal hd)).2 (.inr hc)) d hd⟩
  · rintro ⟨hwhole, hplaces⟩ c hc d hd
    rcases (q.mem_number_iff (hdecimal hd)).1 hc with hc | hc
    · exact hwhole c hc d hd
    · exact hplaces c hc d hd

/-- A number is zero exactly if its digits are. -/
theorem value_eq_zero_iff (q : Quantity) : q.value = 0 ↔ q.OnlyZeros := by
  rw [onlyZeros_iff, value, add_eq_zero_iff_of_nonneg (by positivity) (by positivity)]
  simp

/-! ## The comparison with zero -/

/-- The point of a number, if it has one, with the digits after it. -/
def pointed (q : Quantity) : List Char := q.fraction.toList.flatMap ('.' :: ·)

theorem filter_pointed (q : Quantity) : q.pointed.filter isDecimal = q.places := by
  have hpoint : isDecimal '.' = false := by decide
  have hplaces : q.places.filter isDecimal = q.places := List.filter_eq_self.2 q.fraction_digits
  rw [places] at hplaces ⊢
  rw [pointed]
  cases hf : q.fraction with
  | none => rfl
  | some ds =>
    rw [hf, Option.getD_some] at hplaces
    rw [Option.toList_some, List.flatMap_singleton, List.filter_cons_of_neg (by simp [hpoint]),
      hplaces, Option.getD_some]

theorem dropWhile_number (q : Quantity) : q.number.dropWhile (· != '.') = q.pointed := by
  have hbefore : ∀ c ∈ (if q.negative then ['-'] else []) ++ q.whole, (c != '.') = true := by
    intro c hc
    rw [bne_iff_ne]
    rintro rfl
    rcases List.mem_append.1 hc with hc | hc
    · cases hq : q.negative <;> simp [hq] at hc
    · exact absurd (q.whole_digits '.' hc) (by decide)
  have hstop : ∀ c ∈ q.pointed.head?, (c != '.') = false := by
    intro c hc
    rw [pointed] at hc
    cases hf : q.fraction with
    | none => simp [hf] at hc
    | some ds =>
      obtain rfl : '.' = c := by simpa [hf] using hc
      rfl
  rw [number, magnitude, ← List.append_assoc]
  exact Text.dropWhile_append_of_stop hbefore hstop

theorem decimalParts_number (q : Quantity) :
    decimalParts q.number = (numeral (q.whole ++ q.places), q.places.length) := by
  have hsign : (if q.negative then ['-'] else []).filter isDecimal = [] := by
    cases q.negative <;> decide
  have hwhole : q.whole.filter isDecimal = q.whole := List.filter_eq_self.2 q.whole_digits
  have hdigits : q.number.filter isDecimal = q.whole ++ q.places := by
    rw [number, magnitude, ← pointed, List.filter_append, List.filter_append, hsign, hwhole,
      filter_pointed, List.nil_append]
  rw [decimalParts, hdigits, dropWhile_number, filter_pointed]

/-- Half of the least positive number of double precision. -/
def halfLeast : ℚ := 1 / smallestHalf

theorem halfLeast_nonneg : 0 ≤ halfLeast := by
  rw [halfLeast]
  positivity

/-- A number counts as zero up to half of the least positive double. -/
theorem isZero_iff_value_le (q : Quantity) : isZero q.number = true ↔ q.value ≤ halfLeast := by
  -- Both sides are fractions of natural numbers, and the code compares the cross products.
  have hhalf : (0 : ℚ) < smallestHalf := Nat.cast_pos.2 (by decide +kernel)
  have hten : (0 : ℚ) < 10 ^ q.places.length := by positivity
  have hvalue : q.value
      = (numeral q.whole * 10 ^ q.places.length + numeral q.places : ℕ) / 10 ^ q.places.length := by
    rw [value]
    push_cast
    field_simp
  rw [isZero_iff, decimalParts_number, Text.numeral_append, hvalue, halfLeast,
    div_le_div_iff₀ hten hhalf, one_mul, ← Nat.cast_mul]
  exact_mod_cast Iff.rfl

end Quantity

/-! ## Units -/

/-- The unit of a number that is typed without one. -/
def Vocabulary.unitOf (v : Vocabulary) (q : Quantity) : String :=
  if '.' ∈ q.number then v.floatUnit else v.intUnit

namespace Quantity

theorem measure_number (v : Vocabulary) {property : String} (h : property ∉ v.unitless)
    (q : Quantity) :
    measure v property q.number []
      = if q.value ≤ halfLeast then String.ofList q.number
        else String.ofList q.number ++ v.unitOf q := by
  have hunit : (String.ofList []).isEmpty = true := by decide
  have hproperty : v.unitless.contains property = false := by simpa using h
  rw [measure, Vocabulary.unitOf]
  simp only [hunit, Bool.not_true, Bool.false_eq_true, if_false, hproperty, Bool.false_or,
    q.isZero_iff_value_le, List.contains_iff_mem]
  split
  · rfl
  · split <;> rfl

theorem parseValue_number (v : Vocabulary) (property : String) (keywords : List String)
    (q : Quantity) :
    parseValue v property keywords (String.ofList q.number)
      = [.text (measure v property q.number [])] := by
  let t : ValueToken := .number { q with unit := [], unit_chars := unit_nil }
  have htext : ValueToken.joined [t] = q.number := by
    simp [ValueToken.joined, ValueToken.text, t, number, magnitude]
  have hparse := ValueToken.parseValue_joined v property keywords [t] (.singleton t)
  rw [htext, if_neg (List.cons_ne_nil t [])] at hparse
  rw [hparse, List.map_singleton, String.intercalate_singleton]
  rfl

/-- **Only what is zero in double precision loses its unit.**  Where numbers have units, a number
that is typed without one is left alone exactly up to half of the least positive double, and gets
its unit above.  So the numbers left alone are those with no digit but zeros, and these only, unless
the number lies between zero and that bound. -/
theorem unit_exact_iff (v : Vocabulary) (property : String) (keywords : List String) (q : Quantity)
    (hproperty : property ∉ v.unitless) (hint : v.intUnit ≠ "") (hfloat : v.floatUnit ≠ "") :
    parseValue v property keywords (String.ofList q.number)
        = [.text (measure v property q.number [])] ∧
      (measure v property q.number [] = String.ofList q.number ↔ q.value ≤ halfLeast) ∧
      (halfLeast < q.value →
        measure v property q.number [] = String.ofList q.number ++ v.unitOf q) ∧
      ((measure v property q.number [] = String.ofList q.number ↔ q.OnlyZeros) ∧
          (¬ q.OnlyZeros →
            measure v property q.number [] = String.ofList q.number ++ v.unitOf q) ↔
        q.value = 0 ∨ halfLeast < q.value) := by
  have hunit : v.unitOf q ≠ "" := by
    rw [Vocabulary.unitOf]
    split
    · exact hfloat
    · exact hint
  have hmeasure := measure_number v hproperty q
  have hbare : measure v property q.number [] = String.ofList q.number ↔ q.value ≤ halfLeast := by
    rw [hmeasure]
    split
    · next hle => exact iff_of_true rfl hle
    · next hlt =>
      refine iff_of_false (fun h ↦ hunit ?_) hlt
      simpa using h
  have habove : halfLeast < q.value →
      measure v property q.number [] = String.ofList q.number ++ v.unitOf q := by
    intro hlt
    rw [hmeasure, if_neg (not_le.2 hlt)]
  refine ⟨parseValue_number v property keywords q, hbare, habove, ?_⟩
  rw [hbare, ← value_eq_zero_iff]
  constructor
  · rintro ⟨hexact, -⟩
    rcases le_or_gt q.value halfLeast with hle | hlt
    · exact .inl (hexact.1 hle)
    · exact .inr hlt
  · rintro (hzero | hlt)
    · have hle : q.value ≤ halfLeast := hzero ▸ halfLeast_nonneg
      exact ⟨iff_of_true hle hzero, fun hne ↦ absurd hzero hne⟩
    · have hne : q.value ≠ 0 := ne_of_gt (lt_of_le_of_lt halfLeast_nonneg hlt)
      exact ⟨iff_of_false (not_le.2 hlt) hne, fun _ ↦ habove hlt⟩

/-- Minus a half, with a zero more than it needs. -/
def half : Quantity where
  negative := true
  whole := ['0']
  fraction := some ['5', '0']
  whole_digits := List.all_eq_true.1 (by decide)
  fraction_digits := List.all_eq_true.1 (by decide)
  some_digit := .inl (List.cons_ne_nil _ _)
  unit_chars := unit_nil

theorem unit_exact_half :
    let v := ({} : Config).vocabulary
    ("margin" ∉ v.unitless ∧ v.intUnit ≠ "" ∧ v.floatUnit ≠ "") ∧
      (halfLeast < half.value ∧ ¬ half.OnlyZeros) ∧
      parseValue v "margin" [] "-0.50" = [.text "-0.50em"] ∧
      ((measure v "margin" half.number [] = "-0.50" ↔ half.OnlyZeros) ∧
        (¬ half.OnlyZeros → measure v "margin" half.number [] = "-0.50em")) := by
  intro v
  have hproperty : "margin" ∉ v.unitless := by decide
  have hint : v.intUnit ≠ "" := by decide
  have hfloat : v.floatUnit ≠ "" := by decide
  have hlt : halfLeast < half.value :=
    not_le.1 (mt half.isZero_iff_value_le.2 (by decide +kernel))
  have hdigit : ¬ half.OnlyZeros := fun h ↦ absurd (h '5' (by decide) 5 rfl) (by decide)
  have htext : String.ofList half.number = "-0.50" := by decide
  have hunit : "-0.50" ++ v.unitOf half = "-0.50em" := by decide
  obtain ⟨hparse, -, habove, hexact⟩ :=
    unit_exact_iff v "margin" [] half hproperty hint hfloat
  rw [habove hlt, htext, hunit] at hparse
  rw [htext, hunit] at hexact
  exact ⟨⟨hproperty, hint, hfloat⟩, ⟨hlt, hdigit⟩, hparse, hexact.2 (.inr hlt)⟩

/-- A one in the three hundred and twenty-fourth place after the point. -/
def tiny : Quantity where
  whole := []
  fraction := some (List.replicate 323 '0' ++ ['1'])
  whole_digits := digits_nil
  fraction_digits := List.all_eq_true.1 (by decide +kernel)
  some_digit := .inr (List.append_ne_nil_of_right_ne_nil _ (List.cons_ne_nil _ _))
  unit_chars := unit_nil

/-- A number that is not zero loses its unit. -/
theorem tiny_loses_unit :
    let v := ({} : Config).vocabulary
    ("margin" ∉ v.unitless ∧ v.intUnit ≠ "" ∧ v.floatUnit ≠ "") ∧ ¬ tiny.OnlyZeros ∧
      measure v "margin" tiny.number [] = String.ofList tiny.number ∧
      parseValue v "margin" [] (String.ofList tiny.number)
        = [.text (String.ofList tiny.number)] := by
  intro v
  have hproperty : "margin" ∉ v.unitless := by decide
  have hmem : '1' ∈ tiny.number :=
    (tiny.mem_number_iff (by decide)).2 (.inr (List.mem_append_right _ List.mem_cons_self))
  have hdigit : ¬ tiny.OnlyZeros := fun h ↦ absurd (h '1' hmem 1 rfl) (by decide)
  have hle : tiny.value ≤ halfLeast := tiny.isZero_iff_value_le.1 (by decide +kernel)
  have hbare : measure v "margin" tiny.number [] = String.ofList tiny.number := by
    rw [measure_number v hproperty, if_pos hle]
  refine ⟨⟨hproperty, by decide, by decide⟩, hdigit, hbare, ?_⟩
  rw [parseValue_number, hbare]

end Quantity

end Shorthand.Stylesheet
