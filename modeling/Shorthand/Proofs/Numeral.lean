import Mathlib.Algebra.Group.Nat.Defs
import Mathlib.Data.List.Induction
import Shorthand.Markup.Tree

/-!
# Decimal numerals read back

A number written in decimal is a row of plain digits, and reading that row gives the number back.
This is what ties a multiplier `*n` of an abbreviation to the number `n`.

* `numeral?_toDigits` : the numeral of a number reads as that number.
* `toDigits_numeral` : a row of digits that is written as numbers are is the numeral of its number.
* `numeral_append`, `numeral_eq_zero_iff` : rows of digits put together, and rows of zeros.
* `takeWhile_isDigit_toDigits` : the whole numeral is taken when digits are.
* `Tree.multiplier_toString` : a count that is written in decimal is read back.
-/

set_option autoImplicit false

namespace Shorthand.Text

/-- A plain digit is a decimal digit: the zeros begin with that of ASCII. -/
theorem decimalValue?_of_isDigit {c : Char} (h : c.isDigit = true) :
    decimalValue? c = some (c.toNat - '0'.toNat) := by
  have hc : 48 ≤ c.toNat ∧ c.toNat ≤ 57 := Char.isDigit_iff_toNat.1 h
  have hfind : decimalZeros.find? (fun first ↦ first ≤ c.toNat && c.toNat < first + 10)
      = some 0x30 := by
    rw [decimalZeros, List.find?_cons_of_pos]
    simp only [Bool.and_eq_true, decide_eq_true_eq]
    omega
  rw [decimalValue?, hfind]
  rfl

theorem isDecimal_of_isDigit {c : Char} (h : c.isDigit = true) : isDecimal c = true := by
  rw [isDecimal, decimalValue?_of_isDigit h]
  rfl

theorem isAscii_of_isDigit {c : Char} (h : c.isDigit = true) : isAscii c = true := by
  have hc : 48 ≤ c.toNat ∧ c.toNat ≤ 57 := Char.isDigit_iff_toNat.1 h
  simp only [isAscii, decide_eq_true_eq]
  omega

theorem isDigit_toDigits {n : Nat} {c : Char} (h : c ∈ Nat.toDigits 10 n) : isDigit c = true := by
  have hc := Nat.isDigit_of_mem_toDigits (by decide) (by decide) h
  rw [isDigit_of_ascii (isAscii_of_isDigit hc), hc]

/-- On plain digits a numeral is what core reads. -/
theorem numeral_eq_ofDigitChars {cs : List Char} (h : ∀ c ∈ cs, c.isDigit = true) :
    numeral cs = Nat.ofDigitChars 10 cs 0 := by
  suffices hs : ∀ n : Nat, cs.foldl (fun n c ↦ 10 * n + (decimalValue? c).getD 0) n
      = Nat.ofDigitChars 10 cs n from hs 0
  induction cs with
  | nil => intro n; rfl
  | cons c cs ih =>
    intro n
    have hc := decimalValue?_of_isDigit (h c List.mem_cons_self)
    rw [List.foldl_cons, ih (fun d hd ↦ h d (List.mem_cons_of_mem c hd)), hc, Nat.ofDigitChars_cons,
      Option.getD_some]

theorem numeral_toDigits (n : Nat) : numeral (Nat.toDigits 10 n) = n := by
  rw [numeral_eq_ofDigitChars fun c hc ↦ Nat.isDigit_of_mem_toDigits (by decide) (by decide) hc,
    Nat.ofDigitChars_ten_toDigits]

/-- The numeral of a number reads as that number. -/
theorem numeral?_toDigits (n : Nat) : numeral? (Nat.toDigits 10 n) = some n := by
  have hall : (Nat.toDigits 10 n).all isDecimal = true :=
    List.all_eq_true.2 fun c hc ↦
      isDecimal_of_isDigit (Nat.isDigit_of_mem_toDigits (by decide) (by decide) hc)
  have hne : (Nat.toDigits 10 n).isEmpty = false :=
    List.isEmpty_eq_false_iff.2 Nat.toDigits_ne_nil
  rw [numeral?, hall, hne, numeral_toDigits]
  rfl

/-- The whole numeral is taken when digits are. -/
theorem takeWhile_isDigit_toDigits (n : Nat) (rest : List Char) :
    (Nat.toDigits 10 n ++ rest).takeWhile isDigit
      = Nat.toDigits 10 n ++ rest.takeWhile isDigit :=
  List.takeWhile_append_of_pos fun _ hc ↦ isDigit_toDigits hc

/-! ## Rows of digits -/

theorem numeral_snoc (digits : List Char) (c : Char) :
    numeral (digits ++ [c]) = 10 * numeral digits + (decimalValue? c).getD 0 := by
  rw [numeral, List.foldl_append]
  rfl

theorem numeral_append (ds es : List Char) :
    numeral (ds ++ es) = numeral ds * 10 ^ es.length + numeral es := by
  induction es using List.reverseRecOn with
  | nil => simp [numeral]
  | append_singleton es c ih =>
    have hpow : numeral ds * 10 ^ (es.length + 1) = 10 * (numeral ds * 10 ^ es.length) := by
      rw [Nat.pow_succ, ← Nat.mul_assoc, Nat.mul_comm]
    rw [← List.append_assoc, numeral_snoc, numeral_snoc, ih, List.length_append,
      List.length_singleton, hpow]
    omega

/-- A row of digits stands for zero exactly if each of them does. -/
theorem numeral_eq_zero_iff (digits : List Char) :
    numeral digits = 0 ↔ ∀ c ∈ digits, ∀ d, decimalValue? c = some d → d = 0 := by
  induction digits using List.reverseRecOn with
  | nil => simp [numeral]
  | append_singleton digits c ih =>
    have hc : (decimalValue? c).getD 0 = 0 ↔ ∀ d, decimalValue? c = some d → d = 0 := by
      cases decimalValue? c <;> simp
    rw [numeral_snoc, Nat.add_eq_zero_iff, hc, Nat.mul_eq_zero, ih]
    simp only [List.mem_append, List.mem_singleton]
    constructor
    · rintro ⟨hten | hdigits, hlast⟩ d (hd | rfl)
      · cases hten
      · cases hten
      · exact hdigits d hd
      · exact hlast
    · exact fun h ↦ ⟨.inr fun d hd ↦ h d (.inl hd), h c (.inr rfl)⟩

/-- Zeros in front of a numeral do not count. -/
theorem numeral_zeros (k : Nat) (digits : List Char) :
    numeral (List.replicate k '0' ++ digits) = numeral digits := by
  have hzeros : numeral (List.replicate k '0') = 0 := by
    refine (numeral_eq_zero_iff _).2 fun c hc d hd ↦ ?_
    obtain rfl := List.eq_of_mem_replicate hc
    exact (Option.some.inj hd).symm
  rw [numeral_append, hzeros, Nat.zero_mul, Nat.zero_add]

/-! ## How numbers are written -/

/-- A row of digits as a number is written: plain digits, without a zero in front of others. -/
structure IsNumeral (digits : List Char) : Prop where
  ne_nil : digits ≠ []
  plain : ∀ c ∈ digits, c.isDigit = true
  zero : digits.head? = some '0' → digits = ['0']

theorem isNumeral_toDigits (n : Nat) : IsNumeral (Nat.toDigits 10 n) := by
  refine ⟨Nat.toDigits_ne_nil,
    fun c hc ↦ Nat.isDigit_of_mem_toDigits (by decide) (by decide) hc, ?_⟩
  induction n using Nat.strongRecOn with
  | ind n ih =>
    rw [Nat.toDigits_eq_if (by decide)]
    split
    · exact fun h ↦ congrArg (· :: []) (Option.some.inj h)
    · next hle =>
      intro h
      obtain ⟨d, ds, hd⟩ := List.exists_cons_of_ne_nil (Nat.toDigits_ne_nil (n := n / 10) (b := 10))
      have hzero := ih (n / 10) (by omega) (by rw [hd] at h ⊢; exact h)
      have hvalue : n / 10 = 0 := by
        rw [← numeral_toDigits (n / 10), hzero]
        rfl
      omega

theorem digitChar_of_isDigit {c : Char} (h : c.isDigit = true) :
    c.toNat - '0'.toNat < 10 ∧ (c.toNat - '0'.toNat).digitChar = c := by
  have hc : 48 ≤ c.toNat ∧ c.toNat ≤ 57 := Char.isDigit_iff_toNat.1 h
  have hlt : c.toNat - '0'.toNat < 10 := by
    change c.toNat - 48 < 10
    omega
  refine ⟨hlt, Char.toNat_inj.1 ?_⟩
  rw [Nat.toNat_digitChar_of_lt_ten hlt]
  change 48 + (c.toNat - 48) = c.toNat
  omega

theorem numeral_concat (digits : List Char) {c : Char} (h : c.isDigit = true) :
    numeral (digits ++ [c]) = 10 * numeral digits + (c.toNat - '0'.toNat) := by
  rw [numeral_snoc, decimalValue?_of_isDigit h, Option.getD_some]

theorem toDigits_numeral {digits : List Char} (h : IsNumeral digits) :
    Nat.toDigits 10 (numeral digits) = digits := by
  induction digits using List.reverseRecOn with
  | nil => exact absurd rfl h.ne_nil
  | append_singleton digits c ih =>
    have hc : c.isDigit = true := h.plain c (by simp)
    obtain ⟨hlt, hchar⟩ := digitChar_of_isDigit hc
    by_cases hne : digits = []
    · subst hne
      rw [numeral_concat [] hc]
      change Nat.toDigits 10 (10 * 0 + _) = _
      rw [Nat.mul_zero, Nat.zero_add, Nat.toDigits_of_lt_base hlt, hchar]
      rfl
    have hzero : digits.head? ≠ some '0' := by
      intro hhead
      have hall := h.zero (by simp [hhead])
      exact hne (by simpa using congrArg List.length hall)
    have hdigits := ih ⟨hne, fun d hd ↦ h.plain d (by simp [hd]), fun hhead ↦ absurd hhead hzero⟩
    have hpos : 0 < numeral digits := by
      refine Nat.pos_of_ne_zero fun heq ↦ hzero ?_
      rw [← hdigits, heq]
      rfl
    rw [numeral_concat digits hc, ← Nat.toDigits_append_toDigits (by decide) hpos hlt, hdigits,
      Nat.toDigits_of_lt_base hlt, hchar]
end Shorthand.Text

namespace Shorthand.Markup.Tree

/-- A count that is written in decimal is read back. -/
theorem multiplier_toString {n : Nat} (hn : 1 ≤ n) (offset : Nat) :
    multiplier (toString n) offset = .ok { count := n } := by
  have hne : (toString n).isEmpty = false := by
    rw [Nat.toString_eq_ofList_toDigits]
    simp [Nat.toDigits_ne_nil]
  rw [multiplier, hne, Nat.toString_eq_ofList_toDigits, String.toList_ofList,
    Text.numeral?_toDigits]
  obtain ⟨n, rfl⟩ := Nat.exists_eq_add_of_le' hn
  rfl

end Shorthand.Markup.Tree
