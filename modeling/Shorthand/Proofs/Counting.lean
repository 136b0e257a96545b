import Mathlib.Data.List.Nodup
import Shorthand.Markup.Numbering
import Shorthand.Proofs.Numeral

/-!
# Counting the copies

A run of `$` signs stands for the number of a copy.  A marker behind the run says where counting
starts and whether it goes down, and what it says is taken as far as it goes: the digits after the
at sign end with the last digit, and the run itself with the last sign.  So a run with its marker
counts right in front of every text that does not carry the marker on.

The copies get a row of consecutive numbers, the last copy the first of them if counting goes down.
No two copies get the same text: zeros in front make a number no other one, even where some of the
numbers have outgrown the run and others have not.

* `Marker` : what may stand behind a run; `Marker.numbers`, the numbers of the copies in order.
* `step_run` : a run is read up to the end of its marker.
* `map_position` : the copies get the numbers of the row.
* `digitsIn_injective` : numbers with zeros in front are told apart.
* `text_counted` : the copies of a text with a run in it.
-/

set_option autoImplicit false

namespace Shorthand

namespace Markup.Numbering

/-! ## Numbers in a given width -/

/-- A number in at least `width` digits. -/
def digitsIn (width n : Nat) : List Char := (Nat.toDigits 10 n).leftpad width '0'

theorem numeral_digitsIn (width n : Nat) : Text.numeral (digitsIn width n) = n := by
  rw [digitsIn, List.leftpad, Text.numeral_zeros, Text.numeral_toDigits]

/-- Numbers with zeros in front are told apart. -/
theorem digitsIn_injective (width : Nat) : Function.Injective (digitsIn width) :=
  Function.LeftInverse.injective (numeral_digitsIn width)

theorem padded_natCast (width n : Nat) : padded width n = digitsIn width n := by
  have hn : ¬ (n : Int) < 0 := by omega
  rw [padded, if_neg hn, Int.natAbs_natCast]
  rfl

/-! ## Markers -/

/-- What may stand behind a run of signs: whether to count down, and the digits of the number to
start at, if it is not one. -/
structure Marker where
  down : Bool := false
  digits : List Char := []
  decimal : ∀ c ∈ digits, Text.isDecimal c = true

namespace Marker

/-- A marker as it is typed: nothing, `@N`, `@-` or `@-N`. -/
def typed (m : Marker) : List Char :=
  match m.down, m.digits with
  | false, [] => []
  | false, d :: ds => '@' :: d :: ds
  | true, ds => '@' :: '-' :: ds

/-- The least number of a copy. -/
def start (m : Marker) : Nat := if m.digits.isEmpty then 1 else Text.numeral m.digits

/-- The numbers of `n` copies, in the order of the copies. -/
def numbers (m : Marker) (n : Nat) : List Nat :=
  let row := List.range' m.start n
  if m.down then row.reverse else row

/-- A text that does not carry the marker on: an at sign would begin a marker where there is none,
and a digit would go on with one. -/
def Ends (m : Marker) (rest : List Char) : Prop :=
  ∀ c ∈ rest.head?, if m.typed = [] then c ≠ '@' else Text.isDecimal c = false

theorem nodup_numbers (m : Marker) (n : Nat) : (m.numbers n).Nodup := by
  rw [numbers]
  split
  · exact List.nodup_reverse.2 List.nodup_range'
  · exact List.nodup_range'

theorem head?_typed_ne_dollar (m : Marker) {rest : List Char} (h : rest.head? ≠ some '$') :
    (m.typed ++ rest).head? ≠ some '$' := by
  rw [typed]
  split
  · exact h
  · simp
  · simp

end Marker

/-- A marker is read as it was typed. -/
theorem suffix_typed (m : Marker) {rest : List Char} (h : m.Ends rest) :
    suffix (m.typed ++ rest) = (m.down, m.digits, m.typed.length) := by
  obtain ⟨down, digits, hdigits⟩ := m
  cases down with
  | true =>
    have htake : (digits ++ rest).takeWhile Text.isDecimal = digits :=
      Text.takeWhile_append_of_stop hdigits h
    change suffix ('@' :: '-' :: (digits ++ rest)) = _
    rw [suffix, htake]
    rfl
  | false =>
    cases digits with
    | nil =>
      -- Where there is no marker, the text after the run must not begin one.
      have hat : ∀ cs, rest ≠ '@' :: cs := by
        rintro cs rfl
        exact h '@' rfl rfl
      change suffix rest = _
      rw [suffix.eq_def]
      split
      · exact absurd rfl (hat _)
      · exact absurd rfl (hat _)
      · rfl
    | cons d ds =>
      have htake : ((d :: ds) ++ rest).takeWhile Text.isDecimal = d :: ds :=
        Text.takeWhile_append_of_stop hdigits h
      -- The first digit is no dash, so counting goes up.
      have hdash : d ≠ '-' := by
        rintro rfl
        exact absurd (hdigits '-' List.mem_cons_self) (by decide)
      change suffix ('@' :: (d :: ds ++ rest)) = _
      rw [suffix.eq_def]
      split
      · next heq => exact absurd (List.cons.inj (List.cons.inj heq).2).1 hdash
      · next heq =>
        obtain rfl := (List.cons.inj heq).2
        simp only [htake]
        rfl
      · next hnone => exact absurd rfl (hnone _)

/-! ## Runs -/

/-- A run of signs with its marker. -/
def run (width : Nat) (m : Marker) : List Char := List.replicate width '$' ++ m.typed

/-- **A run is read up to the end of its marker.** -/
theorem step_run (count index : Int) {width : Nat} (hwidth : 1 ≤ width) (m : Marker)
    {rest : List Char} (hdollar : rest.head? ≠ some '$') (hends : m.Ends rest) :
    step count index (run width m ++ rest)
      = (padded width (position count index m.down m.start), (run width m).length) := by
  obtain ⟨k, rfl⟩ := Nat.exists_eq_add_of_le' hwidth
  have hsigns : ∀ c ∈ List.replicate k '$', (c == '$') = true := by simp
  have hstop : ∀ c ∈ (m.typed ++ rest).head?, (c == '$') = false := by
    rintro c hc
    have hne := m.head?_typed_ne_dollar hdollar
    simpa using fun heq : c = '$' ↦ hne (heq ▸ hc)
  have hstart : (if m.digits.isEmpty then (1 : Int) else Text.numeral m.digits) = m.start := by
    rw [Marker.start]
    split <;> rfl
  rw [run, List.replicate_succ, List.cons_append, List.cons_append, List.append_assoc, step]
  simp only [Text.takeWhile_append_of_stop hsigns hstop, Text.dropWhile_append_of_stop hsigns hstop,
    suffix_typed m hends, hstart, List.length_replicate, List.length_cons, List.length_append]
  congr 1
  omega

/-- A text with a run and its marker in it. -/
def marked (before : String) (width : Nat) (m : Marker) (after : String) : String :=
  before ++ String.ofList (run width m) ++ after

theorem text_marked (count index : Int) {before after : String} {width : Nat} {m : Marker}
    (hwidth : 1 ≤ width) (hbefore : '$' ∉ before.toList)
    (hescape : before.toList.getLast? ≠ some '\\') (hafter : '$' ∉ after.toList)
    (hends : m.Ends after.toList) :
    text count index (marked before width m after)
      = before ++ String.ofList (padded width (position count index m.down m.start)) ++ after := by
  have hdollar : after.toList.head? ≠ some '$' :=
    fun hhead ↦ hafter (List.mem_of_mem_head? hhead)
  have hne : run width m ≠ [] :=
    List.append_ne_nil_of_left_ne_nil (by simpa using Nat.ne_of_gt hwidth) _
  refine String.toList_inj.1 ?_
  simp only [text, marked, String.toList_append, String.toList_ofList, List.append_assoc]
  rw [tile_append_of_no_dollar count index hbefore fun h ↦ absurd h hescape,
    Text.tile_piece hne (step_run count index hwidth m hdollar hends),
    tile_of_no_dollar count index hafter]

/-! ## Rows of copies -/

/-- The copies get the numbers of the row. -/
theorem map_position (m : Marker) (n : Nat) :
    (List.range' 1 n).map (fun index : Nat ↦ position n index m.down m.start)
      = (m.numbers n).map fun number : Nat ↦ (number : Int) := by
  rw [Marker.numbers]
  cases m.down with
  | false =>
    simp only [Bool.false_eq_true, if_false, position, List.range'_eq_map_range, List.map_map]
    refine List.map_congr_left fun i _ ↦ ?_
    simp only [Function.comp_apply]
    omega
  | true =>
    simp only [if_true, position]
    rw [List.reverse_range', List.range'_eq_map_range, List.map_map, List.map_map]
    refine List.map_congr_left fun i hi ↦ ?_
    have := List.mem_range.1 hi
    simp only [Function.comp_apply]
    omega

/-- What `n` copies make of a text, in the order of the copies. -/
def copies (n : Nat) (s : String) : List String :=
  (List.range' 1 n).map fun index : Nat ↦ text n index s

/-- **Copies are counted.**  In a text with one run of signs, the copies have in place of the run
and its marker the numbers of a row, in at least as many digits as the run has signs; and no two of
them have the same text. -/
theorem text_counted (before after : String) (width : Nat) (m : Marker) (n : Nat)
    (hwidth : 1 ≤ width) (hbefore : '$' ∉ before.toList)
    (hescape : before.toList.getLast? ≠ some '\\') (hafter : '$' ∉ after.toList)
    (hends : m.Ends after.toList) :
    copies n (marked before width m after)
        = (m.numbers n).map
            (fun number ↦ before ++ String.ofList (digitsIn width number) ++ after) ∧
      (copies n (marked before width m after)).Nodup := by
  have hcopies : copies n (marked before width m after)
      = (m.numbers n).map
          (fun number ↦ before ++ String.ofList (digitsIn width number) ++ after) := by
    calc copies n (marked before width m after)
        = ((List.range' 1 n).map fun index : Nat ↦ position n index m.down m.start).map
            (fun number ↦ before ++ String.ofList (padded width number) ++ after) := by
          rw [copies, List.map_map]
          simp only [text_marked _ _ hwidth hbefore hescape hafter hends]
          rfl
      _ = (m.numbers n).map
            (fun number ↦ before ++ String.ofList (digitsIn width number) ++ after) := by
          rw [map_position, List.map_map]
          simp only [Function.comp_def, padded_natCast]
  have hinj : Function.Injective
      (fun number ↦ before ++ String.ofList (digitsIn width number) ++ after) := by
    intro a b h
    refine digitsIn_injective width ?_
    simpa using congrArg String.toList h
  rw [hcopies]
  exact ⟨rfl, (m.nodup_numbers n).map hinj⟩

/-- Counting down to ninety-eight, in at least two digits: one of the numbers has outgrown them. -/
def downToNinetyEight : Marker := ⟨true, ['9', '8'], List.all_eq_true.1 (by decide)⟩

theorem text_counted_ninetyEight :
    marked "n" 2 downToNinetyEight "-th" = "n$$@-98-th" ∧
      ('$' ∉ "n".toList ∧ "n".toList.getLast? ≠ some '\\' ∧ '$' ∉ "-th".toList ∧
        downToNinetyEight.Ends "-th".toList) ∧
      copies 3 "n$$@-98-th" = ["n100-th", "n99-th", "n98-th"] ∧
      (copies 3 "n$$@-98-th").Nodup := by
  have hmarked : marked "n" 2 downToNinetyEight "-th" = "n$$@-98-th" := by decide
  have hends : downToNinetyEight.Ends "-th".toList := by
    rintro _ ⟨⟩
    decide
  have hnumbers : (downToNinetyEight.numbers 3).map
      (fun number ↦ "n" ++ String.ofList (digitsIn 2 number) ++ "-th")
        = ["n100-th", "n99-th", "n98-th"] := by
    decide
  have hcounted := text_counted "n" "-th" 2 downToNinetyEight 3 (by decide) (by decide) (by decide)
    (by decide) hends
  rw [hmarked, hnumbers] at hcounted
  exact ⟨hmarked, ⟨by decide, by decide, by decide, hends⟩, hcounted⟩

end Markup.Numbering

end Shorthand
