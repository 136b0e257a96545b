import Mathlib.Data.List.DropRight
import Shorthand.Editor.Completion
import Shorthand.Proofs.Spans

/-!
# The range that a completion replaces

The edit of a completion says which part of the line it replaces.  The places of the edit are
counted in characters, and so is the cursor that it was made for.  An editor that counts in the code
units of UTF-16, where a character outside the basic plane takes two, reads the same numbers in
another way.

* `Text.units` : a text in code units.
* `Item.Covers` : read in code units, the edit of an item replaces the label and ends at the cursor.
* `extract_stands` : in characters, an abbreviation is found where it stands.
* `covers_iff` : in code units, this is so when the label is all basic, the text up to the cursor
  ends in it, and the line has no fewer characters than there are code units before the cursor.
-/

set_option autoImplicit false

namespace Shorthand

/-! ## Code units -/

namespace Text

/-- Is the character in the basic plane, so that it takes one code unit? -/
def isBasic (c : Char) : Bool := c.toNat < 0x10000

/-- The code units of a character: its own number, or two surrogates with ten bits of it each. -/
def unitsOf (c : Char) : List Nat :=
  if isBasic c then [c.toNat]
  else [0xD800 + (c.toNat - 0x10000) / 0x400, 0xDC00 + (c.toNat - 0x10000) % 0x400]

/-- The code units of a text. -/
def units (cs : List Char) : List Nat := cs.flatMap unitsOf

theorem unitsOf_of_isBasic {c : Char} (h : isBasic c = true) : unitsOf c = [c.toNat] := if_pos h

@[simp] theorem units_nil : units [] = [] := rfl

@[simp] theorem units_cons (c : Char) (cs : List Char) : units (c :: cs) = unitsOf c ++ units cs :=
  rfl

@[simp] theorem units_append (cs ds : List Char) : units (cs ++ ds) = units cs ++ units ds :=
  List.flatMap_append

theorem length_unitsOf (c : Char) : (unitsOf c).length = if isBasic c then 1 else 2 := by
  rw [unitsOf]
  split <;> rfl

/-- A text has no fewer code units than characters. -/
theorem length_le_length_units (cs : List Char) : cs.length ≤ (units cs).length := by
  induction cs with
  | nil => exact Nat.le_refl 0
  | cons c cs ih =>
    have hc : 1 ≤ (unitsOf c).length := by
      rw [length_unitsOf]
      split <;> omega
    rw [units_cons, List.length_append, List.length_cons]
    omega

/-- A text has as many code units as characters when it is all basic. -/
theorem length_units_eq_iff {cs : List Char} :
    (units cs).length = cs.length ↔ ∀ c ∈ cs, isBasic c = true := by
  induction cs with
  | nil => simp
  | cons c cs ih =>
    have hle := length_le_length_units cs
    rw [List.forall_mem_cons, ← ih, units_cons, List.length_append, List.length_cons,
      length_unitsOf]
    cases isBasic c <;> simp <;> omega

/-- The code units of the first characters of a text are its first code units. -/
theorem take_units (cs : List Char) (k : Nat) :
    (units cs).take (units (cs.take k)).length = units (cs.take k) := by
  conv_lhs => rw [← List.take_append_drop k cs, units_append]
  rw [List.take_append_drop, List.take_left]

/-- The last code unit of a character outside the basic plane is the number of no character. -/
theorem unitsOf_eq_concat {c : Char} (h : isBasic c = false) (d : Char) :
    ∃ u v, unitsOf c = [u] ++ [v] ∧ v ≠ d.toNat := by
  refine ⟨_, _, if_neg (by simp [h]), ?_⟩
  have hd : d.toNat < 0xD800 ∨ 0xDFFF < d.toNat ∧ d.toNat < 0x110000 := d.valid
  omega

theorem concat_suffix_concat_iff {α : Type} {xs ys : List α} {x y : α} :
    xs ++ [x] <:+ ys ++ [y] ↔ xs <:+ ys ∧ x = y := by
  rw [List.suffix_append_inj_of_length_eq (by rfl : [x].length = [y].length), List.singleton_inj]

/-- A text in the basic plane is found at the end of another one by its code units. -/
theorem units_suffix_iff {ds : List Char} (hds : ∀ d ∈ ds, isBasic d = true) (cs : List Char) :
    units ds <:+ units cs ↔ ds <:+ cs := by
  constructor
  · intro h
    -- from the end: a text of basic characters does not end in a surrogate, which is what the last
    -- code unit of a character outside the plane is
    induction ds using List.reverseRecOn generalizing cs with
    | nil => exact List.nil_suffix
    | append_singleton ds d ih =>
      have hd : isBasic d = true := hds d (by simp)
      have hds' : ∀ e ∈ ds, isBasic e = true := fun e he ↦ hds e (by simp [he])
      rw [units_append, units_cons, unitsOf_of_isBasic hd, units_nil, List.append_nil] at h
      obtain rfl | ⟨cs, c, rfl⟩ := List.eq_nil_or_concat cs
      · simp at h
      rw [List.concat_eq_append, units_append, units_cons, units_nil, List.append_nil] at h
      rw [List.concat_eq_append]
      cases hc : isBasic c with
      | true =>
        rw [unitsOf_of_isBasic hc, concat_suffix_concat_iff, Char.toNat_inj] at h
        exact concat_suffix_concat_iff.2 ⟨ih hds' cs h.1, h.2⟩
      | false =>
        obtain ⟨u, v, hunits, hv⟩ := unitsOf_eq_concat hc d
        rw [hunits, ← List.append_assoc, concat_suffix_concat_iff] at h
        exact absurd h.2.symm hv
  · rintro ⟨rest, rfl⟩
    rw [units_append]
    exact List.suffix_append _ _

/-- The last code units of a text, as many as another one has characters, are those of the other one
when it is all basic and stands at the end. -/
theorem drop_units_iff {cs ds : List Char} (h : ds.length ≤ (units cs).length) :
    (units cs).drop ((units cs).length - ds.length) = units ds ↔
      (∀ d ∈ ds, isBasic d = true) ∧ ds <:+ cs := by
  constructor
  · intro hunits
    have hlength := congrArg List.length hunits
    rw [List.length_drop] at hlength
    have hds : ∀ d ∈ ds, isBasic d = true := length_units_eq_iff.1 (by omega)
    refine ⟨hds, (units_suffix_iff hds cs).1 ?_⟩
    rw [← hunits]
    exact List.drop_suffix _ _
  · rintro ⟨hds, hsuffix⟩
    have hunits := List.suffix_iff_eq_drop.1 ((units_suffix_iff hds cs).2 hsuffix)
    rwa [length_units_eq_iff.2 hds, eq_comm] at hunits

end Text

/-! ## Places in characters -/

namespace Extraction

/-- In characters, an abbreviation is found where it stands: it ends at the cursor, and its place is
as many characters before as it has. -/
theorem extract_stands {s : Surroundings} {line : String} {position : Option Int} {found : Span}
    (h : extract s line position = some found) :
    found.stop = cursor line position ∧
      found.start = found.stop - found.abbreviation.length ∧
      found.abbreviation.toList <:+ line.toList.take found.stop := by
  have hexact := exact_of_extract h
  have hle : found.stop ≤ line.toList.length := by
    rw [hexact.stop, String.length_toList]
    exact cursor_le line position
  have hlength := congrArg List.length hexact.stands
  rw [List.length_drop, List.length_take, Nat.min_eq_left hle, String.length_toList] at hlength
  have hstart := hexact.start
  refine ⟨hexact.stop, by omega, ?_⟩
  rw [← hexact.stands]
  exact List.drop_suffix _ _

end Extraction

/-! ## Places in code units -/

namespace Editor

/-- An item is offered for the expansion of the abbreviation that is found. -/
theorem itemAt_eq_ok_some_iff {settings : Table Json} {language : Option String} {line : String}
    {place : Place} {item : Item} :
    (itemAt settings language line place).2 = .ok (some item) ↔
      ∃ found expansion,
        Extraction.extract (Expansion.surroundings (grammarOf language)) line
          (some place.character) = some found ∧
        Expansion.expand (completionConfig (grammarOf language) settings) found.abbreviation
          = .ok expansion ∧
        item = Item.ofExpansion place.line found expansion := by
  rw [itemAt]
  dsimp only
  split
  next hfound => simp [hfound]
  next found hfound =>
    split
    next expansion hexpand => simp [hfound, hexpand, eq_comm]
    next error hexpand => simp [hfound, hexpand]
    next failure _ hexpand => simp [hfound, hexpand]

/-- Read in code units, the edit of an item replaces its label and ends at the cursor. -/
def Item.Covers (item : Item) (line : String) (cursor : Nat) : Prop :=
  ∃ edit, item.edit = some edit ∧
    ((Text.units line.toList).take edit.stop).drop edit.start = Text.units item.label.toList ∧
    edit.stop = cursor

/-- **The edit covers the abbreviation when nothing before it is out of the basic plane.**  For the
cursor behind any characters of a line, the edit of the item on offer covers its label in code units
exactly when the label is all basic, the text up to the cursor ends in it, and the line has as many
characters as there are code units before the cursor.  This is so wherever the text up to the cursor
is all basic. -/
theorem covers_iff (settings : Table Json) (language : Option String) (line : String)
    (number : Int) (k : Nat) (item : Item)
    (h : (itemAt settings language line ⟨number, (Text.units (line.toList.take k)).length⟩).2
      = .ok (some item)) :
    (item.Covers line (Text.units (line.toList.take k)).length ↔
      (Text.units (line.toList.take k)).length ≤ line.length ∧
        (∀ c ∈ item.label.toList, Text.isBasic c = true) ∧
        item.label.toList <:+ line.toList.take k) ∧
      ((∀ c ∈ line.toList.take k, Text.isBasic c = true) →
        item.Covers line (Text.units (line.toList.take k)).length) := by
  obtain ⟨⟨label, start, stop⟩, expansion, hfound, -, rfl⟩ := itemAt_eq_ok_some_iff.1 h
  obtain ⟨hstop, hstart, hstands⟩ := Extraction.extract_stands hfound
  dsimp only at hstop hstart hstands
  rw [Extraction.cursor, Int.toNat_natCast] at hstop
  generalize hbefore : line.toList.take k = before at *
  have htake : (Text.units line.toList).take (Text.units before).length = Text.units before := by
    rw [← hbefore, Text.take_units]
  rw [← String.length_toList] at hstart
  have hlabel : label.toList.length ≤ stop :=
    hstands.length_le.trans (List.length_take_le _ _)
  have hiff : (Item.ofExpansion number ⟨label, start, stop⟩ expansion).Covers line
        (Text.units before).length ↔
      (Text.units before).length ≤ line.length ∧
        (∀ c ∈ label.toList, Text.isBasic c = true) ∧ label.toList <:+ before := by
    have hends : stop = (Text.units before).length ↔ (Text.units before).length ≤ line.length := by
      omega
    rw [← hends]
    constructor
    · rintro ⟨_, ⟨⟩, hunits, rfl⟩
      dsimp only [Item.ofExpansion] at hunits
      rw [htake, hstart] at hunits
      exact ⟨rfl, (Text.drop_units_iff hlabel).1 hunits⟩
    · rintro ⟨rfl, hstanding⟩
      refine ⟨_, rfl, ?_, rfl⟩
      dsimp only [Item.ofExpansion]
      rw [htake, hstart]
      exact (Text.drop_units_iff hlabel).2 hstanding
  refine ⟨hiff, fun hbasic ↦ hiff.2 ?_⟩
  have hlength : (Text.units before).length = before.length := Text.length_units_eq_iff.2 hbasic
  have hle : before.length ≤ line.length := by
    rw [← hbefore, List.length_take, String.length_toList]
    omega
  have hsuffix : label.toList <:+ before := by
    have htaken : line.toList.take stop = before := by
      rw [hstop, hlength, Nat.min_eq_right hle, ← hbefore, List.length_take,
        ← List.take_eq_take_min]
    rwa [htaken] at hstands
  exact ⟨hlength.trans_le hle, fun c hc ↦ hbasic c (hsuffix.subset hc), hsuffix⟩

/-- The item for an abbreviation behind a word of the basic plane covers it. -/
theorem covers_greeting :
    (Text.units ("Grüße p>q".toList.take 9)).length = 9 ∧
      ∃ item, (itemAt [] (some "html") "Grüße p>q" ⟨0, 9⟩).2 = .ok (some item) ∧
        item.label = "p>q" ∧ item.edit.map (fun edit ↦ (edit.start, edit.stop)) = some (6, 9) ∧
        item.Covers "Grüße p>q" 9 := by
  have hunits : (Text.units ("Grüße p>q".toList.take 9)).length = 9 := by decide +kernel
  have hitem : (itemAt [] (some "html") "Grüße p>q" ⟨0, 9⟩).2 = .ok (some (Item.ofExpansion 0
      ⟨"p>q", 6, 9⟩ "<p><q>$\x7b1\x7d</q></p>")) :=
    itemAt_eq_ok_some_iff.2 ⟨_, _, by decide +kernel, by decide +kernel, rfl⟩
  have hcovers := (covers_iff [] (some "html") "Grüße p>q" 0 9 _ (by rw [hunits]; exact hitem)).2
    (List.all_eq_true.1 (by decide +kernel))
  rw [hunits] at hcovers
  exact ⟨hunits, _, hitem, rfl, rfl, hcovers⟩

/-- Behind a character outside the basic plane the edit begins one code unit too early, so that it
splits the character and leaves the last one of the abbreviation. -/
theorem emoji_shifts_edit :
    (Text.units ("😀p".toList.take 2)).length = 3 ∧
      ∃ item, (itemAt [] (some "html") "😀p" ⟨0, 3⟩).2 = .ok (some item) ∧
        item.label = "p" ∧ item.edit.map (fun edit ↦ (edit.start, edit.stop)) = some (1, 2) ∧
        ¬ item.Covers "😀p" 3 := by
  have hitem : (itemAt [] (some "html") "😀p" ⟨0, 3⟩).2 = .ok (some (Item.ofExpansion 0
      ⟨"p", 1, 2⟩ "<p>$\x7b1\x7d</p>")) :=
    itemAt_eq_ok_some_iff.2 ⟨_, _, by decide +kernel, by decide +kernel, rfl⟩
  refine ⟨by decide +kernel, _, hitem, rfl, rfl, ?_⟩
  rintro ⟨_, ⟨⟩, -, hends⟩
  exact absurd hends (by decide)

end Editor

end Shorthand
