import Mathlib.Data.List.TakeWhile
import Shorthand.Extraction

/-!
# HTML tags

Reading backwards asks at a `>` whether it ends an HTML tag.  Only what stands after the last `<`
before it counts, and there must be no other `>` among that.

* `IsTag`, `EndsInTag` : tags, and texts that end in one.
* `EndsInTag.exists_close` : the `>` at the end of a tag ends a tag.
* `endsTag_append_close` : what stands before another `>` does not count.
-/

set_option autoImplicit false

namespace Shorthand.Extraction

/-! ## Names and blanks -/

/-- Classes of characters with no range in common have no character in common. -/
theorem contains_eq_false_of_apart {a b : Text.Ranges} {point : Nat}
    (h : ∀ r ∈ a, ∀ t ∈ b, r.2 < t.1 ∨ t.2 < r.1) (ha : a.contains point = true) :
    b.contains point = false := by
  obtain ⟨r, hr, hlow, hhigh⟩ := (a.contains_iff point).1 ha
  rw [← Bool.not_eq_true, b.contains_iff]
  rintro ⟨t, ht, hlow', hhigh'⟩
  have := h r hr t ht
  omega

/-- Among the first characters, letters and digits come after the blanks. -/
theorem le_toNat_of_isAlphanum {c : Char} (h : c.isAlphanum = true) : 48 ≤ c.toNat := by
  change (decide ('A'.val ≤ c.val ∧ c.val ≤ 'Z'.val) ||
    (decide ('a'.val ≤ c.val) && decide (c.val ≤ 'z'.val)) ||
    (decide ('0'.val ≤ c.val) && decide (c.val ≤ '9'.val))) = true at h
  simp only [Bool.or_eq_true, Bool.and_eq_true, decide_eq_true_eq, UInt32.le_iff_toNat_le] at h
  obtain (⟨h, -⟩ | ⟨h, -⟩) | ⟨h, -⟩ := h
  · exact Nat.le_trans (by decide) h
  · exact Nat.le_trans (by decide) h
  · exact h

/-- A blank is no letter and no numeral. -/
theorem isAlphanumeric_of_isBlank {c : Char} (h : Text.isBlank c = true) :
    Text.isAlphanumeric c = false := by
  rw [Text.isBlank] at h
  rw [Text.isAlphanumeric]
  split
  next hascii =>
    rw [if_pos hascii] at h
    rw [← Bool.not_eq_true]
    intro hletter
    have hle := le_toNat_of_isAlphanum hletter
    simp only [Bool.or_eq_true, Bool.and_eq_true, beq_iff_eq, decide_eq_true_eq] at h
    obtain (rfl | ⟨-, hpoint⟩) | ⟨-, hpoint⟩ := h
    · exact absurd hle (by decide)
    · exact absurd (Nat.le_trans hle hpoint) (by decide)
    · exact absurd (Nat.le_trans hle hpoint) (by decide)
  next hascii =>
    rw [if_neg hascii] at h
    exact contains_eq_false_of_apart (by decide +kernel) h

/-- A blank does not belong to the name of a tag. -/
theorem isTagNameChar_of_isBlank {c : Char} (h : Text.isBlank c = true) :
    isTagNameChar c = false := by
  have hsign : c ≠ '_' ∧ c ≠ ':' ∧ c ≠ '-' := by
    refine ⟨?_, ?_, ?_⟩ <;> rintro rfl <;> exact absurd h (by decide)
  simp [isTagNameChar, Text.isWord, isAlphanumeric_of_isBlank h, hsign]

/-! ## The last `<` -/

theorem ne_open_of_not_mem {cs : List Char} (h : '<' ∉ cs) : ∀ c ∈ cs, (c != '<') = true := by
  intro c hc
  simp only [bne_iff_ne, ne_eq]
  rintro rfl
  exact h hc

/-- What stands before a `<` does not count for an HTML tag. -/
theorem endsTag_append_of_mem {before : List Char} (h : '<' ∈ before) (after : List Char) :
    endsTag (before ++ after) = endsTag before := by
  have hd : before.dropWhile (· != '<') ≠ [] := fun he ↦ by
    simpa using List.dropWhile_eq_nil_iff.1 he '<' h
  obtain ⟨d, ds, hds⟩ := List.exists_cons_of_ne_nil hd
  have hlen : (before.takeWhile (· != '<')).length ≠ before.length := by
    intro he
    have := congrArg List.length (List.takeWhile_append_dropWhile (p := (· != '<')) (l := before))
    rw [List.length_append, he, hds] at this
    simp at this
  rw [endsTag, endsTag, List.takeWhile_append, List.dropWhile_append, if_neg hlen, hds]
  rfl

/-- Without a `<` there is no HTML tag. -/
theorem endsTag_eq_false {before : List Char} (h : '<' ∉ before) : endsTag before = false := by
  rw [endsTag, List.dropWhile_eq_nil_iff.2 (ne_open_of_not_mem h)]

/-! ## Tags -/

/-- An HTML tag: a name that begins with a letter, perhaps after a slash; perhaps blanks and
anything but angle brackets after it, perhaps a slash, and the brackets around. -/
inductive IsTag : List Char → Prop where
  | mk {slash name blanks rest last : List Char} {letter : Char}
      (hslash : slash = [] ∨ slash = ['/']) (hletter : Text.isLetter letter = true)
      (hname : ∀ c ∈ name, isTagNameChar c = true)
      (hblanks : ∀ c ∈ blanks, Text.isBlank c = true) (hrest : ∀ c ∈ rest, c ≠ '<' ∧ c ≠ '>')
      (hafter : blanks = [] → rest = []) (hlast : last = [] ∨ last = ['/']) :
      IsTag ('<' :: (slash ++ letter :: (name ++ (blanks ++ (rest ++ (last ++ ['>']))))))

/-- A text that ends in an HTML tag. -/
def EndsInTag (cs : List Char) : Prop := ∃ front tag, cs = front ++ tag ∧ IsTag tag

/-- What may stand in a tag after its name: nothing, a slash, or a blank and anything without a
`>`. -/
def mayFollowName : List Char → Bool
  | [] => true
  | ['/'] => true
  | c :: rest => Text.isBlank c && !rest.contains '>'

theorem isTagInside_cons {letter : Char} (hletter : letter ≠ '/') (more : List Char) :
    isTagInside (letter :: more)
      = (Text.isLetter letter && mayFollowName (more.dropWhile isTagNameChar)) := by
  rw [isTagInside.eq_def]
  split
  next h => exact absurd (List.cons.inj h).1 hletter
  · rfl

theorem isTagInside_slash (letter : Char) (more : List Char) :
    isTagInside ('/' :: letter :: more)
      = (Text.isLetter letter && mayFollowName (more.dropWhile isTagNameChar)) := rfl

theorem mayFollowName_eq_false {more : List Char} (h : '>' ∈ more) :
    mayFollowName more = false := by
  fun_cases mayFollowName more with
  | case1 => simp at h
  | case2 => simp at h
  | case3 c rest _ =>
    obtain rfl | h := List.mem_cons.1 h
    · simp [Text.isBlank, Text.isAscii]
    · simp [h]

theorem mayFollowName_blank {b : Char} {more : List Char} (hb : Text.isBlank b = true)
    (h : '>' ∉ more) : mayFollowName (b :: more) = true := by
  rw [mayFollowName.eq_def]
  split
  · rfl
  · rfl
  next he =>
    obtain ⟨rfl, rfl⟩ := List.cons.inj he
    simp [hb, h]

theorem mem_dropWhile_name {more : List Char} (h : '>' ∈ more) :
    '>' ∈ more.dropWhile isTagNameChar := by
  rw [← List.takeWhile_append_dropWhile (p := isTagNameChar) (l := more)] at h
  refine (List.mem_append.1 h).resolve_left fun hname ↦ ?_
  exact absurd (List.all_eq_true.1 List.all_takeWhile _ hname) (by decide)

/-- With a `>` in it, nothing is the inside of an HTML tag. -/
theorem isTagInside_eq_false {inside : List Char} (h : '>' ∈ inside) :
    isTagInside inside = false := by
  have hname : ∀ letter more, '>' ∈ letter :: more →
      (Text.isLetter letter && mayFollowName (more.dropWhile isTagNameChar)) = false := by
    intro letter more h
    obtain rfl | h := List.mem_cons.1 h
    · rfl
    · rw [mayFollowName_eq_false (mem_dropWhile_name h), Bool.and_false]
  cases inside with
  | nil => rfl
  | cons c rest =>
    by_cases hc : c = '/'
    · subst hc
      cases rest with
      | nil => rfl
      | cons letter more => exact hname letter more (by simpa using h)
    · rw [isTagInside_cons hc]
      exact hname c rest h

/-- What stands inside an HTML tag is recognized. -/
theorem IsTag.exists_inside {tag : List Char} (h : IsTag tag) :
    ∃ inside, tag = '<' :: (inside ++ ['>']) ∧ '<' ∉ inside ∧ isTagInside inside = true := by
  obtain @⟨slash, name, blanks, rest, last, letter, hslash, hletter, hname, hblanks, hrest, hafter,
    hlast⟩ := h
  have hne : letter ≠ '/' ∧ letter ≠ '<' := by
    constructor <;> rintro rfl <;> exact absurd hletter (by decide)
  have hfollows : mayFollowName
      ((name ++ (blanks ++ (rest ++ last))).dropWhile isTagNameChar) = true := by
    rw [List.dropWhile_append_of_pos hname]
    cases blanks with
    | nil =>
      obtain rfl := hafter rfl
      obtain rfl | rfl := hlast <;> decide
    | cons b blanks =>
      obtain ⟨hb, hblanks⟩ := List.forall_mem_cons.1 hblanks
      rw [List.cons_append, List.dropWhile_cons_of_neg (by simp [isTagNameChar_of_isBlank hb])]
      refine mayFollowName_blank hb fun hm ↦ ?_
      obtain hm | hm | hm : '>' ∈ blanks ∨ '>' ∈ rest ∨ '>' ∈ last := by simpa using hm
      · exact absurd (hblanks _ hm) (by decide)
      · exact (hrest _ hm).2 rfl
      · obtain rfl | rfl := hlast <;> simp at hm
  refine ⟨slash ++ letter :: (name ++ (blanks ++ (rest ++ last))), by simp, fun hm ↦ ?_, ?_⟩
  · obtain hm | hm | hm | hm | hm | hm : '<' ∈ slash ∨ '<' = letter ∨ '<' ∈ name ∨ '<' ∈ blanks ∨
        '<' ∈ rest ∨ '<' ∈ last := by simpa using hm
    · obtain rfl | rfl := hslash <;> simp at hm
    · exact hne.2 hm.symm
    · exact absurd (hname _ hm) (by decide)
    · exact absurd (hblanks _ hm) (by decide)
    · exact (hrest _ hm).1 rfl
    · obtain rfl | rfl := hlast <;> simp at hm
  · obtain rfl | rfl := hslash
    · rw [List.nil_append, isTagInside_cons hne.1, hletter, hfollows]
      rfl
    · rw [List.singleton_append, isTagInside_slash, hletter, hfollows]
      rfl

/-- A text that ends in an HTML tag has a `>` at its end that ends one. -/
theorem EndsInTag.exists_close {cs : List Char} (h : EndsInTag cs) :
    ∃ before, cs.reverse = '>' :: before ∧ endsTag before = true := by
  obtain ⟨front, tag, rfl, htag⟩ := h
  obtain ⟨inside, rfl, hopen, hinside⟩ := htag.exists_inside
  refine ⟨inside.reverse ++ '<' :: front.reverse, by simp, ?_⟩
  have hne := ne_open_of_not_mem (mt List.mem_reverse.1 hopen)
  rw [endsTag, List.dropWhile_append_of_pos hne, List.takeWhile_append_of_pos hne]
  simp [hinside]

/-- What stands before a `>` does not count for HTML tags after it. -/
theorem endsTag_append_close (near far : List Char) :
    endsTag (near ++ '>' :: far) = endsTag near := by
  by_cases hm : '<' ∈ near
  · exact endsTag_append_of_mem hm _
  -- There is a `>` in what would be the inside of the tag.
  rw [endsTag_eq_false hm]
  have hmem : '>' ∈ (near ++ '>' :: far).takeWhile (· != '<') := by
    rw [List.takeWhile_append_of_pos (ne_open_of_not_mem hm)]
    simp
  rw [endsTag]
  split
  · rfl
  · dsimp only
    rw [isTagInside_eq_false (by simpa using hmem), Bool.false_or]
    split
    next rest hinside =>
      rw [hinside] at hmem
      exact isTagInside_eq_false (by simpa using hmem)
    · rfl

end Shorthand.Extraction
