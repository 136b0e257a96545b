import Shorthand.Stylesheet.Keyword

/-!
# Which keywords can be selected

Looking for a keyword folds what was typed to lower case and takes the candidates as they are
written.  So a keyword without capitals is found by its whole name and by any beginning of it,
whatever the case of what was typed.  A keyword with a capital is out of reach of its own name:
the folded name is another text, neither the initials of the keyword nor a beginning of it, and what
it leads to, if anything, is another candidate.

* `Text.lower_eq_self_iff` : the texts that folding leaves alone.
* `Keyword.length_initials` : the initials of a keyword are shorter than the keyword, or all of it.
* `Keyword.find?_eq_none_iff` : which shortened keywords stand for nothing.
* `Keyword.selectable_iff` : all candidates can be selected exactly if none has a capital.
-/

set_option autoImplicit false

namespace Shorthand

namespace Text

/-! ## Texts without capitals -/

/-- A character that folding to lower case leaves alone, wherever it stands. -/
def IsSmall (c : Char) : Prop := c ≠ '\u03a3' ∧ c ≠ '\u0130' ∧ lowerChar c = c

theorem toLower_of_not_ascii {c : Char} (h : isAscii c = false) : c.toLower = c := by
  have hc : ¬ c.toNat < 128 := by simpa [isAscii] using h
  refine dif_neg ?_
  rintro ⟨-, hle⟩
  have hle : c.toNat ≤ 90 := UInt32.le_iff_toNat_le.1 hle
  omega

theorem IsSmall.toLower {c : Char} (h : IsSmall c) : c.toLower = c := by
  cases hc : isAscii c with
  | true => rw [← lowerChar_of_ascii hc, h.2.2]
  | false => exact toLower_of_not_ascii hc

/-- A character that differs from a small one at most in its ASCII case is folded to it. -/
theorem IsSmall.fold {c d : Char} (h : IsSmall c) (hd : d.toLower = c.toLower) :
    d ≠ '\u03a3' ∧ d ≠ '\u0130' ∧ lowerChar d = c := by
  rw [h.toLower] at hd
  cases hascii : isAscii d with
  | true =>
    refine ⟨?_, ?_, by rw [lowerChar_of_ascii hascii, hd]⟩ <;>
      (rintro rfl; exact absurd hascii (by decide))
  | false =>
    obtain rfl : d = c := (toLower_of_not_ascii hascii).symm.trans hd
    exact h

/-- Folding takes any ASCII case of a text without capitals to that text. -/
theorem lowerFrom_eq_of_isSmall {cs typed : List Char} (hcs : ∀ c ∈ cs, IsSmall c)
    (h : typed.map Char.toLower = cs.map Char.toLower) (before : List Char) :
    lowerFrom before typed = cs := by
  induction cs generalizing typed before with
  | nil =>
    obtain rfl := List.map_eq_nil_iff.1 h
    rfl
  | cons c cs ih =>
    obtain ⟨d, typed, rfl, hd, htyped⟩ := List.map_eq_cons_iff.1 h
    obtain ⟨hc, hcs⟩ := List.forall_mem_cons.1 hcs
    obtain ⟨hsigma, hdotted, hfold⟩ := hc.fold hd
    simp [lowerFrom, hsigma, hdotted, hfold, ih hcs htyped]

/-- What folding leaves alone has no capitals: a folded sigma is none, and a folded dotted I is not
the letter either. -/
theorem isSmall_of_lowerFrom {before cs : List Char} (h : lowerFrom before cs = cs) :
    ∀ c ∈ cs, IsSmall c := by
  induction cs generalizing before with
  | nil => simp
  | cons c cs ih =>
    rw [lowerFrom] at h
    by_cases hsigma : c = '\u03a3'
    · subst hsigma
      rw [if_pos (by decide)] at h
      split at h <;> exact absurd (List.cons.inj h).1 (by decide)
    by_cases hdotted : c = '\u0130'
    · subst hdotted
      exact absurd (List.cons.inj h).1 (by decide)
    simp only [beq_iff_eq, hsigma, hdotted, if_false, List.singleton_append, List.cons.injEq] at h
    exact List.forall_mem_cons.2 ⟨⟨hsigma, hdotted, h.1⟩, ih h.2⟩

theorem lower_eq_self_iff (s : String) : lower s = s ↔ ∀ c ∈ s.toList, IsSmall c := by
  have htoList : lower s = s ↔ lowerFrom [] s.toList = s.toList := by
    rw [lower, ← String.toList_inj, String.toList_ofList]
  rw [htoList]
  exact ⟨isSmall_of_lowerFrom, fun h ↦ lowerFrom_eq_of_isSmall h rfl []⟩

theorem length_le_lowerFrom (before cs : List Char) : cs.length ≤ (lowerFrom before cs).length := by
  induction cs generalizing before with
  | nil => simp
  | cons c cs ih =>
    have := ih (c :: before)
    simp only [lowerFrom, List.length_append, List.length_cons]
    split
    · split <;> simp only [List.length_singleton] <;> omega
    · split <;> simp only [List.length_cons, List.length_nil] <;> omega

end Text

namespace Stylesheet.Keyword

open Text (lower)

/-! ## Initials -/

theorem length_heads_le (words : List (List Char)) :
    (words.filterMap List.head?).length ≤ (['-'].intercalate words).length := by
  induction words with
  | nil => simp
  | cons word words ih =>
    cases words with
    | nil => cases word <;> simp
    | cons next words =>
      rw [List.intercalate_cons_cons]
      simp only [List.length_append, List.length_singleton]
      cases word with
      | nil => simp only [List.filterMap_cons, List.head?_nil, List.length_nil] at ih ⊢; omega
      | cons c word =>
        simp only [List.filterMap_cons, List.head?_cons, List.length_cons] at ih ⊢
        omega

/-- The first characters of words are fewer than the words have with dashes between them, unless
there is only one word and it is no longer than that. -/
theorem length_heads (words : List (List Char)) :
    (words.filterMap List.head?).length < (['-'].intercalate words).length ∨
      words.filterMap List.head? = ['-'].intercalate words := by
  match words with
  | [] => exact .inr rfl
  | [[]] => exact .inr rfl
  | [[c]] => exact .inr (by simp)
  | [c :: d :: word] => exact .inl (by simp)
  | word :: next :: words =>
    have hle := length_heads_le (next :: words)
    rw [List.intercalate_cons_cons]
    simp only [List.length_append, List.length_singleton]
    cases word with
    | nil =>
      rw [List.filterMap_cons_none List.head?_nil]
      exact .inl (by simp only [List.length_nil]; omega)
    | cons c word =>
      rw [List.filterMap_cons_some List.head?_cons]
      exact .inl (by simp only [List.length_cons]; omega)

/-- The initials of a keyword are shorter than the keyword, or they are all of it. -/
theorem length_initials (keyword : String) :
    (initials keyword).length < keyword.toList.length ∨ initials keyword = keyword.toList := by
  have h := length_heads (keyword.toList.splitOn '-')
  rwa [List.intercalate_splitOn] at h

/-! ## Looking for a keyword -/

/-- A shortened keyword stands for nothing exactly if no candidate has these initials and none
begins with it. -/
theorem find?_eq_none_iff {typed : String} {candidates : List String} :
    find? typed candidates = none ↔ ∀ c ∈ candidates,
      initials c ≠ (lower typed).toList ∧ ¬ (lower typed).toList <+: c.toList := by
  simp only [find?, Option.or_eq_none_iff, List.find?_eq_none, beq_iff_eq,
    List.isPrefixOf_iff_prefix]
  constructor
  · rintro ⟨-, hinitials, hprefix⟩ c hc
    exact ⟨hinitials c hc, hprefix c hc⟩
  · intro h
    exact ⟨fun c hc heq ↦ (h c hc).2 (heq ▸ List.prefix_refl _), fun c hc ↦ (h c hc).1,
      fun c hc ↦ (h c hc).2⟩

/-- A keyword that is found has the initials that were typed, or it begins with what was typed. -/
theorem initials_or_prefix_of_find? {typed keyword : String} {candidates : List String}
    (h : find? typed candidates = some keyword) :
    initials keyword = (lower typed).toList ∨ (lower typed).toList <+: keyword.toList := by
  rw [find?, Option.or_eq_some_iff, Option.or_eq_some_iff] at h
  rcases h with h | ⟨-, h | ⟨-, h⟩⟩
  · have heq : keyword.toList = (lower typed).toList := by simpa using List.find?_some h
    exact .inr (heq ▸ List.prefix_refl _)
  · exact .inl (by simpa using List.find?_some h)
  · exact .inr (by simpa using List.find?_some h)

/-- A candidate that is what was typed comes before all others. -/
theorem find?_of_lower_eq {typed keyword : String} {candidates : List String}
    (hmem : keyword ∈ candidates) (h : lower typed = keyword) :
    find? typed candidates = some keyword := by
  have hfirst : candidates.find? (fun c ↦ c.toList == (lower typed).toList) = some keyword := by
    cases hfind : candidates.find? fun c ↦ c.toList == (lower typed).toList with
    | none => exact absurd (List.find?_eq_none.1 hfind keyword hmem) (by simp [h])
    | some found =>
      have hfound : found.toList = (lower typed).toList := by simpa using List.find?_some hfind
      rw [String.toList_inj.1 hfound, h]
  rw [find?, hfirst]
  rfl

/-- A keyword is found by its own name exactly if folding leaves the name alone: otherwise the
folded name, which is not shorter, can neither be its initials nor begin it. -/
theorem find?_self_iff {keyword : String} {candidates : List String} (hmem : keyword ∈ candidates) :
    find? keyword candidates = some keyword ↔ lower keyword = keyword := by
  refine ⟨fun h ↦ String.toList_inj.1 ?_, find?_of_lower_eq hmem⟩
  have hle : keyword.toList.length ≤ (lower keyword).toList.length := by
    rw [lower, String.toList_ofList]
    exact Text.length_le_lowerFrom [] keyword.toList
  rcases initials_or_prefix_of_find? h with hinitials | hprefix
  · rcases length_initials keyword with hlt | hall
    · rw [hinitials] at hlt
      exact absurd hle (Nat.not_le.2 hlt)
    · rw [← hinitials, hall]
  · exact hprefix.eq_of_length_le hle

/-! ## Selecting -/

/-- A beginning of a keyword that is not empty, in any ASCII case. -/
def Shortens (typed keyword : String) : Prop :=
  ∃ start, start <+: keyword.toList ∧ start ≠ [] ∧
    typed.toList.map Char.toLower = start.map Char.toLower

/-- A keyword without capitals is a candidate for everything that shortens it. -/
theorem find?_isSome_of_shortens {typed keyword : String} {candidates : List String}
    (hmem : keyword ∈ candidates) (hsmall : lower keyword = keyword)
    (h : Shortens typed keyword) : (find? typed candidates).isSome = true := by
  obtain ⟨start, hstart, -, hcase⟩ := h
  have hcs : ∀ c ∈ start, Text.IsSmall c := fun c hc ↦
    (Text.lower_eq_self_iff keyword).1 hsmall c (hstart.subset hc)
  have hlower : (lower typed).toList = start := by
    rw [lower, String.toList_ofList, Text.lowerFrom_eq_of_isSmall hcs hcase]
  rw [Option.isSome_iff_ne_none]
  intro hnone
  exact (find?_eq_none_iff.1 hnone keyword hmem).2 (hlower ▸ hstart)

/-- **Keywords without capitals can be selected, and no others.**  A candidate is found by its own
name exactly if folding to lower case leaves the name alone, and then something is found for all
that shortens it.  Nothing is found exactly if no candidate has the folded text as its initials or
as its beginning.  So all candidates of a list can be selected exactly if none has a capital. -/
theorem selectable_iff (candidates : List String) :
    (∀ c ∈ candidates, find? c candidates = some c ↔ lower c = c) ∧
    (∀ c ∈ candidates, lower c = c → ∀ typed, Shortens typed c →
      (find? typed candidates).isSome = true) ∧
    (∀ typed, find? typed candidates = none ↔ ∀ c ∈ candidates,
      initials c ≠ (lower typed).toList ∧ ¬ (lower typed).toList <+: c.toList) ∧
    ((∀ c ∈ candidates, find? c candidates = some c ∧
        ∀ typed, Shortens typed c → (find? typed candidates).isSome = true) ↔
      ∀ c ∈ candidates, lower c = c) := by
  have hself : ∀ c ∈ candidates, find? c candidates = some c ↔ lower c = c :=
    fun c hmem ↦ find?_self_iff hmem
  have hshort : ∀ c ∈ candidates, lower c = c → ∀ typed, Shortens typed c →
      (find? typed candidates).isSome = true :=
    fun c hmem hsmall typed h ↦ find?_isSome_of_shortens hmem hsmall h
  refine ⟨hself, hshort, fun typed ↦ find?_eq_none_iff, fun h c hmem ↦ ?_, fun h c hmem ↦ ?_⟩
  · exact (hself c hmem).1 (h c hmem).1
  · exact ⟨(hself c hmem).2 (h c hmem), hshort c hmem (h c hmem)⟩

theorem selectable_inline_block :
    find? "inline-block" ["inline", "inline-block"] = some "inline-block" ∧
      (find? "INLINE-b" ["inline", "inline-block"]).isSome = true :=
  have hsmall : lower "inline-block" = "inline-block" := by decide
  have hmem : "inline-block" ∈ ["inline", "inline-block"] := by decide
  ⟨((selectable_iff _).1 _ hmem).2 hsmall,
    (selectable_iff _).2.1 _ hmem hsmall "INLINE-b" ⟨"inline-b".toList, by decide⟩⟩

/-- A keyword with a capital is not found by its own name, and what shortens it up to the capital
stands for nothing. -/
theorem capital_not_selectable :
    find? "currentColor" ["red", "currentColor"] = none ∧
      Shortens "currentC" "currentColor" ∧ find? "currentC" ["red", "currentColor"] = none :=
  ⟨by decide, ⟨"currentC".toList, by decide⟩, by decide⟩

end Stylesheet.Keyword

end Shorthand
