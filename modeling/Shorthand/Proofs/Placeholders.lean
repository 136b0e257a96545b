import Shorthand.Proofs.Fields
import Shorthand.Proofs.Insertion
import Mathlib.Algebra.Order.BigOperators.Group.List
import Mathlib.Data.List.Count

/-!
# What an editor makes of a placeholder

A tab stop is written with its placeholder as it is, so an editor reads the placeholder sign by
sign.  What it makes of it, it makes of it alone, whatever comes after, as long as the placeholder
is closed where it was meant to be closed or before.  That is so if all placeholders which are
opened inside are closed inside (`nested`).

The braces of a placeholder that was read from a text are in pairs.  So it is nested unless one of
them is escaped; and where something is escaped, a backslash is lost.

* `Editor.read_tabStop` : a tab stop with a nested placeholder is read by itself.
* `Editor.backslashes_read` : every escape loses a backslash.
* `Editor.balanced_of_mem_parse` : the braces of a placeholder that was read are in pairs.
* `Editor.nested_of_balanced` : braces in pairs, none of them escaped.
-/

set_option autoImplicit false

namespace Shorthand.Editor

/-! ## Nesting -/

/-- Do signs end with a closing brace, and is every placeholder that they open closed before?  At
the beginning `depth` of those are open. -/
def nested : Nat → List Sign → Bool
  | _, [] => false
  | depth, .opening _ :: ss => nested (depth + 1) ss
  | 0, .closing :: ss => ss.isEmpty || nested 0 ss
  | depth + 1, .closing :: ss => nested depth ss
  | depth, .plain _ :: ss | depth, .escaped _ :: ss | depth, .stop _ _ :: ss
  | depth, .name _ _ :: ss => nested depth ss

/-- What is shown of nested signs, if they stand inside of `n` placeholders: whatever comes after
them, these are closed, and no more is shown than was written between the braces. -/
structure ShownAlone (n : Nat) (ss : List Sign) (gs : List Glyph) : Prop where
  length_le : gs.length + n ≤ (ss.flatMap Sign.spelling).length
  closes : ∀ rest i, i < n → closes i (ss ++ rest) = true
  shown : ∀ rest, shown n (ss ++ rest) = gs ++ shown 0 rest

/-- A sign that neither opens nor closes a placeholder. -/
theorem ShownAlone.cons {n : Nat} {s : Sign} {ss : List Sign} {gs gs' : List Glyph}
    (h : ShownAlone n ss gs) (hlength : gs'.length ≤ s.spelling.length)
    (hcloses : ∀ i rest, Editor.closes i (s :: rest) = Editor.closes i rest)
    (hshown : ∀ rest, Editor.shown n (s :: rest) = gs' ++ Editor.shown n rest) :
    ShownAlone n (s :: ss) (gs' ++ gs) where
  length_le := by
    have := h.length_le
    rw [List.flatMap_cons, List.length_append, List.length_append]
    omega
  closes rest i hi := by rw [List.cons_append, hcloses, h.closes rest i hi]
  shown rest := by rw [List.cons_append, hshown, h.shown, List.append_assoc]

theorem ShownAlone.opening {n : Nat} {ss : List Sign} {gs : List Glyph}
    (h : ShownAlone (n + 1) ss gs) (digits : List Char) :
    ShownAlone n (.opening digits :: ss) gs where
  length_le := by
    have := h.length_le
    rw [List.flatMap_cons, List.length_append]
    omega
  closes rest i hi := h.closes rest (i + 1) (Nat.succ_lt_succ hi)
  shown rest := by
    rw [List.cons_append, Editor.shown, h.closes rest 0 (Nat.succ_pos n), if_pos rfl, h.shown]

theorem ShownAlone.closing {n : Nat} {ss : List Sign} {gs : List Glyph} (h : ShownAlone n ss gs) :
    ShownAlone (n + 1) (.closing :: ss) gs where
  length_le := by
    have := h.length_le
    rw [List.flatMap_cons, List.length_append, Sign.spelling, List.length_singleton]
    omega
  closes rest i hi := by
    cases i with
    | zero => rfl
    | succ i => exact h.closes rest i (Nat.lt_of_succ_lt_succ hi)
  shown rest := h.shown rest

/-- A closing brace where nothing is open. -/
theorem ShownAlone.closing_zero {ss : List Sign} {gs : List Glyph} (h : ShownAlone 0 ss gs) :
    ShownAlone 0 (.closing :: ss) (.char '\x7d' :: gs) where
  length_le := by
    have := h.length_le
    rw [List.flatMap_cons, List.length_append, Sign.spelling, List.length_singleton,
      List.length_cons]
    omega
  closes _ i hi := absurd hi (Nat.not_lt_zero i)
  shown rest := by rw [List.cons_append, Editor.shown, h.shown, List.cons_append]

theorem ShownAlone.nil : ShownAlone 0 [] [] where
  length_le := Nat.le_refl _
  closes _ i hi := absurd hi (Nat.not_lt_zero i)
  shown _ := rfl

/-- What is shown of nested signs does not depend on what comes after them. -/
theorem exists_shownAlone {depth : Nat} {ss : List Sign} (h : nested depth ss = true) {n : Nat}
    (hn : n ≤ depth + 1) : ∃ gs, ShownAlone n ss gs := by
  have hskip : ∀ {s : Sign} {ss : List Sign} {n : Nat} (gs' : List Glyph),
      gs'.length ≤ s.spelling.length → (∀ i rest, closes i (s :: rest) = closes i rest) →
      (∀ rest, shown n (s :: rest) = gs' ++ shown n rest) →
      (∃ gs, ShownAlone n ss gs) → ∃ gs, ShownAlone n (s :: ss) gs :=
    fun _ hlength hcloses hshown ⟨_, h⟩ ↦ ⟨_, h.cons hlength hcloses hshown⟩
  induction ss generalizing depth n with
  | nil => simp [nested] at h
  | cons s ss ih =>
    cases s with
    | plain c =>
      exact hskip [.char c] (by simp [Sign.spelling]) (fun _ _ ↦ by rw [closes])
        (fun _ ↦ by rw [shown]; rfl) (ih (by rwa [nested] at h) hn)
    | escaped c =>
      exact hskip [.char c] (by simp [Sign.spelling]) (fun _ _ ↦ by rw [closes])
        (fun _ ↦ by rw [shown]; rfl) (ih (by rwa [nested] at h) hn)
    | stop braced digits =>
      exact hskip [] (by simp) (fun _ _ ↦ by rw [closes]) (fun _ ↦ by rw [shown]; rfl)
        (ih (by rwa [nested] at h) hn)
    | name braced chars =>
      exact hskip [.name chars] (List.length_pos_iff.2 (Sign.spelling_ne_nil _))
        (fun _ _ ↦ by rw [closes]) (fun _ ↦ by rw [shown]; rfl) (ih (by rwa [nested] at h) hn)
    | opening digits =>
      obtain ⟨gs, hgs⟩ := ih (by rwa [nested] at h) (Nat.succ_le_succ hn)
      exact ⟨gs, hgs.opening digits⟩
    | closing =>
      -- Inside of no placeholder the brace is shown, else it closes the innermost one.
      have hrest : ∃ gs, ShownAlone (n - 1) ss gs := by
        cases depth with
        | succ depth => exact ih (by rwa [nested] at h) (by omega)
        | zero =>
          rw [nested, Bool.or_eq_true] at h
          have hn0 : n - 1 = 0 := by omega
          rw [hn0]
          rcases h with h | h
          · obtain rfl := List.isEmpty_iff.1 h
            exact ⟨[], .nil⟩
          · exact ih h (Nat.zero_le _)
      obtain ⟨gs, hgs⟩ := hrest
      cases n with
      | zero => exact ⟨_, hgs.closing_zero⟩
      | succ n => exact ⟨gs, hgs.closing⟩

/-- Is a placeholder closed where it was meant to be? -/
def Nested (placeholder : String) : Prop :=
  nested 0 (signs (placeholder.toList ++ ['\x7d'])) = true

/-- **A tab stop is read by itself**, and no more is shown than its placeholder holds. -/
theorem read_tabStop {placeholder : String} (h : Nested placeholder) (number : Nat) :
    (read (tabStop number placeholder).toList).length ≤ placeholder.length ∧
      ∀ cs, read ((tabStop number placeholder).toList ++ cs)
        = read (tabStop number placeholder).toList ++ read cs := by
  suffices hgs : ∃ gs : List Glyph, gs.length ≤ placeholder.length ∧
      ∀ cs, read ((tabStop number placeholder).toList ++ cs) = gs ++ read cs by
    obtain ⟨gs, hlength, hread⟩ := hgs
    have halone := hread []
    rw [List.append_nil, read, read, signs_nil, shown, List.append_nil, ← read] at halone
    rw [halone]
    exact ⟨hlength, hread⟩
  by_cases hempty : placeholder.isEmpty = true
  · refine ⟨[], Nat.zero_le _, fun cs ↦ ?_⟩
    rw [read, signs_tabStop, if_pos hempty]
    rfl
  · obtain ⟨gs, hgs⟩ := exists_shownAlone h (Nat.le_refl 1)
    refine ⟨gs, ?_, fun cs ↦ ?_⟩
    · have hlength := hgs.length_le
      rw [flatMap_spelling_signs, List.length_append, List.length_singleton] at hlength
      exact Nat.le_of_add_le_add_right hlength
    · rw [read, signs_tabStop, if_neg hempty, List.cons_append, shown,
        hgs.closes _ 0 Nat.one_pos, if_pos rfl, hgs.shown]
      rfl

/-! ## Backslashes -/

namespace Sign

/-- Is something escaped here? -/
def isEscaped : Sign → Bool
  | .escaped _ => true
  | _ => false

theorem ne_backslash_of_isDigit {c : Char} (h : c.isDigit = true) : c ≠ '\\' := by
  rintro rfl
  exact absurd h (by decide)

theorem ne_backslash_of_isNameChar {c : Char} (h : isNameChar c = true) : c ≠ '\\' := by
  rintro rfl
  exact absurd h (by decide)

/-- Only a plain or an escaped character is written with a backslash. -/
theorem count_spelling {s : Sign} (h : s.WellFormed) (hplain : ∀ c, s ≠ .plain c)
    (hescaped : ∀ c, s ≠ .escaped c) : s.spelling.count '\\' = 0 := by
  rw [List.count_eq_zero]
  cases s with
  | plain c => exact absurd rfl (hplain c)
  | escaped c => exact absurd rfl (hescaped c)
  | stop braced digits =>
    have hdigits : '\\' ∉ digits := fun hmem ↦ ne_backslash_of_isDigit (h.2 _ hmem) rfl
    cases braced <;> simp [spelling, hdigits]
  | name braced chars =>
    have hchars : '\\' ∉ chars := fun hmem ↦ ne_backslash_of_isNameChar (h.2 _ hmem) rfl
    cases braced <;> simp [spelling, hchars]
  | opening digits =>
    have hdigits : '\\' ∉ digits := fun hmem ↦ ne_backslash_of_isDigit (h.2 _ hmem) rfl
    simp [spelling, hdigits]
  | closing => simp [spelling]

end Sign

/-- The backslashes that are shown. -/
def backslashes (gs : List Glyph) : Nat := gs.count (.char '\\')

theorem backslashes_append (gs gs' : List Glyph) :
    backslashes (gs ++ gs') = backslashes gs + backslashes gs' := List.count_append

theorem backslashes_map_char (cs : List Char) : backslashes (cs.map .char) = cs.count '\\' :=
  List.count_map_of_injective cs Glyph.char (fun _ _ h ↦ Glyph.char.inj h) '\\'

theorem backslashes_cons_char (c : Char) (gs : List Glyph) :
    backslashes (.char c :: gs) = [c].count '\\' + backslashes gs := by
  rw [← backslashes_map_char, ← backslashes_append]
  rfl

theorem backslashes_cons_name (chars : List Char) (gs : List Glyph) :
    backslashes (.name chars :: gs) = backslashes gs := List.count_cons_of_ne (by simp)

theorem backslashes_shown {ss : List Sign} (h : ∀ s ∈ ss, s.WellFormed) (depth : Nat) :
    backslashes (shown depth ss) + ss.countP Sign.isEscaped
      = (ss.flatMap Sign.spelling).count '\\' := by
  induction ss generalizing depth with
  | nil => cases depth <;> rfl
  | cons s ss ih =>
    obtain ⟨hs, hss⟩ := List.forall_mem_cons.1 h
    have ih := ih hss
    have hspelling := Sign.count_spelling hs
    rw [List.flatMap_cons, List.count_append, List.countP_cons]
    cases s with
    | plain c =>
      rw [shown, backslashes_cons_char, ← ih depth, Nat.add_assoc]
      rfl
    | escaped c =>
      rw [shown, backslashes_cons_char, ← ih depth, Sign.spelling, List.count_cons_self]
      simp only [Sign.isEscaped, if_true]
      omega
    | stop braced digits =>
      rw [shown, hspelling (by simp) (by simp), ← ih depth, Nat.zero_add]
      rfl
    | name braced chars =>
      rw [shown, hspelling (by simp) (by simp), ← ih depth, backslashes_cons_name, Nat.zero_add]
      rfl
    | opening digits =>
      have hzero := hspelling (by simp) (by simp)
      rw [hzero, Nat.zero_add, shown]
      split
      · exact ih (depth + 1)
      · rw [backslashes_append, backslashes_map_char, hzero, Nat.zero_add]
        exact ih depth
    | closing =>
      rw [hspelling (by simp) (by simp), Nat.zero_add]
      cases depth with
      | zero =>
        rw [shown, backslashes_cons_char, ← ih 0]
        simp [Sign.isEscaped]
      | succ depth => exact ih depth

/-- Every escape loses a backslash. -/
theorem backslashes_read (cs : List Char) :
    backslashes (read cs) + (signs cs).countP Sign.isEscaped = cs.count '\\' := by
  rw [read, backslashes_shown (wellFormed_of_mem_signs cs), flatMap_spelling_signs]

/-! ## Braces in pairs -/

/-- Does a text end with the brace that closes the last of `depth + 1` open pairs? -/
def closesAtEnd : Nat → List Char → Bool
  | _, [] => false
  | depth, c :: cs =>
    if c == '\x7d' then
      match depth with
      | 0 => cs.isEmpty
      | depth + 1 => closesAtEnd depth cs
    else if c == '\x7b' then closesAtEnd (depth + 1) cs
    else closesAtEnd depth cs

theorem closesAtEnd_skip {c : Char} (hopen : c ≠ '\x7b') (hclose : c ≠ '\x7d') (depth : Nat)
    (cs : List Char) : closesAtEnd depth (c :: cs) = closesAtEnd depth cs := by
  rw [closesAtEnd.eq_def]
  simp [hopen, hclose]

theorem closesAtEnd_open (depth : Nat) (cs : List Char) :
    closesAtEnd depth ('\x7b' :: cs) = closesAtEnd (depth + 1) cs := by
  rw [closesAtEnd.eq_def]
  rfl

theorem closesAtEnd_close (depth : Nat) (cs : List Char) :
    closesAtEnd (depth + 1) ('\x7d' :: cs) = closesAtEnd depth cs := rfl

/-- The placeholder of a field ends where its brace is. -/
theorem closesAtEnd_of_placeholder? {depth : Nat} {cs inner : List Char}
    (h : placeholder? depth cs = some inner) : closesAtEnd depth (inner ++ ['\x7d']) = true := by
  induction cs generalizing depth inner with
  | nil => simp [placeholder?] at h
  | cons c cs ih =>
    rw [placeholder?.eq_def] at h
    dsimp only at h
    split at h
    · next hc =>
      obtain rfl : c = '\x7d' := by simpa using hc
      cases depth with
      | zero =>
        obtain rfl := Option.some.inj h
        rfl
      | succ depth =>
        obtain ⟨inner, hinner, rfl⟩ := Option.map_eq_some_iff.1 h
        rw [List.cons_append, closesAtEnd_close]
        exact ih hinner
    · next hc =>
      split at h
      · next hopen =>
        obtain rfl : c = '\x7b' := by simpa using hopen
        obtain ⟨inner, hinner, rfl⟩ := Option.map_eq_some_iff.1 h
        rw [List.cons_append, closesAtEnd_open]
        exact ih hinner
      · next hopen =>
        obtain ⟨inner, hinner, rfl⟩ := Option.map_eq_some_iff.1 h
        rw [List.cons_append, closesAtEnd_skip (by simpa using hopen) (by simpa using hc)]
        exact ih hinner

theorem closesAtEnd_append {w : List Char} (h : ∀ c ∈ w, c ≠ '\x7b' ∧ c ≠ '\x7d') (depth : Nat)
    (cs : List Char) : closesAtEnd depth (w ++ cs) = closesAtEnd depth cs := by
  induction w with
  | nil => rfl
  | cons c w ih =>
    obtain ⟨⟨hopen, hclose⟩, hw⟩ := List.forall_mem_cons.1 h
    rw [List.cons_append, closesAtEnd_skip hopen hclose, ih hw]

namespace Sign

theorem not_brace_of_isDigit {c : Char} (h : c.isDigit = true) : c ≠ '\x7b' ∧ c ≠ '\x7d' := by
  constructor <;> rintro rfl <;> exact absurd h (by decide)

theorem not_brace_of_isNameChar {c : Char} (h : isNameChar c = true) :
    c ≠ '\x7b' ∧ c ≠ '\x7d' := by
  constructor <;> rintro rfl <;> exact absurd h (by decide)

end Sign

/-- Signs that neither open nor close a placeholder and are not escaped leave the pairs of braces
as they are, unless they are an opening brace. -/
theorem closesAtEnd_spelling {s : Sign} (hs : s.WellFormed) (hescaped : s.isEscaped = false)
    (hplain : s ≠ .plain '\x7b') (hopening : ∀ digits, s ≠ .opening digits)
    (hclosing : s ≠ .closing) (depth : Nat) (cs : List Char) :
    closesAtEnd depth (s.spelling ++ cs) = closesAtEnd depth cs := by
  have hdollar : ∀ c ∈ ['$'], c ≠ '\x7b' ∧ c ≠ '\x7d' := by simp
  have hbraced : ∀ w : List Char, (∀ c ∈ w, c ≠ '\x7b' ∧ c ≠ '\x7d') →
      closesAtEnd depth (['$'] ++ '\x7b' :: (w ++ '\x7d' :: cs)) = closesAtEnd depth cs := by
    intro w hw
    rw [closesAtEnd_append hdollar, closesAtEnd_open, closesAtEnd_append hw, closesAtEnd_close]
  cases s with
  | plain c =>
    refine closesAtEnd_append (w := [c]) ?_ depth cs
    simpa using ⟨fun hc ↦ hplain (by rw [hc]), hs⟩
  | escaped c => cases hescaped
  | stop braced digits =>
    have hdigits := fun c hc ↦ Sign.not_brace_of_isDigit (hs.2 c hc)
    cases braced with
    | false =>
      exact (closesAtEnd_append hdollar depth (digits ++ cs)).trans
        (closesAtEnd_append hdigits depth cs)
    | true => simpa [Sign.spelling] using hbraced digits hdigits
  | name braced chars =>
    have hchars := fun c hc ↦ Sign.not_brace_of_isNameChar (hs.2 c hc)
    cases braced with
    | false =>
      exact (closesAtEnd_append hdollar depth (chars ++ cs)).trans
        (closesAtEnd_append hchars depth cs)
    | true => simpa [Sign.spelling] using hbraced chars hchars
  | opening digits => exact absurd rfl (hopening digits)
  | closing => exact absurd rfl hclosing

/-- Where braces are in pairs and none is escaped, placeholders are nested: fewer of them are open
than braces. -/
theorem nested_of_closesAtEnd {ss : List Sign} (hwf : ∀ s ∈ ss, s.WellFormed)
    (hescaped : ∀ s ∈ ss, s.isEscaped = false) {depth braces : Nat} (hle : depth ≤ braces)
    (h : closesAtEnd braces (ss.flatMap Sign.spelling) = true) : nested depth ss = true := by
  induction ss generalizing depth braces with
  | nil => cases h
  | cons s ss ih =>
    obtain ⟨hs, hwf⟩ := List.forall_mem_cons.1 hwf
    obtain ⟨he, hescaped⟩ := List.forall_mem_cons.1 hescaped
    have ih : ∀ {depth braces : Nat}, depth ≤ braces →
        closesAtEnd braces (ss.flatMap Sign.spelling) = true → nested depth ss = true :=
      ih hwf hescaped
    rw [List.flatMap_cons] at h
    have hskip := closesAtEnd_spelling hs he
    cases s with
    | plain c =>
      rw [nested]
      by_cases hc : c = '\x7b'
      · subst hc
        exact ih (Nat.le_succ_of_le hle) ((closesAtEnd_open braces _).symm.trans h)
      · rw [hskip (by simpa using hc) (by simp) (by simp)] at h
        exact ih hle h
    | escaped c => cases he
    | stop braced digits =>
      rw [hskip (by simp) (by simp) (by simp)] at h
      rw [nested]
      exact ih hle h
    | name braced chars =>
      rw [hskip (by simp) (by simp) (by simp)] at h
      rw [nested]
      exact ih hle h
    | opening digits =>
      have hdigits : ∀ c ∈ digits ++ [':'], c ≠ '\x7b' ∧ c ≠ '\x7d' :=
        List.forall_mem_append.2 ⟨fun c hc ↦ Sign.not_brace_of_isDigit (hs.2 c hc), by simp⟩
      have hsplit : (Sign.opening digits).spelling ++ ss.flatMap Sign.spelling
          = ['$'] ++ '\x7b' :: ((digits ++ [':']) ++ ss.flatMap Sign.spelling) := rfl
      rw [hsplit, closesAtEnd_append (by simp), closesAtEnd_open,
        closesAtEnd_append hdigits] at h
      exact ih (Nat.succ_le_succ hle) h
    | closing =>
      cases braces with
      | zero =>
        obtain rfl := Nat.le_zero.1 hle
        have hnil : ss = [] := by
          cases ss with
          | nil => rfl
          | cons s ss =>
            have hempty : (s :: ss).flatMap Sign.spelling = [] := List.isEmpty_iff.1 h
            rw [List.flatMap_cons] at hempty
            exact absurd (List.append_eq_nil_iff.1 hempty).1 s.spelling_ne_nil
        rw [hnil]
        rfl
      | succ braces =>
        cases depth with
        | zero =>
          rw [nested, Bool.or_eq_true]
          exact .inr (ih (Nat.zero_le _) h)
        | succ depth => exact ih (Nat.le_of_succ_le_succ hle) h

/-- Is a placeholder the text up to its closing brace, with pairs of braces inside? -/
def Balanced (placeholder : String) : Prop :=
  closesAtEnd 0 (placeholder.toList ++ ['\x7d']) = true

/-- The braces of a placeholder that was read are in pairs. -/
theorem balanced_of_mem_parse {s : String} {f : Field} (h : f ∈ (Value.parse s).fields) :
    Balanced f.placeholder := by
  obtain ⟨cs, size, -, hread⟩ := Value.read?_of_mem_parse h
  rw [Field.read?.eq_def] at hread
  split at hread
  · dsimp only at hread
    split at hread
    · cases hread
    · split at hread
      · cases hread
        rfl
      · obtain ⟨inner, hinner, hf⟩ := Option.map_eq_some_iff.1 hread
        cases hf
        rw [Balanced, String.toList_ofList]
        exact closesAtEnd_of_placeholder? hinner
      · cases hread
  · cases hread

/-- The escapes in a placeholder, its closing brace included. -/
def escapes (placeholder : String) : Nat :=
  (signs (placeholder.toList ++ ['\x7d'])).countP Sign.isEscaped

/-- **Braces in pairs and no escapes** : such a placeholder is nested. -/
theorem nested_of_balanced {placeholder : String} (h : Balanced placeholder)
    (hescapes : escapes placeholder = 0) : Nested placeholder := by
  refine nested_of_closesAtEnd (wellFormed_of_mem_signs _) (fun s hs ↦ ?_) (Nat.le_refl 0)
    (by rwa [flatMap_spelling_signs])
  have hnot := List.countP_eq_zero.1 hescapes s hs
  simpa using hnot

theorem countP_signs_tabStop (number : Nat) (placeholder : String) (cs : List Char) :
    (signs ((tabStop number placeholder).toList ++ cs)).countP Sign.isEscaped
      = escapes placeholder + (signs cs).countP Sign.isEscaped := by
  rw [signs_tabStop, List.countP_append, escapes]
  split
  · next hempty =>
    obtain rfl := String.isEmpty_iff.1 hempty
    rfl
  · rw [List.countP_cons_of_neg (by simp [Sign.isEscaped])]

theorem count_tabStop (number : Nat) (placeholder : String) :
    (tabStop number placeholder).toList.count '\\' = placeholder.toList.count '\\' := by
  have hdigits : (toString number).toList.count '\\' = 0 := List.count_eq_zero.2 fun hmem ↦
    Sign.ne_backslash_of_isDigit ((toList_toString_nat number).2 _ hmem) rfl
  rw [tabStop]
  split
  · next hempty =>
    obtain rfl := String.isEmpty_iff.1 hempty
    simpa [List.count_append] using hdigits
  · simpa [List.count_append] using hdigits

/-- Every escape in a placeholder loses a backslash. -/
theorem backslashes_tabStop (number : Nat) (placeholder : String) :
    backslashes (read (tabStop number placeholder).toList) + escapes placeholder
      = placeholder.toList.count '\\' := by
  have hcount := countP_signs_tabStop number placeholder []
  rw [List.append_nil, signs_nil, List.countP_nil, Nat.add_zero] at hcount
  rw [← hcount, backslashes_read, count_tabStop]

end Shorthand.Editor
