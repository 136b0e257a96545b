import Shorthand.Proofs.Recovery
import Shorthand.Proofs.Spans

/-!
# The text around an abbreviation

Three questions that reading backwards asks look further than the character at hand: whether a `>`
ends an HTML tag, whether a quote is escaped, and where a quoted value begins.  The latter two are
asked inside square brackets only.  The bracket that opens these belongs to the abbreviation, and
nothing before it can change the answers.

* `GoesOver.surround` : what is gone over in one text is gone over in another one, if HTML tags end
  at no more places there.
* `extract_idempotent` : an abbreviation is found in itself.
* `EndsInTag`, `extract_after_tag` : an HTML tag before an abbreviation does not count, and the
  abbreviation grows with what is typed after it.
-/

set_option autoImplicit false

namespace Shorthand.Extraction

variable {s : Surroundings} {near far far' pending opened left : List Char} {skip extra : Nat}
  {c : Char}

/-! ## Quotes -/

/-- A character that is no backslash hides the backslashes before it. -/
theorem isEscaped_append {x : Char} (hx : x ≠ '\\') (u w : List Char) :
    isEscaped (u ++ x :: w) = isEscaped u := by
  induction u with
  | nil => exact isEscaped_cons hx w
  | cons c u ih =>
    by_cases hc : c = '\\'
    · rw [hc, List.cons_append, isEscaped_backslash, isEscaped_backslash, ih]
    · rw [List.cons_append, isEscaped_cons hc, isEscaped_cons hc]

theorem lt_of_openingQuote {quote : Char} {passed k : Nat} {before : List Char}
    (h : openingQuote quote passed before = some k) : passed < k := by
  rw [openingQuote_passed] at h
  obtain ⟨n, hn, rfl⟩ := Option.map_eq_some_iff.1 h
  cases before with
  | nil => cases hn
  | cons c before =>
    rw [openingQuote] at hn
    split at hn
    · obtain rfl := Option.some.inj hn
      omega
    · rw [openingQuote_passed] at hn
      obtain ⟨m, -, rfl⟩ := Option.map_eq_some_iff.1 hn
      omega

/-- A quote in front of a character that is no backslash is found whatever stands before that
character. -/
theorem openingQuote_append_iff {x quote : Char} (hx : x ≠ '\\') {u w : List Char} {passed k : Nat}
    (hk : k ≤ passed + u.length) :
    openingQuote quote passed (u ++ x :: w) = some k ↔ openingQuote quote passed u = some k := by
  induction u generalizing passed with
  | nil =>
    constructor
    · intro h
      exact absurd (lt_of_openingQuote h) (Nat.not_lt.2 hk)
    · intro h
      cases h
  | cons c u ih =>
    rw [List.length_cons] at hk
    rw [List.cons_append, openingQuote, openingQuote, isEscaped_append hx]
    split
    · exact Iff.rfl
    · exact ih (by omega)

/-! ## Another text around -/

theorem stepOutside_surround (hfar : endsTag (near ++ far) = false → endsTag (near ++ far') = false)
    (h : stepOutside s pending c (near ++ far) = .go opened extra) :
    stepOutside s pending c (near ++ far') = .go opened extra := by
  unfold stepOutside at h ⊢
  split
  next hc => rwa [if_pos hc] at h
  next hc =>
    rw [if_neg hc] at h
    split at h
    · exact h
    · split at h
      · cases h
      next hchar =>
        rw [if_neg hchar]
        split at h
        · cases h
        next htag =>
          rw [if_neg, h]
          intro htag'
          simp only [Bool.and_eq_true] at htag htag'
          exact htag ⟨htag'.1, eq_true_of_ne_false fun hnear ↦ by simp [hfar hnear] at htag'⟩

/-- Inside brackets, the text before counts only at characters between square ones. -/
theorem stepInside_congr {inner : Char} (h : inner = ']' → c = '[') (before before' : List Char) :
    stepInside inner pending c before = stepInside inner pending c before' := by
  by_cases hinner : inner = ']'
  · obtain rfl := h hinner
    subst hinner
    rfl
  · simp [stepInside, hinner]

/-- Inside square brackets, the text before the opening one does not count, if no more is passed
over than the characters in front of it. -/
theorem stepInside_surround {u w w' : List Char} (hextra : extra ≤ u.length)
    (h : stepInside ']' pending c (u ++ '[' :: w) = .go opened extra) :
    stepInside ']' pending c (u ++ '[' :: w') = .go opened extra := by
  have hbracket : ('[' : Char) ≠ '\\' := by decide
  unfold stepInside at h ⊢
  rw [isEscaped_append hbracket] at h ⊢
  split
  next hpush => rwa [if_pos hpush] at h
  next hpush =>
    rw [if_neg hpush] at h
    split
    next hpop => rwa [if_pos hpop] at h
    next hpop =>
      rw [if_neg hpop] at h
      split
      next hquote =>
        rw [if_pos hquote] at h
        split at h
        next k hk =>
          obtain ⟨rfl, rfl⟩ := Step.go.inj h
          have hle : k ≤ 0 + u.length := by omega
          rw [openingQuote_append_iff hbracket hle] at hk
          rw [(openingQuote_append_iff hbracket hle).2 hk]
        · cases h
      next hquote => rwa [if_neg hquote] at h

/-- Inside a square bracket, reading goes on to the one that opens it or stays inside. -/
theorem eq_open_of_step {before : List Char}
    (h : step s (']' :: pending) c before = .go opened extra) :
    c = '[' ∨ ∃ more, opened = ']' :: more := by
  have hinside : stepInside ']' (']' :: pending) c before = .go opened extra := h
  obtain ⟨rfl, rfl, -⟩ | ⟨⟨-, rfl⟩ | ⟨hne, -⟩, -, -⟩ | ⟨rfl, -⟩ := stepInside_eq_go hinside
  · exact .inr ⟨_, rfl⟩
  · exact .inl rfl
  · cases hne
  · exact .inr ⟨_, rfl⟩

/-- A square bracket that is to be opened is opened within the piece that is gone over, and after
the characters that are passed over. -/
theorem GoesOver.exists_open (h : GoesOver s far (']' :: pending) skip near []) :
    ∃ u v, near = u ++ '[' :: v ∧ skip ≤ u.length := by
  generalize hp : ']' :: pending = p, hl : ([] : List Char) = l at h
  induction h generalizing pending with
  | done =>
    rw [← hl] at hp
    cases hp
  | skip c _ ih =>
    obtain ⟨u, v, rfl, hle⟩ := ih hp hl
    exact ⟨c :: u, v, rfl, Nat.succ_le_succ hle⟩
  | @read c _ _ _ _ _ first _ ih =>
    subst hp
    obtain rfl | ⟨more, rfl⟩ := eq_open_of_step first
    · exact ⟨[], _, rfl, Nat.le_refl 0⟩
    · obtain ⟨u, v, rfl, -⟩ := ih rfl hl
      exact ⟨c :: u, v, rfl, Nat.zero_le _⟩

theorem step_surround (hfar : endsTag (near ++ far) = false → endsTag (near ++ far') = false)
    (hopen : ∀ more, opened = ']' :: more → ∃ u v, near = u ++ '[' :: v ∧ extra ≤ u.length)
    (h : step s pending c (near ++ far) = .go opened extra) :
    step s pending c (near ++ far') = .go opened extra := by
  obtain ⟨inner, rest, rfl, hstep⟩ | hstep := step_cases s pending
  · by_cases hbetween : inner = ']' → c = '['
    · rw [hstep] at h ⊢
      rwa [stepInside_congr hbetween _ (near ++ far)]
    · obtain ⟨rfl, hc⟩ : inner = ']' ∧ c ≠ '[' := Classical.not_imp.1 hbetween
      obtain ⟨more, rfl⟩ := (eq_open_of_step h).resolve_left hc
      obtain ⟨u, v, rfl, hextra⟩ := hopen more rfl
      rw [hstep, List.append_assoc, List.cons_append] at h ⊢
      exact stepInside_surround hextra h
  · rw [hstep] at h ⊢
    exact stepOutside_surround hfar h

/-- **The text before an abbreviation** counts for nothing but HTML tags: what is gone over with one
text before it, and leaves no bracket to be opened, is gone over with another one, if a `>` ends an
HTML tag at no more places then. -/
theorem GoesOver.surround
    (hfar : ∀ u, endsTag (u ++ far) = false → endsTag (u ++ far') = false)
    (h : GoesOver s far pending skip near []) : GoesOver s far' pending skip near [] := by
  generalize hl : ([] : List Char) = l at h
  induction h with
  | done => exact .done _
  | skip c _ ih => exact .skip c (ih hl)
  | read first rest ih =>
    subst hl
    -- No bracket is left at the end, so one that is to be opened now is opened on the way.
    refine .read (step_surround (hfar _) (fun more hmore ↦ ?_) first) (ih rfl)
    subst hmore
    exact rest.exists_open

/-! ## An abbreviation by itself -/

/-- Operators that cannot begin an abbreviation are gone over with no bracket to be opened, since
they open none. -/
theorem GoesOver.pending_eq_nil
    (hs : ∀ c, leadingOperators.contains c = true → s.closing? c = none)
    (hnear : ∀ c ∈ near, leadingOperators.contains c = true)
    (h : GoesOver s far pending skip near left) (hleft : left = []) : pending = [] := by
  induction h with
  | done => exact hleft
  | skip c _ ih => exact ih (List.forall_mem_cons.1 hnear).2 hleft
  | @read c pending opened _ _ _ first _ ih =>
    obtain ⟨hc, hnear⟩ := List.forall_mem_cons.1 hnear
    obtain rfl := ih hnear hleft
    obtain ⟨inner, rest, rfl, hstep⟩ | hstep := step_cases s pending
    · rw [hstep] at first
      obtain ⟨-, hopened, -⟩ | ⟨⟨-, rfl⟩ | ⟨-, rfl⟩, -, -⟩ | ⟨hopened, -⟩ := stepInside_eq_go first
      · cases hopened
      · exact absurd hc (by decide)
      · exact absurd hc (by decide)
      · exact hopened.symm
    · rw [hstep] at first
      obtain ⟨-, hopened | ⟨hclosing, -⟩ | hopened⟩ := stepOutside_eq_go first
      · cases hopened
      · exact absurd (hs c hc) hclosing
      · exact hopened.symm

/-- Without the operators before it, an abbreviation is gone over as well. -/
theorem GoesOver.without_operators {operators : List Char}
    (hs : ∀ c, leadingOperators.contains c = true → s.closing? c = none)
    (hoperators : ∀ c ∈ operators, leadingOperators.contains c = true)
    (hskip : pending = [] → skip = 0)
    (h : GoesOver s far pending skip (near ++ operators) []) :
    GoesOver s (operators ++ far) pending skip near [] := by
  induction near generalizing pending skip with
  | nil =>
    obtain rfl := h.pending_eq_nil hs hoperators rfl
    obtain rfl := hskip rfl
    exact .done []
  | cons c near ih =>
    rw [List.cons_append] at h
    cases h with
    | skip _ rest =>
      exact .skip c (ih (fun hp ↦ absurd (hskip hp) (Nat.succ_ne_zero _)) rest)
    | read first rest =>
      rw [List.append_assoc] at first
      exact .read first (ih (fun hp ↦ extra_eq_zero (hp ▸ first)) rest)

/-- An abbreviation that is found in a text is found in itself. -/
theorem Finds.again {cs front operators found : List Char}
    (hs : ∀ c, leadingOperators.contains c = true → s.closing? c = none)
    (h : Finds s cs front operators found) : Finds s found [] [] found := by
  have hover := h.goesOver
  rw [List.reverse_append] at hover
  have halone := hover.without_operators hs (by simpa using h.operators) fun _ ↦ rfl
  refine ⟨rfl, halone.surround fun u hu ↦ ?_, trivial, by simp, h.begins, h.notBlank⟩
  -- A tag that is cut off, its `<` included, ends nowhere.
  rw [List.reverse_nil, List.append_nil]
  by_cases hm : '<' ∈ u
  · rwa [endsTag_append_of_mem hm] at hu
  · exact endsTag_eq_false hm

/-- The operators that cannot begin an abbreviation open no bracket in any syntax type. -/
theorem closing?_operator (type : String) {c : Char} (hc : leadingOperators.contains c = true) :
    (Expansion.surroundingsOf type).closing? c = none := by
  have hcases : c = '*' ∨ c = '+' ∨ c = '>' ∨ c = '^' := by simpa [leadingOperators] using hc
  rw [Expansion.surroundingsOf]
  cases Grammar.ofName? type with
  | none => rcases hcases with rfl | rfl | rfl | rfl <;> rfl
  | some g => cases g <;> rcases hcases with rfl | rfl | rfl | rfl <;> rfl

/-- **Extraction is idempotent.**  Whatever the syntax type, the line and the cursor are, an
abbreviation that is found is found again, whole, in a line of its own. -/
theorem extract_idempotent (type line : String) (position : Option Int) (span : Span)
    (h : extract (Expansion.surroundingsOf type) line position = some span) :
    extract (Expansion.surroundingsOf type) span.abbreviation none
      = some ⟨span.abbreviation, 0, span.abbreviation.length⟩ := by
  obtain ⟨front, operators, found, hfinds, rfl⟩ := extractEnd_eq_some_iff.1 h
  have hagain := hfinds.again fun _ ↦ closing?_operator type
  rw [extract_none]
  refine extractEnd_eq_some_iff.2 ⟨[], [], found, ?_, ?_⟩
  · simpa [Span.last] using hagain
  · simp [Span.last]

/-- An abbreviation between an HTML tag, an operator and a blank, and again by itself. -/
theorem extract_idempotent_link :
    extract (Expansion.surroundingsOf "markup") "<p>*a[b='[']>c d" (some 14)
        = some ⟨"a[b='[']>c", 4, 14⟩ ∧
      extract (Expansion.surroundingsOf "markup") "a[b='[']>c" none
        = some ⟨"a[b='[']>c", 0, 10⟩ := by
  have hfound : extract (Expansion.surroundingsOf "markup") "<p>*a[b='[']>c d" (some 14)
      = some ⟨"a[b='[']>c", 4, 14⟩ := by decide +kernel
  exact ⟨hfound, extract_idempotent "markup" "<p>*a[b='[']>c d" (some 14) _ hfound⟩

/-! ## After an HTML tag -/

/-- Where reading backwards halts, it halts with an HTML tag before, too. -/
theorem Halts.before_tag {before : List Char} (h : Halts .markup far)
    (htag : endsTag before = true) : Halts .markup (far ++ '>' :: before) := by
  cases far with
  | nil => exact step_tag 0 htag
  | cons c rest =>
    have hsame : step .markup [] c (rest ++ '>' :: before) = step .markup [] c rest := by
      simp only [step, stepOutside, endsTag_append_close]
    exact hsame.trans h

/-- Characters of the abbreviation language are gone over when they are typed after an
abbreviation. -/
theorem GoesOver.typed {typed : List Char}
    (htyped : ∀ c ∈ typed, isAbbreviationChar c = true ∧ c ≠ '>')
    (h : GoesOver .markup far [] 0 near left) :
    GoesOver .markup far [] 0 (typed ++ near) left := by
  induction typed with
  | nil => exact h
  | cons c typed ih =>
    obtain ⟨hc, htyped⟩ := List.forall_mem_cons.1 htyped
    exact .read (step_plain hc.1 (by simp [hc.2]) 0) (ih htyped)

/-- An abbreviation is found after an HTML tag, and with what is typed after it. -/
theorem Finds.after_tag {cs front operators found tagged typed : List Char}
    (h : Finds .markup cs front operators found) (htag : EndsInTag tagged)
    (htyped : ∀ c ∈ typed, isAbbreviationChar c = true ∧ c ≠ '>') :
    Finds .markup (tagged ++ cs ++ typed) (tagged ++ front) operators (found ++ typed) := by
  obtain ⟨before, hreverse, hbefore⟩ := htag.exists_close
  have hfront : (tagged ++ front).reverse = front.reverse ++ '>' :: before := by
    rw [List.reverse_append, hreverse]
  refine ⟨by simp [h.eq], ?_, ?_, h.operators, ?_, ?_⟩
  · have hpiece : (operators ++ (found ++ typed)).reverse
        = typed.reverse ++ (operators ++ found).reverse := by simp
    rw [hfront, hpiece]
    refine GoesOver.typed (by simpa using htyped) (h.goesOver.surround fun u hu ↦ ?_)
    rwa [← List.append_assoc, endsTag_append_close]
  · rw [hfront]
    exact h.halts.before_tag hbefore
  · cases hfound : found with
    | nil => exact absurd h.notBlank (by simp [hfound, Text.isBlankText])
    | cons c rest => simpa [hfound] using h.begins
  · have := h.notBlank
    rw [Text.isBlankText] at this ⊢
    rw [List.all_append, this, Bool.false_and]

/-- **An HTML tag before an abbreviation does not count, and what is typed after it belongs to
it.** -/
theorem extract_after_tag (tag line typed : String) (span : Span) (htag : EndsInTag tag.toList)
    (hline : extract .markup line none = some span)
    (htyped : ∀ c ∈ typed.toList, isAbbreviationChar c = true ∧ c ≠ '>') :
    extract .markup (tag ++ line ++ typed) none
      = some ⟨span.abbreviation ++ typed, tag.length + span.start,
          tag.length + span.stop + typed.length⟩ := by
  rw [extract_none] at hline ⊢
  obtain ⟨front, operators, found, hfinds, rfl⟩ := extractEnd_eq_some_iff.1 hline
  have hafter := hfinds.after_tag htag htyped
  have hlength : found.length ≤ line.toList.length := by
    rw [hfinds.eq, List.length_append, List.length_append]
    omega
  refine extractEnd_eq_some_iff.2 ⟨_, _, _, by simpa using hafter, ?_⟩
  have hstop : (tag ++ line ++ typed).toList.length
      = tag.length + line.toList.length + typed.length := by
    simp only [String.toList_append, List.length_append, String.length_toList]
  have hstart : (tag ++ line ++ typed).toList.length - (found ++ typed.toList).length
      = tag.length + (line.toList.length - found.length) := by
    rw [hstop, List.length_append, ← typed.length_toList]
    omega
  rw [Span.last, Span.last, hstart, hstop]
  simp

/-- An end tag before an abbreviation with an operator at its beginning, and a number typed after
it. -/
theorem extract_after_tag_numbered :
    EndsInTag "x</a-b c=1/>".toList ∧
      extract .markup "+u[v='\"']>i" none = some ⟨"u[v='\"']>i", 1, 11⟩ ∧
      (∀ c ∈ "$@-3".toList, isAbbreviationChar c = true ∧ c ≠ '>') ∧
      extract .markup "x</a-b c=1/>+u[v='\"']>i$@-3" none
        = some ⟨"u[v='\"']>i$@-3", 13, 27⟩ := by
  have htag : EndsInTag "x</a-b c=1/>".toList :=
    ⟨['x'], "</a-b c=1/>".toList, by decide,
      @IsTag.mk ['/'] ['-', 'b'] [' '] ['c', '=', '1'] ['/'] 'a' (.inr rfl) (by decide)
        (List.all_eq_true.1 (by decide)) (List.all_eq_true.1 (by decide)) (by simp) (by simp)
        (.inr rfl)⟩
  have hline : extract .markup "+u[v='\"']>i" none = some ⟨"u[v='\"']>i", 1, 11⟩ := by
    decide +kernel
  have htyped : ∀ c ∈ "$@-3".toList, isAbbreviationChar c = true ∧ c ≠ '>' := by
    have hall : ("$@-3".toList.all fun c ↦ isAbbreviationChar c && c != '>') = true := by decide
    simpa only [List.all_eq_true, Bool.and_eq_true, bne_iff_ne] using hall
  exact ⟨htag, hline, htyped, extract_after_tag "x</a-b c=1/>" "+u[v='\"']>i" "$@-3" _ htag hline
    htyped⟩

end Shorthand.Extraction
