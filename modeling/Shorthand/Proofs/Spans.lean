import Shorthand.Expansion

/-!
# The spans that are found

Reading backwards goes over some characters and then halts: at a character that stops it, or at the
start of the text.  An abbreviation is found when no bracket is left to be opened there; operators
that it cannot begin with are left out.

* `GoesOver` : reading backwards goes over a piece, given what stands before the piece.
* `reach_eq_iff` : how far back an abbreviation goes, said by what is gone over.
* `Finds`, `extractEnd_eq_some_iff` : the parts of a text that an abbreviation is found at the end
  of.
* `extract_exact` : only the text before the cursor counts, and a span says where an abbreviation
  stands in it.
-/

set_option autoImplicit false

namespace Shorthand.Extraction

variable {s : Surroundings} {cs far near pending left : List Char} {skip size : Nat}

/-! ## Going on -/

section Step

variable {inner c : Char} {before opened : List Char} {extra : Nat}

/-- Inside a bracket, reading goes on past a bracket of the same kind, which is to be opened too,
past the one that opens it, past a quoted value as a whole, and past anything else. -/
theorem stepInside_eq_go (h : stepInside inner pending c before = .go opened extra) :
    (c = inner ∧ opened = c :: pending ∧ extra = 0) ∨
    ((inner = ']' ∧ c = '[' ∨ inner = '\x7d' ∧ c = '\x7b') ∧ opened = pending.tail ∧ extra = 0) ∨
    (opened = pending ∧ (extra = 0 ∨ inner = ']' ∧ openingQuote c 0 before = some extra)) := by
  unfold stepInside at h
  split at h
  next hc =>
    obtain ⟨rfl, rfl⟩ := Step.go.inj h
    exact .inl ⟨eq_of_beq hc, rfl, rfl⟩
  split at h
  next hc =>
    obtain ⟨rfl, rfl⟩ := Step.go.inj h
    exact .inr (.inl ⟨by simpa using hc, rfl, rfl⟩)
  split at h
  next hc =>
    split at h
    next k hk =>
      obtain ⟨rfl, rfl⟩ := Step.go.inj h
      simp only [Bool.and_eq_true, beq_iff_eq] at hc
      exact .inr (.inr ⟨rfl, .inr ⟨hc.1.1, hk⟩⟩)
    · cases h
  · obtain ⟨rfl, rfl⟩ := Step.go.inj h
    exact .inr (.inr ⟨rfl, .inl rfl⟩)

/-- Outside brackets, reading goes on past one character: one that closes a bracket, one that opens
the bracket that is to be opened, or one that is no bracket. -/
theorem stepOutside_eq_go (h : stepOutside s pending c before = .go opened extra) :
    extra = 0 ∧ (opened = c :: pending ∨ (s.closing? c ≠ none ∧ opened = pending.tail) ∨
      opened = pending) := by
  unfold stepOutside at h
  split at h
  · obtain ⟨rfl, rfl⟩ := Step.go.inj h
    exact ⟨rfl, .inl rfl⟩
  split at h
  next close hclose =>
    have hne : s.closing? c ≠ none := by simp [hclose]
    split at h
    · obtain ⟨rfl, rfl⟩ := Step.go.inj h
      exact ⟨rfl, .inr (.inl ⟨hne, rfl⟩)⟩
    · split at h
      · obtain ⟨rfl, rfl⟩ := Step.go.inj h
        exact ⟨rfl, .inr (.inl ⟨hne, rfl⟩)⟩
      · cases h
  · split at h
    · cases h
    split at h
    · cases h
    · obtain ⟨rfl, rfl⟩ := Step.go.inj h
      exact ⟨rfl, .inr (.inr rfl)⟩

/-- One step reads inside the bracket that is to be opened next, or outside brackets. -/
theorem step_cases (s : Surroundings) (pending : List Char) :
    (∃ inner rest, pending = inner :: rest ∧
      ∀ c before, step s pending c before = stepInside inner pending c before) ∨
    ∀ c before, step s pending c before = stepOutside s pending c before := by
  cases pending with
  | nil => exact .inr fun _ _ ↦ rfl
  | cons inner rest =>
    cases hinner : inner == ']' || inner == '\x7d' with
    | true => exact .inl ⟨inner, rest, rfl, fun _ _ ↦ by simp [step, hinner]⟩
    | false => exact .inr fun _ _ ↦ by simp [step, hinner]

/-- Characters are only passed over inside brackets. -/
theorem extra_eq_zero (h : step s pending c before = .go [] extra) : extra = 0 := by
  obtain ⟨inner, rest, rfl, hstep⟩ | hstep := step_cases s pending
  · rw [hstep] at h
    obtain ⟨-, hopened, -⟩ | ⟨-, -, rfl⟩ | ⟨hopened, -⟩ := stepInside_eq_go h
    · cases hopened
    · rfl
    · cases hopened
  · rw [hstep] at h
    exact (stepOutside_eq_go h).1

end Step

/-! ## Going over a piece -/

/-- Reading backwards goes over the characters `near`, nearest first, when the characters `far`
stand before them.  The closing brackets `pending` are to be opened at first, and `left` are still
to be opened then; the first `skip` characters belong to the abbreviation in any case. -/
inductive GoesOver (s : Surroundings) (far : List Char) :
    List Char → Nat → List Char → List Char → Prop where
  | done (pending : List Char) : GoesOver s far pending 0 [] pending
  | skip (c : Char) {pending near left : List Char} {skip : Nat}
      (rest : GoesOver s far pending skip near left) :
      GoesOver s far pending (skip + 1) (c :: near) left
  | read {c : Char} {pending opened near left : List Char} {extra : Nat}
      (first : step s pending c (near ++ far) = .go opened extra)
      (rest : GoesOver s far opened extra near left) :
      GoesOver s far pending 0 (c :: near) left

/-- Reading backwards halts at a place where no bracket is to be opened. -/
def Halts (s : Surroundings) : List Char → Prop
  | [] => True
  | c :: before => step s [] c before = .stop

/-- An abbreviation goes back over a piece, and further from there. -/
theorem GoesOver.reach (h : GoesOver s far pending skip near left) :
    reach s pending skip (near ++ far)
      = ((reach s left 0 far).1 + near.length, (reach s left 0 far).2) := by
  induction h with
  | done => rfl
  | skip c _ ih =>
    rw [List.cons_append, Extraction.reach, ih]
    rfl
  | read first _ ih =>
    rw [List.cons_append, Extraction.reach, first]
    dsimp only
    rw [ih]
    rfl

theorem Halts.reach (h : Halts s far) : reach s [] 0 far = (0, []) := by
  cases far with
  | nil => rfl
  | cons c before => rw [Extraction.reach, h]

/-- An abbreviation that leaves no bracket to be opened goes back over a piece up to a place where
reading halts. -/
theorem exists_goesOver (hskip : pending = [] → skip = 0)
    (h : reach s pending skip cs = (size, [])) :
    ∃ near far, cs = near ++ far ∧ near.length = size ∧ GoesOver s far pending skip near [] ∧
      Halts s far := by
  induction cs generalizing pending skip size with
  | nil =>
    rw [Extraction.reach] at h
    obtain ⟨rfl, rfl⟩ := Prod.mk.inj h
    obtain rfl := hskip rfl
    exact ⟨[], [], rfl, rfl, .done [], trivial⟩
  | cons c cs ih =>
    cases skip with
    | succ skip =>
      rw [Extraction.reach] at h
      obtain ⟨rfl, hleft⟩ := Prod.mk.inj h
      obtain ⟨near, far, rfl, hsize, hover, hhalts⟩ :=
        ih (fun hp ↦ absurd (hskip hp) (Nat.succ_ne_zero skip)) (Prod.ext rfl hleft)
      exact ⟨c :: near, far, rfl, by simp [hsize], .skip c hover, hhalts⟩
    | zero =>
      rw [Extraction.reach] at h
      split at h
      next hstop =>
        obtain ⟨rfl, rfl⟩ := Prod.mk.inj h
        exact ⟨[], c :: cs, rfl, rfl, .done [], hstop⟩
      next opened extra hgo =>
        obtain ⟨rfl, hleft⟩ := Prod.mk.inj h
        obtain ⟨near, far, rfl, hsize, hover, hhalts⟩ :=
          ih (fun hp ↦ extra_eq_zero (hp ▸ hgo)) (Prod.ext rfl hleft)
        exact ⟨c :: near, far, rfl, by simp [hsize], .read hgo hover, hhalts⟩

/-- **How far back an abbreviation goes.**  It leaves no bracket to be opened when reading backwards
goes over a piece, with none left then, up to a place where it halts. -/
theorem reach_eq_iff :
    reach s [] 0 cs = (size, []) ↔
      ∃ near far, cs = near ++ far ∧ near.length = size ∧ GoesOver s far [] 0 near [] ∧
        Halts s far := by
  constructor
  · exact exists_goesOver fun _ ↦ rfl
  · rintro ⟨near, far, rfl, rfl, hover, hhalts⟩
    rw [hover.reach, hhalts.reach, Nat.zero_add]

/-! ## What is found -/

/-- A text is made of something in front, of operators that cannot begin an abbreviation, and of an
abbreviation: reading backwards from its end goes over the latter two and halts. -/
structure Finds (s : Surroundings) (cs front operators found : List Char) : Prop where
  eq : cs = front ++ (operators ++ found)
  goesOver : GoesOver s front.reverse [] 0 (operators ++ found).reverse []
  halts : Halts s front.reverse
  operators : ∀ c ∈ operators, leadingOperators.contains c = true
  begins : ∀ c ∈ found.head?, leadingOperators.contains c = false
  notBlank : Text.isBlankText found = false

/-- The span of the last characters of a text. -/
def Span.last (cs found : List Char) : Span :=
  ⟨String.ofList found, cs.length - found.length, cs.length⟩

/-- **What is found at the end of a text** is the abbreviation in it. -/
theorem extractEnd_eq_some_iff {span : Span} :
    extractEnd s cs = some span ↔
      ∃ front operators found, Finds s cs front operators found ∧ span = .last cs found := by
  constructor
  · intro h
    rw [extractEnd] at h
    generalize hreach : reach s [] 0 cs.reverse = r at h
    obtain ⟨size, pending⟩ := r
    dsimp only at h
    split at h
    · cases h
    next hpending =>
      obtain rfl : pending = [] := by simpa using hpending
      obtain ⟨near, far, hcs, rfl, hover, hhalts⟩ := reach_eq_iff.1 hreach
      obtain rfl : cs = far.reverse ++ near.reverse := by
        rw [← List.reverse_append, ← hcs, List.reverse_reverse]
      have hdrop : (far.reverse ++ near.reverse).drop
          ((far.reverse ++ near.reverse).length - near.length) = near.reverse := by
        rw [List.length_append, List.length_reverse, List.length_reverse, Nat.add_sub_cancel,
          ← List.length_reverse, List.drop_left]
      have htake := List.takeWhile_append_dropWhile (p := leadingOperators.contains)
        (l := near.reverse)
      rw [hdrop] at h
      split at h
      · cases h
      next hblank =>
        refine ⟨far.reverse, near.reverse.takeWhile leadingOperators.contains,
          near.reverse.dropWhile leadingOperators.contains, ⟨by rw [htake], ?_, ?_, ?_, ?_, ?_⟩,
          (Option.some.inj h).symm⟩
        · rwa [htake, List.reverse_reverse, List.reverse_reverse]
        · rwa [List.reverse_reverse]
        · exact List.all_eq_true.1 List.all_takeWhile
        · intro c hc
          have hhead := List.head?_dropWhile_not leadingOperators.contains near.reverse
          rwa [hc] at hhead
        · simpa using hblank
  · rintro ⟨front, operators, found, h, rfl⟩
    have hreach : reach s [] 0 cs.reverse = ((operators ++ found).length, []) :=
      reach_eq_iff.2 ⟨(operators ++ found).reverse, front.reverse,
        by rw [h.eq, List.reverse_append], List.length_reverse, h.goesOver, h.halts⟩
    have hdrop : cs.drop (cs.length - (operators ++ found).length) = operators ++ found := by
      rw [h.eq, List.length_append, Nat.add_sub_cancel, List.drop_left]
    have hstripped : (operators ++ found).dropWhile leadingOperators.contains = found := by
      rw [List.dropWhile_append_of_pos h.operators]
      cases found with
      | nil => rfl
      | cons c found => exact List.dropWhile_cons_of_neg (by simpa using h.begins c rfl)
    rw [extractEnd, hreach]
    dsimp only
    rw [hdrop, hstripped, h.notBlank]
    rfl

/-! ## Places -/

theorem cursor_le (line : String) (position : Option Int) : cursor line position ≤ line.length := by
  cases position with
  | none => exact Nat.le_refl _
  | some p => exact Nat.min_le_left _ _

theorem length_take_cursor (line : String) (position : Option Int) :
    (line.toList.take (cursor line position)).length = cursor line position := by
  rw [List.length_take, String.length_toList, Nat.min_eq_left (cursor_le line position)]

/-- Without a position the whole line is looked at. -/
theorem extract_none (s : Surroundings) (line : String) :
    extract s line none = extractEnd s line.toList := by
  rw [extract, cursor, ← String.length_toList, List.take_length]

/-- The cursor is the place that is asked for, moved between the start and the end of the line. -/
theorem cursor_eq (line : String) (position : Option Int) :
    (cursor line position : Int)
      = max 0 (min (line.length : Int) (position.getD line.length)) := by
  cases position with
  | none => simp [cursor]
  | some p =>
    simp only [cursor, Option.getD_some]
    omega

/-- A span ends at a place of a text and says where the abbreviation before that place stands. -/
structure Span.Exact (span : Span) (cs : List Char) (place : Nat) : Prop where
  stop : span.stop = place
  start : span.start < span.stop
  stands : (cs.take span.stop).drop span.start = span.abbreviation.toList
  notBlank : Text.isBlankText span.abbreviation.toList = false
  begins : ∀ c ∈ span.abbreviation.toList.head?, c ∉ leadingOperators

/-- An abbreviation is found where it stands. -/
theorem Finds.exact {front operators found : List Char} (h : Finds s cs front operators found) :
    (Span.last cs found).Exact cs cs.length := by
  have hne : found ≠ [] := by
    rintro rfl
    exact absurd h.notBlank (by simp [Text.isBlankText])
  have hlength : cs.length = (front ++ operators).length + found.length := by
    rw [h.eq, ← List.append_assoc, List.length_append]
  refine ⟨rfl, ?_, ?_, by simpa [Span.last] using h.notBlank, ?_⟩
  · have := List.length_pos_iff.2 hne
    simp only [Span.last]
    omega
  · simp only [Span.last, List.take_length, String.toList_ofList]
    rw [hlength, Nat.add_sub_cancel, h.eq, ← List.append_assoc, List.drop_left]
  · simpa [Span.last] using h.begins

/-- A span of a text up to a place is a span of the whole text. -/
theorem Span.Exact.of_take {span : Span} {place : Nat}
    (h : span.Exact (cs.take place) (cs.take place).length) :
    span.Exact cs (cs.take place).length := by
  refine { h with stands := ?_ }
  have hle : span.stop ≤ place := by
    rw [h.stop]
    exact List.length_take_le place cs
  rw [← h.stands, List.take_take, Nat.min_eq_left hle]

theorem exact_of_extract {line : String} {position : Option Int} {span : Span}
    (h : extract s line position = some span) :
    span.Exact line.toList (cursor line position) := by
  obtain ⟨front, operators, found, hfinds, rfl⟩ := extractEnd_eq_some_iff.1 h
  have hexact := hfinds.exact.of_take
  rwa [length_take_cursor] at hexact

/-- **Spans are exact and local.**  Only the text before the cursor counts, wherever the cursor is
asked to be, and a span ends at the cursor and holds the abbreviation that stands there. -/
theorem extract_exact (s : Surroundings) (line : String) (position : Option Int) :
    (cursor line position : Int) = max 0 (min (line.length : Int) (position.getD line.length)) ∧
      extract s line position
        = extract s (String.ofList (line.toList.take (cursor line position))) none ∧
      ∀ span, extract s line position = some span →
        span.Exact line.toList (cursor line position) := by
  refine ⟨cursor_eq line position, ?_, fun span ↦ exact_of_extract⟩
  have hwhole : cursor (String.ofList (line.toList.take (cursor line position))) none
      = cursor line position := by
    rw [cursor, ← String.length_toList, String.toList_ofList, length_take_cursor]
  rw [extract, extract, hwhole, String.toList_ofList, List.take_take, Nat.min_self]

/-- An item of a list after an HTML tag and an operator, with more text behind the cursor. -/
theorem extract_exact_item :
    extract .markup "<p>+li.a*2 x" (some 10) = some ⟨"li.a*2", 4, 10⟩ ∧
      (⟨"li.a*2", 4, 10⟩ : Span).Exact "<p>+li.a*2 x".toList 10 := by
  have hfound : extract .markup "<p>+li.a*2 x" (some 10) = some ⟨"li.a*2", 4, 10⟩ := by
    decide +kernel
  exact ⟨hfound, (extract_exact .markup "<p>+li.a*2 x" (some 10)).2.2 _ hfound⟩

end Shorthand.Extraction
