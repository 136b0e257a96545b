import Shorthand.Editor.Session

/-!
# Questions do no harm

A client asks for completions while its user types, and so at any time: before it has introduced
itself, about documents that are not open and places that there are not, and under settings that
make no sense.  It always gets an answer, with one item at most, and the session goes on as if it
had not asked.

* `Session.offered?` : the item that there is for a request.
* `Session.completion_items` : the items in the answer to a request.
* `Session.run_kept` : without some of its questions a run is the same run, less their replies.
* `Session.completion_harmless` : requests for completions are answered and do no harm.
-/

set_option autoImplicit false

namespace Shorthand.Editor.Session

/-! ## The answer -/

/-- The item that there is for a request: the document is open, the line is there, and an expansion
is found in it. -/
def offered? (s : Session) (r : Request) : Option Item :=
  (s.documents.get? r.uri).bind fun document ↦
    (document.line? r.place.line).bind fun line ↦
      (itemAt s.settings document.language line r.place).2.toOption.join

/-- A provider that fails contributes nothing, so that what counts is the item alone. -/
theorem contribution_items (s : Session) (name : String) (r : Request) :
    (s.abbreviations.contribution name r).2.items = (s.offered? r).toList := by
  rw [Provider.contribution, offered?]
  cases hdocument : s.documents.get? r.uri with
  | none => simp [abbreviations, hdocument]
  | some document =>
    cases hline : document.line? r.place.line with
    | none => simp [abbreviations, hdocument, hline]
    | some line =>
      simp only [abbreviations, expansionAt, hdocument, hline, Option.isSome_some,
        Option.bind_some]
      obtain ⟨reports, _ | item⟩ := itemAt s.settings document.language line r.place
      · rfl
      · rfl

/-- The items in the answer to a request: none before the client has introduced itself, and then the
one that there is. -/
theorem completion_items (s : Session) (r : Request) :
    (Provider.completeAll s.providers r).2.items
      = if s.isReady then (s.offered? r).toList else [] := by
  rw [providers]
  cases s.isReady with
  | false => rfl
  | true => exact (List.append_nil _).trans (s.contribution_items _ r)

theorem items_of_outcome {s : Session} {r : Request} {completions : Completions}
    (h : (s.step (.query (.completion r))).2.outcome = .ok (.completions completions)) :
    completions.items = if s.isReady then (s.offered? r).toList else [] := by
  obtain rfl : (Provider.completeAll s.providers r).2 = completions :=
    Answer.completions.inj (Except.ok.inj h)
  exact s.completion_items r

/-! ## Runs without some of the questions -/

/-- What is kept of a row: the items that are marked so. -/
def kept {α : Type} (xs : List α) (marks : List Bool) : List α :=
  ((xs.zip marks).filter (·.2)).map (·.1)

@[simp] theorem kept_cons_true {α : Type} (x : α) (xs : List α) (marks : List Bool) :
    kept (x :: xs) (true :: marks) = x :: kept xs marks := rfl

@[simp] theorem kept_cons_false {α : Type} (x : α) (xs : List α) (marks : List Bool) :
    kept (x :: xs) (false :: marks) = kept xs marks := rfl

/-- Without some of its questions a run leads to the same session, and each event that is kept has
the same reply and the same session after it. -/
theorem run_kept (s : Session) {events : List Event} {marks : List Bool}
    (hlength : marks.length = events.length)
    (hmarks : ∀ p ∈ events.zip marks, p.2 = false → ∃ q, p.1 = .query q) :
    s.run (kept events marks) = ((s.run events).1, kept (s.run events).2 marks) := by
  induction events generalizing s marks with
  | nil => rfl
  | cons event events ih =>
    obtain _ | ⟨mark, marks⟩ := marks
    · cases hlength
    rw [List.zip_cons_cons, List.forall_mem_cons] at hmarks
    have hrest := fun s : Session ↦ ih s (Nat.succ.inj hlength) hmarks.2
    cases mark with
    | true => rw [kept_cons_true, run_cons, run_cons, hrest, kept_cons_true]
    | false =>
      -- the session after a question is the one before it
      obtain ⟨q, rfl⟩ := hmarks.1 rfl
      rw [kept_cons_false, run_cons, step_query, hrest, kept_cons_false]

/-- **Requests for completions do no harm.**  In whatever state a session is, a request is answered
with at most one item and leaves the session as it is.  So any of the questions may be left out of a
run, and the results, messages and sessions of all other events stay the same. -/
theorem completion_harmless (s : Session) :
    (∀ r, ∃ completions,
      (s.step (.query (.completion r))).2.outcome = .ok (.completions completions) ∧
      completions.items.length ≤ 1 ∧ (s.step (.query (.completion r))).1 = s) ∧
    ∀ (events : List Event) (marks : List Bool), marks.length = events.length →
      (∀ p ∈ events.zip marks, p.2 = false → ∃ q, p.1 = .query q) →
      s.run (kept events marks) = ((s.run events).1, kept (s.run events).2 marks) := by
  refine ⟨fun r ↦ ⟨(Provider.completeAll s.providers r).2, rfl, ?_, rfl⟩,
    fun _ _ ↦ s.run_kept⟩
  rw [completion_items]
  split
  · exact Option.length_toList_le
  · exact Nat.zero_le 1

/-- A client asks for completions in a document that it has opened, and in one that it has not. -/
def typing : List Event :=
  [.introduced {} .null, .opened "a.html" ⟨["p"], some "html"⟩,
    .query (.completion ⟨"a.html", ⟨0, 1⟩⟩), .given (.object [("x", .null)]),
    .query (.completion ⟨"b.html", ⟨0, 0⟩⟩)]

/-- The session of `typing` when the first request comes. -/
def beforeTyping : Session := (run {} (typing.take 2)).1

/-- The first request is answered with one item, and the settings are given as if it had not
come. -/
theorem typing_kept :
    (∃ completions,
        (beforeTyping.step (.query (.completion ⟨"a.html", ⟨0, 1⟩⟩))).2.outcome
          = .ok (.completions completions) ∧
        completions.items.length ≤ 1 ∧
        completions.items.map (·.documentation) = [some "<p>$\x7b1\x7d</p>"]) ∧
      [true, true, false, true, true].length = typing.length ∧
      (∀ p ∈ typing.zip [true, true, false, true, true], p.2 = false → ∃ q, p.1 = .query q) ∧
      run {} [.introduced {} .null, .opened "a.html" ⟨["p"], some "html"⟩,
          .given (.object [("x", .null)]), .query (.completion ⟨"b.html", ⟨0, 0⟩⟩)]
        = ((run {} typing).1, kept (run {} typing).2 [true, true, false, true, true]) ∧
      (run {} typing).1.settings = [("x", .null)] := by
  obtain ⟨completions, hanswer, hone, -⟩ := (completion_harmless beforeTyping).1 ⟨"a.html", ⟨0, 1⟩⟩
  have hitems : completions.items = (beforeTyping.offered? ⟨"a.html", ⟨0, 1⟩⟩).toList :=
    (items_of_outcome hanswer).trans (if_pos rfl)
  have hoffered : (beforeTyping.offered? ⟨"a.html", ⟨0, 1⟩⟩).map (·.documentation)
      = some (some "<p>$\x7b1\x7d</p>") := by decide +kernel
  have hmarks : ∀ p ∈ typing.zip [true, true, false, true, true],
      p.2 = false → ∃ q, p.1 = .query q := by
    simp [typing]
  refine ⟨⟨completions, hanswer, hone, ?_⟩, rfl, hmarks,
    (completion_harmless {}).2 typing _ rfl hmarks, rfl⟩
  rw [hitems, ← Option.toList_map, hoffered]
  rfl

end Shorthand.Editor.Session
