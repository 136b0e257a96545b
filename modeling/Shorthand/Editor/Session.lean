import Shorthand.Editor.Provider

/-!
# Sessions

A session is what the server remembers of an editor: its documents, its settings, and what it said
about itself.  Everything that happens in it is an `Event`, which leads to a new session and a
`Reply`.  Questions are events too, but they never change the session: `Session.answer` gives the
reply alone.

The documents of a session stand for all that the workspace can give, be it open in the editor or a
file on a disk.  Asked for any other one, the workspace raises something in words of its own
(`Session.missing`); what a client raises when it is asked for its settings comes with its answer.

Settings reach the session on four ways: with the introduction of the client, with a notice of their
change, as the client's answer when it is asked for them, and directly.  Whichever way they come,
`Session.accept` takes them whole, so that nothing is left of the settings before.

* `Session.accept` : the session under new settings.
* `Session.answer` : the reply to a question.
* `Session.step`, `Session.run` : what an event does, and what a row of events does.
* `Session.run_append` : a run goes on from where the events before it led.
* `Session.run_queries` : questions leave a session as it is.
-/

set_option autoImplicit false

namespace Shorthand.Editor

/-- What a client says that it can do. -/
structure Client where
  /-- It answers when it is asked for its settings. -/
  givesSettings : Bool := false
  /-- It tells about changes of its settings when it is asked to. -/
  tellsChanges : Bool := false
  deriving DecidableEq, Inhabited

/-- The client's answer when it is asked for its settings: a payload for each section asked for, or
what was raised instead, by its kind and in its own words. -/
abbrev SettingsAnswer := Except String (List Json)

/-- A question to the server. -/
inductive Query where
  /-- Which completions are there? -/
  | completion (request : Request)
  /-- Which completions does the expansion of abbreviations contribute? -/
  | expansion (request : Request)
  /-- Which item is there for a place in a line? -/
  | item (language : Option String) (line : String) (place : Place)
  /-- What is there to fill in an item? -/
  | resolve (item : Item)
  deriving Inhabited

/-- Something that happens in a session. -/
inductive Event where
  /-- The client introduces itself and may bring settings along. -/
  | introduced (client : Client) (payload : Json)
  /-- The client is ready: it may be asked to tell about changes, which it does unless it gives a
  reason, and for its settings. -/
  | started (refusal : Option String) (answer : SettingsAnswer)
  /-- The client says that its settings have changed. -/
  | changed (payload : Json) (answer : SettingsAnswer)
  /-- The client is asked for its settings. -/
  | asked (answer : SettingsAnswer)
  /-- Settings are given directly. -/
  | given (payload : Json)
  /-- A document is opened, or replaced. -/
  | opened (uri : String) (document : Document)
  | query (query : Query)
  deriving Inhabited

/-- An answer of the server. -/
inductive Answer where
  | none
  | client (client : Client)
  | completions (completions : Completions)
  | item (item : Option Item)
  deriving Inhabited

/-- What comes back for an event. -/
structure Reply where
  outcome : Except Trouble Answer
  messages : List Message := []
  deriving Inhabited

/-- What the server remembers of an editor. -/
structure Session where
  settings : Table Json := []
  /-- The documents that the workspace can give. -/
  documents : Table Document := []
  /-- What the workspace raises, in words, when it is asked for a document that it cannot give.  The
  words are its own; by default they name the document. -/
  missing : String → String := fun uri ↦ "no document " ++ uri
  client : Client := {}
  /-- Has the client introduced itself? -/
  isReady : Bool := false
  deriving Inhabited

namespace Session

/-! ## Settings -/

/-- The settings in a payload: the section meant for expansion if the payload has one, else the
whole payload.  There are none in a payload that is no object. -/
def settingsIn? (payload : Json) : Option (Table Json) :=
  match payload.member? settingsSection with
  | some (.object settings) => some settings
  | _ => payload.members?

/-- The session under the settings of a payload; no payload changes nothing. -/
def accept (s : Session) (payload : Json) : Session × List Message :=
  match payload with
  | .null => (s, [])
  | payload =>
    match settingsIn? payload with
    | some settings => ({ s with settings }, [.report (.loaded settings.length)])
    | none => ({ s with settings := [] }, [.report (.malformedSettings payload)])

/-- The session after the client was asked for its settings: of its answer the first payload
counts. -/
def ask (s : Session) (answer : SettingsAnswer) : Session × List Message :=
  match answer with
  | .ok (payload :: _) =>
    let (s, messages) := s.accept payload
    (s, .askForSettings :: messages)
  | .ok [] => (s, [.askForSettings])
  | .error reason => (s, [.askForSettings, .report (.notLoaded reason)])

/-! ## Questions -/

/-- The contribution of the expansion of abbreviations. -/
def expansionAt (s : Session) (r : Request) : List Report × Except Trouble Completions :=
  match s.documents.get? r.uri with
  | none => ([], .error (.noDocument (s.missing r.uri)))
  | some document =>
    match document.line? r.place.line with
    | none => ([], .ok {})
    | some line =>
      match itemAt s.settings document.language line r.place with
      | (reports, .ok item) => (reports, .ok { isIncomplete := true, items := item.toList })
      | (reports, .error failure) =>
        (reports ++ [.notExpanded failure], .ok { isIncomplete := true })

/-- The expansion of abbreviations as a provider: lines that there are are its business. -/
def abbreviations (s : Session) : Provider where
  handles r :=
    match s.documents.get? r.uri with
    | none => .error (.noDocument (s.missing r.uri))
    | some document => .ok (document.line? r.place.line).isSome
  complete := s.expansionAt
  resolve item := .ok item.resolved

/-- The providers of a session; there are none before the client has introduced itself. -/
def providers (s : Session) : Table Provider :=
  if s.isReady then [("abbreviation_completion", s.abbreviations)] else []

/-- A reply with reports. -/
def reporting (reports : List Report) (outcome : Except Trouble Answer) : Reply where
  outcome
  messages := reports.map .report

/-- The reply to a question. -/
def answer (s : Session) : Query → Reply
  | .completion r =>
    let (reports, completions) := Provider.completeAll s.providers r
    reporting reports (.ok (.completions completions))
  | .expansion r =>
    let (reports, outcome) := s.expansionAt r
    reporting reports (outcome.map .completions)
  | .item language line place =>
    let (reports, outcome) := itemAt s.settings language line place
    reporting reports ((outcome.mapError .failure).map .item)
  | .resolve item =>
    let (reports, item) := Provider.resolveAll s.providers item
    reporting reports (.ok (.item (some item)))

/-! ## Events -/

/-- What an event leads to. -/
def step (s : Session) : Event → Session × Reply
  | .introduced client payload =>
    let (s, messages) := { s with client }.accept payload
    ({ s with isReady := true }, ⟨.ok (.client client), messages ++ [.report .ready]⟩)
  | .started refusal answer =>
    let registration : List Message :=
      if s.client.tellsChanges then
        .askForChanges :: (refusal.map fun reason ↦ .report (.notRegistered reason)).toList
      else []
    let (s, messages) := if s.client.givesSettings then s.ask answer else (s, [])
    (s, ⟨.ok .none, registration ++ messages⟩)
  | .changed payload answer =>
    let (s, messages) := if s.client.givesSettings then s.ask answer else s.accept payload
    (s, ⟨.ok .none, messages⟩)
  | .asked answer =>
    let (s, messages) := s.ask answer
    (s, ⟨.ok .none, messages⟩)
  | .given payload =>
    let (s, messages) := s.accept payload
    (s, ⟨.ok .none, messages⟩)
  | .opened uri document =>
    ({ s with documents := s.documents.put uri document }, ⟨.ok .none, []⟩)
  | .query query => (s, s.answer query)

/-- What a row of events leads to: the session at the end, and the reply to each event with the
session after it. -/
def run (s : Session) : List Event → Session × List (Reply × Session)
  | [] => (s, [])
  | event :: events =>
    let (next, reply) := s.step event
    let (last, replies) := run next events
    (last, (reply, next) :: replies)

@[simp] theorem run_nil (s : Session) : s.run [] = (s, []) := rfl

theorem run_cons (s : Session) (event : Event) (events : List Event) :
    s.run (event :: events) =
      (((s.step event).1.run events).1,
        ((s.step event).2, (s.step event).1) :: ((s.step event).1.run events).2) := rfl

/-- A run goes on from where the events before it led. -/
theorem run_append (s : Session) (xs ys : List Event) :
    s.run (xs ++ ys) =
      (((s.run xs).1.run ys).1, (s.run xs).2 ++ ((s.run xs).1.run ys).2) := by
  induction xs generalizing s with
  | nil => rfl
  | cons x xs ih => rw [List.cons_append, run_cons, ih, run_cons]; rfl

@[simp] theorem step_query (s : Session) (q : Query) : s.step (.query q) = (s, s.answer q) := rfl

/-- Questions leave a session as it is. -/
theorem run_queries (s : Session) (qs : List Query) :
    s.run (qs.map .query) = (s, qs.map fun q ↦ (s.answer q, s)) := by
  induction qs with
  | nil => rfl
  | cons q qs ih => rw [List.map_cons, run_cons, step_query, ih]; rfl

end Session

end Shorthand.Editor
