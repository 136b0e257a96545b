import Shorthand.Editor.Session

/-!
# Which settings a session has

Settings come to a session in payloads: when the client introduces itself, when it says that they
have changed, when it is asked for them, or directly.  What comes with a notice of change counts
only for a client that does not answer when it is asked.  Whatever the way, a payload is taken
whole: the session has the settings of the last payload that was delivered, and nothing is left of
those before.

* `Event.payload?` : the payload that an event delivers.
* `delivered` : the payloads that a row of events delivers.
* `Session.step_fst` : an event is heard, and the payload that it delivers is taken.
* `Session.run_settings` : the settings after a run are those of the last payload.
* `Session.settings_last_payload` : what these are, and what changes nothing.
-/

set_option autoImplicit false

namespace Shorthand.Editor

/-! ## Payloads -/

/-- A payload that says nothing is none. -/
def present? : Json → Option Json
  | .null => none
  | payload => some payload

/-- The payload in an answer: the first one counts. -/
def SettingsAnswer.payload? : SettingsAnswer → Option Json
  | .ok (payload :: _) => present? payload
  | .ok [] => none
  | .error _ => none

/-- The payload that an event delivers to a session with a client.  If the client gives its
settings, it is asked for them when it is ready and at each change, and what it sends along with a
change does not count. -/
def Event.payload? (client : Client) : Event → Option Json
  | .introduced _ payload => present? payload
  | .started _ answer => if client.givesSettings then answer.payload? else none
  | .changed payload answer =>
    if client.givesSettings then answer.payload? else present? payload
  | .asked answer => answer.payload?
  | .given payload => present? payload
  | .opened _ _ => none
  | .query _ => none

/-- The client after an event. -/
def Event.client (client : Client) : Event → Client
  | .introduced client _ => client
  | _ => client

/-- The payloads that a row of events delivers, where the client may introduce itself anew. -/
def delivered (client : Client) : List Event → List Json
  | [] => []
  | event :: events =>
    (event.payload? client).toList ++ delivered (event.client client) events

namespace Session

/-- The settings that a payload brings. -/
def settingsOf (payload : Json) : Table Json := (settingsIn? payload).getD []

/-- The session under the settings of a payload, if there is one. -/
def taking (s : Session) : Option Json → Session
  | none => s
  | some payload => { s with settings := settingsOf payload }

@[simp] theorem taking_none (s : Session) : s.taking none = s := rfl

@[simp] theorem taking_client (s : Session) (payload? : Option Json) :
    (s.taking payload?).client = s.client := by
  cases payload? <;> rfl

@[simp] theorem taking_settings (s : Session) (payload? : Option Json) :
    (s.taking payload?).settings = (payload?.map settingsOf).getD s.settings := by
  cases payload? <;> rfl

/-! ## What an event does -/

theorem accept_fst (s : Session) (payload : Json) :
    (s.accept payload).1 = s.taking (present? payload) := by
  cases payload with
  | object members =>
    simp only [accept, present?, taking, settingsOf]
    cases settingsIn? (.object members) <;> rfl
  | _ => rfl

theorem ask_fst (s : Session) (answer : SettingsAnswer) :
    (s.ask answer).1 = s.taking answer.payload? := by
  match answer with
  | .ok [] => rfl
  | .ok (payload :: _) => exact s.accept_fst payload
  | .error _ => rfl

/-- What an event does, whatever it says about settings. -/
def heard (s : Session) : Event → Session
  | .introduced client _ => { s with client, isReady := true }
  | .opened uri document => { s with documents := s.documents.put uri document }
  | _ => s

theorem heard_client (s : Session) (event : Event) :
    (s.heard event).client = event.client s.client := by
  cases event <;> rfl

theorem heard_settings (s : Session) (event : Event) :
    (s.heard event).settings = s.settings := by
  cases event <;> rfl

/-- An event is heard, and the payload that it delivers is taken. -/
theorem step_fst (s : Session) (event : Event) :
    (s.step event).1 = (s.heard event).taking (event.payload? s.client) := by
  cases event with
  | introduced client payload =>
    have haccept := accept_fst { s with client } payload
    rw [step, Event.payload?, heard]
    dsimp only
    rw [haccept]
    cases present? payload <;> rfl
  | started refusal answer =>
    rw [step, Event.payload?]
    cases s.client.givesSettings with
    | true => exact s.ask_fst answer
    | false => rfl
  | changed payload answer =>
    rw [step, Event.payload?]
    cases s.client.givesSettings with
    | true => exact s.ask_fst answer
    | false => exact s.accept_fst payload
  | asked answer => exact s.ask_fst answer
  | given payload => exact s.accept_fst payload
  | opened uri document => rfl
  | query q => rfl

theorem step_client (s : Session) (event : Event) :
    (s.step event).1.client = event.client s.client := by
  rw [step_fst, taking_client, heard_client]

/-- An event that delivers a payload brings its settings, and any other one leaves those that there
are. -/
theorem step_settings (s : Session) (event : Event) :
    (s.step event).1.settings
      = ((event.payload? s.client).map settingsOf).getD s.settings := by
  rw [step_fst, taking_settings, heard_settings]

theorem step_of_payload?_eq_none {s : Session} {event : Event}
    (h : event.payload? s.client = none) : (s.step event).1 = s.heard event := by
  rw [step_fst, h, taking_none]

/-! ## Runs -/

/-- The settings after a run are those of the last payload, if any was delivered. -/
theorem run_settings (s : Session) (events : List Event) :
    (s.run events).1.settings
      = (((delivered s.client events).getLast?).map settingsOf).getD s.settings := by
  induction events generalizing s with
  | nil => rfl
  | cons event events ih =>
    rw [run_cons, delivered, ih, step_client, step_settings, List.getLast?_append]
    cases (delivered (event.client s.client) events).getLast? with
    | some payload => rfl
    | none => cases event.payload? s.client <;> rfl

/-! ## What the settings are -/

/-- An object may have a section for expansion, which is then all that counts. -/
theorem settingsOf_section {members inner : Table Json}
    (h : members.get? settingsSection = some (.object inner)) :
    settingsOf (.object members) = inner := by
  rw [settingsOf, settingsIn?, Json.member?, h, Option.getD_some]

/-- An object without such a section counts whole. -/
theorem settingsOf_members {members : Table Json}
    (h : ∀ inner, members.get? settingsSection ≠ some (.object inner)) :
    settingsOf (.object members) = members := by
  rw [settingsOf, settingsIn?, Json.member?]
  split
  next inner hinner => exact absurd hinner (h inner)
  · rfl

/-- What is no object brings no settings. -/
theorem settingsOf_of_ne_object {payload : Json} (h : ∀ members, payload ≠ .object members) :
    settingsOf payload = [] := by
  cases payload with
  | object members => exact absurd rfl (h members)
  | _ => rfl

/-- **The settings are the last payload, whole.**  After any run there are no settings if no payload
was delivered.  Else they are those of the last payload alone: its section for expansion if it is an
object that has one, all of it if it is another object, and none if it is no object.  A failed or
empty answer changes nothing, and neither does a refusal to tell about changes; what a client that
gives its settings sends along with a change makes no difference. -/
theorem settings_last_payload (events : List Event) :
    (delivered {} events = [] → (run {} events).1.settings = []) ∧
      (∀ earlier payload, delivered {} events = earlier ++ [payload] →
        (∀ members inner : Table Json, payload = .object members →
          members.get? settingsSection = some (.object inner) →
          (run {} events).1.settings = inner) ∧
        (∀ members : Table Json, payload = .object members →
          (∀ inner, members.get? settingsSection ≠ some (.object inner)) →
          (run {} events).1.settings = members) ∧
        ((∀ members, payload ≠ .object members) → (run {} events).1.settings = [])) ∧
      ∀ s : Session,
        (∀ answer : SettingsAnswer, answer = .ok [] ∨ (∃ reason, answer = .error reason) →
          (s.step (.asked answer)).1 = s ∧ (∀ refusal, (s.step (.started refusal answer)).1 = s) ∧
          (s.client.givesSettings = true → ∀ payload, (s.step (.changed payload answer)).1 = s)) ∧
        (∀ refusal answer,
          (s.step (.started refusal answer)).1 = (s.step (.started none answer)).1) ∧
        (s.client.givesSettings = true → ∀ payload other answer,
          s.step (.changed payload answer) = s.step (.changed other answer)) := by
  refine ⟨fun hnone ↦ ?_, fun earlier payload hlast ↦ ?_,
    fun s ↦ ⟨fun answer hanswer ↦ ?_, ?_, ?_⟩⟩
  · rw [run_settings, hnone]
    rfl
  · have hsettings : (run {} events).1.settings = settingsOf payload := by
      rw [run_settings, hlast, List.getLast?_concat, Option.map_some, Option.getD_some]
    rw [hsettings]
    refine ⟨?_, ?_, settingsOf_of_ne_object⟩
    · rintro members inner rfl hinner
      exact settingsOf_section hinner
    · rintro members rfl hmembers
      exact settingsOf_members hmembers
  · have hpayload : answer.payload? = none := by
      obtain rfl | ⟨reason, rfl⟩ := hanswer <;> rfl
    refine ⟨step_of_payload?_eq_none hpayload, fun refusal ↦ step_of_payload?_eq_none ?_,
      fun hclient payload ↦ step_of_payload?_eq_none ?_⟩
    · rw [Event.payload?, hpayload, ite_self]
    · rw [Event.payload?, if_pos hclient, hpayload]
  · intro refusal answer
    rw [step_fst, step_fst]
    rfl
  · intro hclient payload other answer
    rw [step, step, if_pos hclient, if_pos hclient]

/-- A client brings settings along, gives others when it is asked, and then fails to answer. -/
def pulling : List Event :=
  [.introduced ⟨true, true⟩ (.object [("x", .bool true)]),
    .started (some "no") (.ok [.object [("emmet", .object [("y", .null)]), ("z", .null)]]),
    .changed (.object [("x", .null)]) (.error "gone")]

/-- What it has given when it was asked is all that is left. -/
theorem settings_pulling :
    delivered {} pulling = [.object [("x", .bool true)]]
        ++ [.object [("emmet", .object [("y", .null)]), ("z", .null)]] ∧
      (run {} pulling).1.settings = [("y", .null)] ∧
      (run {} pulling).1.client.givesSettings = true ∧
      ((run {} pulling).1.step (.changed (.integer 3) (.ok []))).1 = (run {} pulling).1 :=
  ⟨rfl, ((settings_last_payload pulling).2.1 _ _ rfl).1 _ _ rfl rfl, rfl,
    (((settings_last_payload pulling).2.2 _).1 _ (.inl rfl)).2.2 rfl _⟩

end Session

end Shorthand.Editor
