import Shorthand.Failure

/-!
# When a computation succeeds, and when it fails

A pass that may fail is a chain of steps.  It succeeds when each of them does, and it fails as the
first of them that fails.

* `bind_eq_ok_iff`, `map_eq_ok_iff` : a chain succeeds when its parts do.
* `located_eq_ok_iff` : to say in which text a fault happened makes no difference to a success.
* `mapM_eq_some_iff` : a reader of the members of a list, as the members are written.
* `bind_eq_error_iff`, `map_eq_error_iff`, `located_eq_error_iff` : the same for failures.
* `failure?_bind` : where a later step fails in one way only, the chain fails as the first step or
  else in that way.
-/

set_option autoImplicit false

namespace Shorthand

variable {ε α β : Type}

theorem bind_eq_ok_iff {x : Except ε α} {f : α → Except ε β} {b : β} :
    x >>= f = .ok b ↔ ∃ a, x = .ok a ∧ f a = .ok b := by
  cases x <;> simp [bind, Except.bind]

theorem map_eq_ok_iff {x : Except ε α} {f : α → β} {b : β} :
    x.map f = .ok b ↔ ∃ a, x = .ok a ∧ f a = b := by
  cases x <;> simp [Except.map]

theorem located_eq_ok_iff {s : String} {x : Except Fault α} {a : α} :
    Fault.located s x = .ok a ↔ x = .ok a := by
  cases x with
  | error e => exact iff_of_false (fun h ↦ by cases h) fun h ↦ by cases h
  | ok b =>
    constructor <;> intro h
    · exact congrArg Except.ok (Except.ok.inj h)
    · exact congrArg Except.ok (Except.ok.inj h)

/-- Where each member is read from one thing only, a list is read from the list of these things. -/
theorem mapM_eq_some_iff {f : α → Option β} {g : β → α} (h : ∀ a b, f a = some b ↔ a = g b)
    {as : List α} {bs : List β} : as.mapM f = some bs ↔ as = bs.map g := by
  induction as generalizing bs with
  | nil => cases bs <;> simp
  | cons a as ih =>
    rw [List.mapM_cons, Option.bind_eq_bind, Option.bind_eq_some_iff]
    constructor
    · rintro ⟨b, hb, hbs⟩
      obtain ⟨bs, hmore, hpure⟩ := Option.bind_eq_some_iff.1 hbs
      obtain rfl := Option.some.inj hpure
      rw [(h a b).1 hb, ih.1 hmore, List.map_cons]
    · intro hlist
      obtain ⟨b, bs, rfl, hb, hbs⟩ := List.map_eq_cons_iff.1 hlist.symm
      exact ⟨b, (h a b).2 hb.symm, Option.bind_eq_some_iff.2 ⟨bs, ih.2 hbs.symm, rfl⟩⟩

theorem bind_eq_error_iff {x : Except ε α} {f : α → Except ε β} {e : ε} :
    x >>= f = .error e ↔ x = .error e ∨ ∃ a, x = .ok a ∧ f a = .error e := by
  cases x <;> simp [bind, Except.bind]

theorem map_eq_error_iff {x : Except ε α} {f : α → β} {e : ε} :
    x.map f = .error e ↔ x = .error e := by
  cases x <;> simp [Except.map]

theorem located_eq_error_iff {s : String} {x : Except Fault α} {e : Failure} :
    Fault.located s x = .error e ↔ ∃ fault, x = .error fault ∧ fault.inText s = e := by
  cases x with
  | error fault =>
    constructor
    · intro h
      exact ⟨fault, rfl, Except.error.inj h⟩
    · rintro ⟨_, h, rfl⟩
      exact congrArg (fun fault ↦ Except.error (Fault.inText s fault)) (Except.error.inj h)
  | ok a =>
    constructor
    · intro h
      cases h
    · rintro ⟨_, h, -⟩
      cases h

/-! ## The failure alone -/

/-- How a computation fails, if it does. -/
def failure? : Except ε α → Option ε
  | .ok _ => none
  | .error e => some e

theorem failure?_eq_some_iff {x : Except ε α} {e : ε} : failure? x = some e ↔ x = .error e := by
  cases x <;> simp [failure?]

/-- Where a later step fails in one way only, whatever came before, a chain fails as its first step
or else in that way. -/
theorem failure?_bind {x : Except ε α} {f : α → Except ε β} {e? : Option ε}
    (h : ∀ a, x = .ok a → failure? (f a) = e?) : failure? (x >>= f) = (failure? x).or e? := by
  cases x with
  | error e => rfl
  | ok a => exact h a rfl

/-- Steps that cannot fail are no part of how a chain fails. -/
theorem failure?_bind_of_ok {x : Except ε α} {f : α → Except ε β}
    (h : ∀ a, x = .ok a → failure? (f a) = none) : failure? (x >>= f) = failure? x :=
  (failure?_bind h).trans Option.or_none

theorem failure?_map {x : Except ε α} {f : α → β} : failure? (x.map f) = failure? x := by
  cases x <;> rfl

theorem failure?_located {s : String} {x : Except Fault α} :
    failure? (Fault.located s x) = (failure? x).map (Fault.inText s) := by
  cases x <;> rfl

end Shorthand
