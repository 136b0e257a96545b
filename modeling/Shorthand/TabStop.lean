import Shorthand.Value

/-!
# The numbers of the tab stops

In the output the tab stops are numbered 1, 2, 3 in the order in which they are written.  An empty
place gets a number of its own; fields of equal index and scope share one; index 0 is the last stop
of the editor and stays 0.  `TabStops` is what has been given out so far.

* `TabStops.auto` : the number of a stop that mirrors no other.
* `TabStops.explicit` : the number of a field.
-/

set_option autoImplicit false

namespace Shorthand

/-- The numbers given out so far: the next one, and those of the fields met, latest first. -/
structure TabStops where
  next : Nat := 1
  known : List ((Nat × Nat) × Nat) := []
  deriving DecidableEq, Inhabited

namespace TabStops

/-- A number for a stop of its own. -/
def auto (t : TabStops) : Nat × TabStops := (t.next, { t with next := t.next + 1 })

/-- The number of a field: the one it got before, else the next one, except that index 0 is 0. -/
def explicit (t : TabStops) (index scope : Nat) : Nat × TabStops :=
  if index = 0 then (0, t)
  else
    match t.known.lookup (scope, index) with
    | some number => (number, t)
    | none => (t.next, ⟨t.next + 1, ((scope, index), t.next) :: t.known⟩)

@[simp] theorem explicit_zero (t : TabStops) (scope : Nat) : t.explicit 0 scope = (0, t) := rfl

/-- A field keeps the number that it got. -/
theorem explicit_explicit (t : TabStops) (index scope : Nat) :
    (t.explicit index scope).2.explicit index scope = t.explicit index scope := by
  by_cases h : index = 0
  · subst h; rfl
  · cases hk : t.known.lookup (scope, index) <;> simp [explicit, h, hk]

/-- Numbers only grow. -/
theorem next_le_explicit (t : TabStops) (index scope : Nat) :
    t.next ≤ (t.explicit index scope).2.next := by
  rw [explicit]
  split
  · exact Nat.le_refl _
  · split
    · exact Nat.le_refl _
    · exact Nat.le_succ _

end TabStops

end Shorthand
