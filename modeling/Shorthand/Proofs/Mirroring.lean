import Shorthand.Proofs.Marks

/-!
# Which tab stops are one

The number of a tab stop depends on all that was written before it.  But two outputs with the same
marks have the same numbers exactly when their fields are one stop in the same places, that is, when
some pairing of their scopes mirrors.

* `TabStops.Sound` : what is known of the numbers given out.
* `Mark.segments_eq_of_paired` : paired marks get the same numbers.
* `Mark.exists_mirrors` : marks that get the same numbers are paired.
* `Html.segments_eq_iff` : the output of trees of one shape.
* `Html.segments_eq_of_render` : to look the same however stops are written is to have the same
  numbers.
-/

set_option autoImplicit false

namespace Shorthand

open Markup

/-! ## Numbers -/

namespace TabStops

/-- Numbers are below the next one, and no two fields that are not mirrored have the same. -/
structure Sound (t : TabStops) : Prop where
  below : ∀ key number, t.known.lookup key = some number → number < t.next
  inj : ∀ key key' number, t.known.lookup key = some number → t.known.lookup key' = some number →
    key = key'

/-- Stops after more have been numbered. -/
def Extends (t u : TabStops) : Prop :=
  ∀ key number, t.known.lookup key = some number → u.known.lookup key = some number

theorem sound_empty : Sound {} where
  below _ _ h := by simp at h
  inj _ _ _ h := by simp at h

theorem lookup_cons_key (key : Nat × Nat) (number : Nat) (known : List ((Nat × Nat) × Nat))
    (key' : Nat × Nat) :
    ((key, number) :: known).lookup key'
      = if key' = key then some number else known.lookup key' := by
  rw [List.lookup_cons]
  by_cases h : key' = key
  · simp [h]
  · simp [h, beq_false_of_ne h]

theorem Sound.auto {t : TabStops} (h : t.Sound) : t.auto.2.Sound where
  below key number hk := Nat.lt_succ_of_lt (h.below key number hk)
  inj := h.inj

/-- A field whose index is not 0 has the number under which it is known. -/
theorem Sound.explicit {t : TabStops} (h : t.Sound) (index scope : Nat) :
    (t.explicit index scope).2.Sound ∧ t.Extends (t.explicit index scope).2 ∧
      (index ≠ 0 →
        (t.explicit index scope).2.known.lookup (scope, index)
          = some (t.explicit index scope).1) := by
  by_cases h0 : index = 0
  · subst h0
    exact ⟨h, fun _ _ hk ↦ hk, fun hne ↦ absurd rfl hne⟩
  · rw [TabStops.explicit, if_neg h0]
    cases hk : t.known.lookup (scope, index) with
    | some number => exact ⟨h, fun _ _ hk ↦ hk, fun _ ↦ hk⟩
    | none =>
      refine ⟨⟨?_, ?_⟩, ?_, fun _ ↦ by simp⟩
      · intro key number hkey
        rw [lookup_cons_key] at hkey
        dsimp only
        split at hkey
        · obtain rfl := Option.some.inj hkey
          exact Nat.lt_succ_self _
        · exact Nat.lt_succ_of_lt (h.below key number hkey)
      · intro key key' number hkey hkey'
        rw [lookup_cons_key] at hkey hkey'
        split at hkey <;> split at hkey'
        next heq heq' => rw [heq, heq']
        next heq hne =>
          obtain rfl := Option.some.inj hkey
          exact absurd (h.below _ _ hkey') (Nat.lt_irrefl _)
        next hne heq =>
          obtain rfl := Option.some.inj hkey'
          exact absurd (h.below _ _ hkey) (Nat.lt_irrefl _)
        next => exact h.inj key key' number hkey hkey'
      · intro key number hkey
        rw [lookup_cons_key, if_neg, hkey]
        rintro rfl
        rw [hk] at hkey
        cases hkey

/-- Two states of the numbering that know paired fields by the same numbers. -/
structure Agree (S : Stage) (t u : TabStops) : Prop where
  next : t.next = u.next
  lookup : ∀ index scope scope', index ≠ 0 → S.pairs index scope scope' →
    t.known.lookup (scope, index) = u.known.lookup (scope', index)

theorem agree_empty (S : Stage) : Agree S {} {} := ⟨rfl, fun _ _ _ _ _ ↦ rfl⟩

theorem Agree.auto {S : Stage} {t u : TabStops} (h : Agree S t u) :
    t.auto.1 = u.auto.1 ∧ Agree S t.auto.2 u.auto.2 :=
  ⟨h.next, congrArg Nat.succ h.next, h.lookup⟩

theorem Agree.explicit {S : Stage} (hS : S.Mirrors) {t u : TabStops} (h : Agree S t u)
    {index scope scope' : Nat} (hpair : index = 0 ∨ S.pairs index scope scope') :
    (t.explicit index scope).1 = (u.explicit index scope').1 ∧
      Agree S (t.explicit index scope).2 (u.explicit index scope').2 := by
  by_cases h0 : index = 0
  · subst h0
    exact ⟨rfl, h⟩
  · have hp := hpair.resolve_left h0
    have hlookup := h.lookup index scope scope' h0 hp
    rw [TabStops.explicit, TabStops.explicit, if_neg h0, if_neg h0, ← hlookup]
    cases t.known.lookup (scope, index) with
    | some number => exact ⟨rfl, h⟩
    | none =>
      refine ⟨h.next, congrArg Nat.succ h.next, fun i s s' hi hs ↦ ?_⟩
      rw [lookup_cons_key, lookup_cons_key, h.next, h.lookup i s s' hi hs]
      refine if_congr ?_ rfl rfl
      rw [Prod.mk.injEq, Prod.mk.injEq]
      constructor
      · rintro ⟨rfl, rfl⟩
        exact ⟨hS.right_unique _ _ _ _ hs hp, rfl⟩
      · rintro ⟨rfl, rfl⟩
        exact ⟨hS.left_unique _ _ _ _ hs hp, rfl⟩

end TabStops

/-! ## Marks -/

namespace Mark

/-- Paired marks get the same numbers. -/
theorem segments_eq_of_agree {S : Stage} (hS : S.Mirrors) {ms ns : List Mark}
    (h : List.Forall₂ S.Mark ms ns) {t u : TabStops} (htu : TabStops.Agree S t u) :
    (segments ms t).1 = (segments ns u).1 := by
  induction h generalizing t u with
  | nil => rfl
  | cons hm _ ih =>
    cases hm with
    | raw output => exact congrArg (Segment.raw output :: ·) (ih htu)
    | text literal => exact congrArg (Segment.text literal :: ·) (ih htu)
    | blank =>
      obtain ⟨hnumber, hstops⟩ := htu.auto
      simp only [segments, walk_cons, segment, hnumber] at ih ⊢
      rw [ih hstops]
    | @field f g hfg =>
      obtain ⟨hnumber, hstops⟩ := htu.explicit hS hfg.2.2
      simp only [segments, walk_cons, segment, ← hfg.1, hfg.2.1, hnumber] at ih ⊢
      rw [ih hstops]

theorem segments_eq_of_paired {S : Stage} (hS : S.Mirrors) {ms ns : List Mark}
    (h : List.Forall₂ S.Mark ms ns) : (segments ms {}).1 = (segments ns {}).1 :=
  segments_eq_of_agree hS h (TabStops.agree_empty S)

/-- Scopes of fields that have the same number in the end. -/
def sameNumber (S : Stage) (t u : TabStops) : Stage :=
  { S with
    pairs := fun i s s' ↦ (∃ number, t.known.lookup (s, i) = some number ∧
      u.known.lookup (s', i) = some number) ∧ (s = 0 ↔ s' = 0)
    zero := fun _ _ _ h ↦ h.2 }

theorem sameNumber_mirrors {S : Stage} {t u : TabStops} (ht : t.Sound) (hu : u.Sound) :
    (sameNumber S t u).Mirrors where
  left_unique i s s' r := by
    rintro ⟨⟨number, hs, hr⟩, -⟩ ⟨⟨number', hs', hr'⟩, -⟩
    obtain rfl : number = number' := Option.some.inj (hr.symm.trans hr')
    exact (Prod.mk.inj (ht.inj _ _ _ hs hs')).1
  right_unique i s r r' := by
    rintro ⟨⟨number, hs, hr⟩, -⟩ ⟨⟨number', hs', hr'⟩, -⟩
    obtain rfl : number = number' := Option.some.inj (hs.symm.trans hs')
    exact (Prod.mk.inj (hu.inj _ _ _ hr hr')).1

/-- Marks of one shape with the same numbers are paired by their numbers. -/
theorem paired_of_segments {S : Stage} {ms ns : List Mark} (h : List.Forall₂ S.Mark ms ns)
    {t u : TabStops} (ht : t.Sound) (hu : u.Sound)
    (heq : (segments ms t).1 = (segments ns u).1) :
    (segments ms t).2.Sound ∧ (segments ns u).2.Sound ∧ t.Extends (segments ms t).2 ∧
      u.Extends (segments ns u).2 ∧
      List.Forall₂ (sameNumber S (segments ms t).2 (segments ns u).2).Mark ms ns := by
  induction h generalizing t u with
  | nil => exact ⟨ht, hu, fun _ _ hk ↦ hk, fun _ _ hk ↦ hk, .nil⟩
  | cons hm _ ih =>
    cases hm with
    | raw output =>
      obtain ⟨h₁, h₂, h₃, h₄, h₅⟩ := ih ht hu (List.cons.inj heq).2
      exact ⟨h₁, h₂, h₃, h₄, .cons (.raw output) h₅⟩
    | text literal =>
      obtain ⟨h₁, h₂, h₃, h₄, h₅⟩ := ih ht hu (List.cons.inj heq).2
      exact ⟨h₁, h₂, h₃, h₄, .cons (.text literal) h₅⟩
    | blank =>
      obtain ⟨h₁, h₂, h₃, h₄, h₅⟩ := ih ht.auto hu.auto (List.cons.inj heq).2
      exact ⟨h₁, h₂, h₃, h₄, .cons .blank h₅⟩
    | @field f g hfg =>
      obtain ⟨hhead, htail⟩ := List.cons.inj heq
      obtain ⟨ht', htu, hft⟩ := ht.explicit f.index f.scope
      obtain ⟨hu', huu, hgu⟩ := hu.explicit g.index g.scope
      obtain ⟨h₁, h₂, h₃, h₄, h₅⟩ := ih ht' hu' htail
      refine ⟨h₁, h₂, fun _ _ hk ↦ h₃ _ _ (htu _ _ hk), fun _ _ hk ↦ h₄ _ _ (huu _ _ hk),
        .cons (.field ⟨hfg.1, hfg.2.1, ?_⟩) h₅⟩
      by_cases h0 : f.index = 0
      · exact .inl h0
      · refine .inr ⟨⟨_, h₃ _ _ (hft h0), h₄ _ _ ?_⟩, S.zero _ _ _ (hfg.2.2.resolve_left h0)⟩
        have hnumber := (Segment.stop.inj hhead).1
        have hknown := hgu (hfg.1 ▸ h0)
        rw [← hfg.1] at hknown hnumber ⊢
        rw [hnumber]
        exact hknown

/-- Marks of one shape that get the same numbers are paired by a pairing that mirrors. -/
theorem exists_mirrors {S : Stage} {ms ns : List Mark} (h : List.Forall₂ S.Mark ms ns)
    (heq : (segments ms {}).1 = (segments ns {}).1) :
    ∃ T : Stage, T.Mirrors ∧ List.Forall₂ T.Mark ms ns := by
  obtain ⟨ht, hu, -, -, hpaired⟩ :=
    paired_of_segments h TabStops.sound_empty TabStops.sound_empty heq
  exact ⟨_, sameNumber_mirrors ht hu, hpaired⟩

/-! ## Numbers that can be read off the output -/

/-- Writes the number of a tab stop as a row of as many strokes, and nothing else. -/
def strokes : Formatters where
  field number _ := String.ofList (List.replicate number 'a' ++ ['b'])

theorem strokes_cancel {m n : Nat} {cs ds : List Char}
    (h : List.replicate m 'a' ++ ['b'] ++ cs = List.replicate n 'a' ++ ['b'] ++ ds) :
    m = n ∧ cs = ds := by
  induction m generalizing n with
  | zero =>
    cases n with
    | zero => exact ⟨rfl, (List.cons.inj h).2⟩
    | succ n => exact absurd (List.cons.inj h).1 (by decide)
  | succ m ih =>
    cases n with
    | zero => exact absurd (List.cons.inj h).1 (by decide)
    | succ n =>
      obtain ⟨rfl, hcs⟩ := ih (List.cons.inj h).2
      exact ⟨rfl, hcs⟩

theorem render_cons_inj (f : Formatters) (s : Segment) {ss rs : List Segment}
    (h : Segment.render f (s :: ss) = Segment.render f (s :: rs)) :
    Segment.render f ss = Segment.render f rs := by
  rw [Segment.render_cons, Segment.render_cons] at h
  exact String.append_right_inj _ |>.1 h

/-- Marks of one shape whose output looks the same with numbers as strokes have the same numbers. -/
theorem segments_eq_of_render {S : Stage} {ms ns : List Mark} (h : List.Forall₂ S.Mark ms ns)
    {t u : TabStops}
    (heq : Segment.render strokes (segments ms t).1 = Segment.render strokes (segments ns u).1) :
    (segments ms t).1 = (segments ns u).1 := by
  have hstop : ∀ (i j : Nat) (p q : String) (ss rs : List Segment),
      Segment.render strokes (.stop i p :: ss) = Segment.render strokes (.stop j q :: rs) →
      i = j ∧ Segment.render strokes ss = Segment.render strokes rs := by
    intro i j p q ss rs heq
    rw [Segment.render_cons, Segment.render_cons] at heq
    have hchars := congrArg String.toList heq
    simp only [Segment.format, strokes, String.toList_append, String.toList_ofList] at hchars
    obtain ⟨rfl, hrest⟩ := strokes_cancel hchars
    exact ⟨rfl, String.toList_inj.1 hrest⟩
  induction h generalizing t u with
  | nil => rfl
  | cons hm _ ih =>
    cases hm with
    | raw output => exact congrArg (Segment.raw output :: ·) (ih (render_cons_inj _ _ heq))
    | text literal => exact congrArg (Segment.text literal :: ·) (ih (render_cons_inj _ _ heq))
    | blank =>
      obtain ⟨hnumber, hrest⟩ := hstop _ _ _ _ _ _ heq
      exact congrArg₂ List.cons (congrArg (Segment.stop · "") hnumber) (ih hrest)
    | @field f g hfg =>
      obtain ⟨hnumber, hrest⟩ := hstop _ _ _ _ _ _ heq
      exact congrArg₂ List.cons (congrArg₂ Segment.stop hnumber hfg.2.1) (ih hrest)

end Mark

/-! ## Trees -/

namespace Markup.Html

variable {S : Stage} {ns ms : List Node}

/-- **Equal output is mirrored fields.**  Trees of one shape have the same output exactly when some
pairing of their fields mirrors. -/
theorem segments_eq_iff (style : Style) (h : Node.AllLike (.outcome S) ns ms)
    (hgroup : Node.anyGroup ns = false) :
    segments style ns = segments style ms
      ↔ ∃ T : Stage, T.Mirrors ∧ Node.AllLike (.outcome T) ns ms := by
  rw [segments_eq_marks, segments_eq_marks]
  constructor
  · intro heq
    obtain ⟨T, hT, hmarks⟩ := Mark.exists_mirrors ((paired_marks_iff style h hgroup).2 h) heq
    exact ⟨T, hT, (paired_marks_iff style h hgroup).1 hmarks⟩
  · rintro ⟨T, hT, hlike⟩
    exact Mark.segments_eq_of_paired hT ((paired_marks_iff style h hgroup).2 hlike)

/-- Trees of one shape that look the same however stops are written have the same output. -/
theorem segments_eq_of_render (style : Style) (h : Node.AllLike (.outcome S) ns ms)
    (hgroup : Node.anyGroup ns = false)
    (heq : Segment.render Mark.strokes (segments style ns)
      = Segment.render Mark.strokes (segments style ms)) :
    segments style ns = segments style ms := by
  rw [segments_eq_marks, segments_eq_marks] at heq ⊢
  exact Mark.segments_eq_of_render ((paired_marks_iff style h hgroup).2 h) heq

end Markup.Html

end Shorthand
