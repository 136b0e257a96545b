import Shorthand.Config.Basic
import Shorthand.Proofs.Content
import Shorthand.Proofs.Mirroring

/-!
# The order of the tab stops

The stops of an editor are visited in the order of their numbers.  The numbers are given out while
the output is written, piece by piece; in the end they say no more than the order in which the
places of a tree or of a list of declarations are read.

What one place does to the numbers given out so far is said once (`Numbering.step`).  It is all
there is to it: layout and formatting have no part in the numbering.

* `FollowsReading` : numbers in reading order.
* `Numbering.walk` : they are given out in this order.
* `Expansion.stops_follow_reading` : the tab stops of any output.
-/

set_option autoImplicit false

namespace Shorthand

open Markup

/-! ## Numbers in reading order -/

namespace Place

/-- Two places that are one stop of the editor: fields of one index in one scope. -/
def Mirrors : Place → Place → Prop
  | .field f, .field g => f.index = g.index ∧ f.scope = g.scope
  | _, _ => False

theorem not_mirrors_blank (p : Place) : ¬ p.Mirrors .blank := by cases p <;> exact fun h ↦ h

/-- A field of index 0, where the editor stops last. -/
def IsLast : Place → Prop
  | .blank => False
  | .field f => f.index = 0

/-- The tab stop of a place, and the numbers given out with it. -/
def stop : Place → TabStops → (Place × Nat) × TabStops
  | .blank, stops => ((.blank, stops.auto.1), stops.auto.2)
  | .field f, stops =>
    ((.field f, (stops.explicit f.index f.scope).1), (stops.explicit f.index f.scope).2)

end Place

/-- The greatest number of places. -/
def greatest (numbered : List (Place × Nat)) : Nat := (numbered.map Prod.snd).foldr max 0

/-- Numbers follow the order in which places are read. -/
structure FollowsReading (numbered : List (Place × Nat)) : Prop where
  /-- Fields of index 0 have number 0, and no other place has. -/
  zero : ∀ p ∈ numbered, p.2 = 0 ↔ p.1.IsLast
  /-- A number that is not 0 was there before, or is one more than the greatest before. -/
  grows : ∀ before p after, numbered = before ++ p :: after →
    p.2 = 0 ∨ p.2 ∈ before.map Prod.snd ∨ p.2 = greatest before + 1
  /-- Places that do not both have number 0 have one number exactly if they are mirrors. -/
  mirrors : numbered.Pairwise fun p q ↦ p.2 ≠ 0 ∨ q.2 ≠ 0 → (p.2 = q.2 ↔ p.1.Mirrors q.1)

theorem le_greatest {numbered : List (Place × Nat)} {p : Place × Nat} (h : p ∈ numbered) :
    p.2 ≤ greatest numbered := by
  induction numbered with
  | nil => cases h
  | cons q numbered ih =>
    rw [greatest, List.map_cons, List.foldr_cons]
    rcases List.mem_cons.1 h with rfl | h
    · exact Nat.le_max_left ..
    · exact Nat.le_trans (ih h) (Nat.le_max_right ..)

theorem greatest_concat (numbered : List (Place × Nat)) (p : Place × Nat) :
    greatest (numbered ++ [p]) = max (greatest numbered) p.2 := by
  induction numbered with
  | nil => simp [greatest]
  | cons q numbered ih =>
    simp only [greatest, List.cons_append, List.map_cons, List.foldr_cons] at ih ⊢
    rw [ih, Nat.max_assoc]

/-- Numbers follow reading if they do up to the last place and the last one is as it should be. -/
theorem FollowsReading.concat {numbered : List (Place × Nat)} (h : FollowsReading numbered)
    {p : Place × Nat} (hzero : p.2 = 0 ↔ p.1.IsLast)
    (hgrows : p.2 = 0 ∨ p.2 ∈ numbered.map Prod.snd ∨ p.2 = greatest numbered + 1)
    (hmirrors : ∀ q ∈ numbered, q.2 ≠ 0 ∨ p.2 ≠ 0 → (q.2 = p.2 ↔ q.1.Mirrors p.1)) :
    FollowsReading (numbered ++ [p]) where
  zero := List.forall_mem_append.2 ⟨h.zero, List.forall_mem_singleton.2 hzero⟩
  grows before q after heq := by
    rcases List.eq_nil_or_concat after with rfl | ⟨after, r, rfl⟩
    · obtain ⟨rfl, hp⟩ := List.append_inj' heq rfl
      obtain rfl := List.singleton_inj.1 hp
      exact hgrows
    · rw [List.concat_eq_append, ← List.cons_append, ← List.append_assoc] at heq
      exact h.grows before q after (List.append_inj' heq rfl).1
  mirrors := by
    refine List.pairwise_append.2 ⟨h.mirrors, List.pairwise_singleton _ _, fun q hq r hr ↦ ?_⟩
    obtain rfl := List.mem_singleton.1 hr
    exact hmirrors q hq

/-! ## What a place does to the numbers -/

/-- What the numbers given out so far have to do with the places that have them. -/
structure Numbering (numbered : List (Place × Nat)) (stops : TabStops) : Prop where
  follows : FollowsReading numbered
  next : stops.next = greatest numbered + 1
  sound : stops.Sound
  /-- The number of a field is known. -/
  known : ∀ f number, (.field f, number) ∈ numbered → f.index ≠ 0 →
    stops.known.lookup (f.scope, f.index) = some number
  /-- What is known is the number of a place, and never 0. -/
  given : ∀ key number, stops.known.lookup key = some number →
    number ≠ 0 ∧ number ∈ numbered.map Prod.snd
  /-- The number of an empty place is not known to be that of a field. -/
  blank : ∀ number, (.blank, number) ∈ numbered →
    ∀ key, stops.known.lookup key ≠ some number

namespace Numbering

variable {numbered : List (Place × Nat)} {stops : TabStops}

theorem empty : Numbering [] {} where
  follows := ⟨by simp, fun before p after h ↦ by simp at h, .nil⟩
  next := rfl
  sound := TabStops.sound_empty
  known := by simp
  given := by simp
  blank := by simp

theorem lt_next (h : Numbering numbered stops) {p : Place × Nat} (hp : p ∈ numbered) :
    p.2 < stops.next := by
  rw [h.next]
  exact Nat.lt_succ_of_le (le_greatest hp)

/-- A place that mirrors no other gets the next number. -/
theorem follows_next (h : Numbering numbered stops) {p : Place} (hlast : ¬ p.IsLast)
    (hp : ∀ q ∈ numbered, ¬ q.1.Mirrors p) : FollowsReading (numbered ++ [(p, stops.next)]) := by
  refine h.follows.concat (iff_of_false ?_ hlast) (.inr (.inr h.next)) fun q hq _ ↦ ?_
  · rw [h.next]
    exact Nat.succ_ne_zero _
  · exact iff_of_false (Nat.ne_of_lt (h.lt_next hq)) (hp q hq)

theorem greatest_next (h : Numbering numbered stops) (p : Place) :
    stops.next + 1 = greatest (numbered ++ [(p, stops.next)]) + 1 := by
  rw [greatest_concat, h.next]
  dsimp only
  omega

theorem step_blank (h : Numbering numbered stops) :
    Numbering (numbered ++ [(.blank, stops.next)]) stops.auto.2 where
  follows := h.follows_next (fun hlast ↦ hlast) fun q _ ↦ q.1.not_mirrors_blank
  next := h.greatest_next .blank
  sound := h.sound.auto
  known f number hf hindex := by
    rcases List.mem_append.1 hf with hf | hf
    · exact h.known f number hf hindex
    · simp at hf
  given key number hkey := by
    obtain ⟨hne, hmem⟩ := h.given key number hkey
    exact ⟨hne, by simp [hmem]⟩
  blank number hnumber key := by
    rcases List.mem_append.1 hnumber with hnumber | hnumber
    · exact h.blank number hnumber key
    · obtain rfl : number = stops.next := by simpa using hnumber
      exact fun hkey ↦ absurd (h.sound.below key _ hkey) (Nat.lt_irrefl _)

/-- A field of index 0 uses up no number. -/
theorem step_last (h : Numbering numbered stops) {f : Field} (hf : f.index = 0) :
    Numbering (numbered ++ [(.field f, 0)]) stops where
  follows := by
    refine h.follows.concat (iff_of_true rfl hf) (.inl rfl) fun q hq hne ↦ ?_
    have hq0 : q.2 ≠ 0 := hne.resolve_right fun h ↦ h rfl
    refine iff_of_false hq0 fun hmirrors ↦ hq0 ((h.follows.zero q hq).2 ?_)
    cases hq1 : q.1 with
    | blank => rw [hq1] at hmirrors; exact hmirrors.elim
    | field g =>
      rw [hq1] at hmirrors
      exact hmirrors.1.trans hf
  next := by
    rw [greatest_concat, h.next, Nat.max_zero]
  sound := h.sound
  known g number hg hindex := by
    rcases List.mem_append.1 hg with hg | hg
    · exact h.known g number hg hindex
    · obtain ⟨rfl, -⟩ : g = f ∧ number = 0 := by simpa using hg
      exact absurd hf hindex
  given key number hkey := by
    obtain ⟨hne, hmem⟩ := h.given key number hkey
    exact ⟨hne, by simp [hmem]⟩
  blank number hnumber key := by
    rcases List.mem_append.1 hnumber with hnumber | hnumber
    · exact h.blank number hnumber key
    · simp at hnumber

/-- A field that mirrors one before it has the number of that one. -/
theorem step_known (h : Numbering numbered stops) {f : Field} {number : Nat} (hf : f.index ≠ 0)
    (hknown : stops.known.lookup (f.scope, f.index) = some number) :
    Numbering (numbered ++ [(.field f, number)]) stops where
  follows := by
    obtain ⟨hne, hmem⟩ := h.given _ number hknown
    refine h.follows.concat (iff_of_false hne hf) (.inr (.inl hmem)) fun q hq _ ↦ ?_
    obtain ⟨p, n⟩ := q
    cases p with
    | blank =>
      refine iff_of_false (fun heq ↦ ?_) fun hmirrors ↦ hmirrors
      obtain rfl : n = number := heq
      exact h.blank _ hq _ hknown
    | field g =>
      by_cases hg : g.index = 0
      · have hn : n = 0 := (h.follows.zero _ hq).2 hg
        exact iff_of_false (fun heq ↦ hne (heq.symm.trans hn)) fun hmirrors ↦
          hf (hmirrors.1.symm.trans hg)
      · have hgknown := h.known g n hq hg
        constructor
        · intro heq
          obtain rfl : n = number := heq
          have hkey := h.sound.inj _ _ _ hgknown hknown
          exact ⟨(Prod.mk.inj hkey).2, (Prod.mk.inj hkey).1⟩
        · rintro ⟨hindex, hscope⟩
          rw [hindex, hscope, hknown] at hgknown
          exact (Option.some.inj hgknown).symm
  next := by
    obtain ⟨-, hmem⟩ := h.given _ number hknown
    obtain ⟨q, hq, rfl⟩ := List.mem_map.1 hmem
    rw [greatest_concat, h.next, Nat.max_eq_left (le_greatest hq)]
  sound := h.sound
  known g n hg hindex := by
    rcases List.mem_append.1 hg with hg | hg
    · exact h.known g n hg hindex
    · obtain ⟨rfl, rfl⟩ : g = f ∧ n = number := by simpa using hg
      exact hknown
  given key n hkey := by
    obtain ⟨hne, hmem⟩ := h.given key n hkey
    exact ⟨hne, by simp [hmem]⟩
  blank n hn key := by
    rcases List.mem_append.1 hn with hn | hn
    · exact h.blank n hn key
    · simp at hn

/-- Any other field gets the next number and is known by it. -/
theorem step_new (h : Numbering numbered stops) {f : Field} (hf : f.index ≠ 0)
    (hunknown : stops.known.lookup (f.scope, f.index) = none) :
    Numbering (numbered ++ [(.field f, stops.next)])
      ⟨stops.next + 1, ((f.scope, f.index), stops.next) :: stops.known⟩ where
  follows := by
    refine h.follows_next hf fun q hq hmirrors ↦ ?_
    obtain ⟨p, n⟩ := q
    cases p with
    | blank => exact hmirrors
    | field g =>
      have hgknown := h.known g n hq fun hg ↦ hf (hmirrors.1.symm.trans hg)
      rw [hmirrors.1, hmirrors.2, hunknown] at hgknown
      cases hgknown
  next := h.greatest_next (.field f)
  sound := by
    have hsound := (h.sound.explicit f.index f.scope).1
    rwa [TabStops.explicit, if_neg hf, hunknown] at hsound
  known g n hg hindex := by
    rw [TabStops.lookup_cons_key]
    rcases List.mem_append.1 hg with hg | hg
    · have hgknown := h.known g n hg hindex
      rw [if_neg, hgknown]
      intro hkey
      rw [hkey, hunknown] at hgknown
      cases hgknown
    · obtain ⟨rfl, rfl⟩ : g = f ∧ n = stops.next := by simpa using hg
      rw [if_pos rfl]
  given key n hkey := by
    rw [TabStops.lookup_cons_key] at hkey
    split at hkey
    · obtain rfl := Option.some.inj hkey
      exact ⟨by rw [h.next]; exact Nat.succ_ne_zero _, by simp⟩
    · obtain ⟨hne, hmem⟩ := h.given key n hkey
      exact ⟨hne, by simp [hmem]⟩
  blank n hn key := by
    rcases List.mem_append.1 hn with hn | hn
    · rw [TabStops.lookup_cons_key]
      split
      · exact fun heq ↦ absurd (h.lt_next hn) (Option.some.inj heq ▸ Nat.lt_irrefl _)
      · exact h.blank n hn key
    · simp at hn

/-- One place after others gets the number that it should. -/
theorem step (h : Numbering numbered stops) (p : Place) :
    Numbering (numbered ++ [(p.stop stops).1]) (p.stop stops).2 := by
  cases p with
  | blank => exact h.step_blank
  | field f =>
    by_cases hf : f.index = 0
    · simpa only [Place.stop, hf, TabStops.explicit_zero] using h.step_last hf
    · rw [Place.stop, TabStops.explicit, if_neg hf]
      cases hknown : stops.known.lookup (f.scope, f.index) with
      | some number => exact h.step_known hf hknown
      | none => exact h.step_new hf hknown

/-- Places that are numbered one after the other are numbered in reading order. -/
theorem walk (h : Numbering numbered stops) (places : List Place) :
    Numbering (numbered ++ (Markup.walk Place.stop places stops).1)
      (Markup.walk Place.stop places stops).2 := by
  induction places generalizing numbered stops with
  | nil => simpa using h
  | cons p places ih => simpa [walk_cons] using ih (h.step p)

end Numbering

/-! ## The stops of output -/

/-- How a numbered place is handed on to be written. -/
def Place.handedOn (numbered : Place × Nat) : Nat × String := (numbered.2, numbered.1.placeholder)

/-- The places of marks are numbered one after the other. -/
theorem Segment.stops_segments (ms : List Mark) (stops : TabStops) :
    Segment.stops (Mark.segments ms stops).1
      = (Markup.walk Place.stop (ms.filterMap Mark.place?) stops).1.map Place.handedOn := by
  induction ms generalizing stops with
  | nil => rfl
  | cons m ms ih =>
    cases m with
    | raw output => exact ih stops
    | text literal => exact ih stops
    | blank => exact congrArg ((stops.auto.1, "") :: ·) (ih stops.auto.2)
    | field f =>
      exact congrArg (((stops.explicit f.index f.scope).1, f.placeholder) :: ·)
        (ih (stops.explicit f.index f.scope).2)

theorem Place.fst_walk_stop (places : List Place) (stops : TabStops) :
    (Markup.walk Place.stop places stops).1.map Prod.fst = places := by
  induction places generalizing stops with
  | nil => rfl
  | cons p places ih => cases p <;> exact congrArg (_ :: ·) (ih _)

/-- The output that marks become has its stops in reading order. -/
theorem Mark.stops_follow (ms : List Mark) {places : List Place}
    (h : ms.filterMap Mark.place? = places) :
    ∃ numbered : List (Place × Nat), numbered.map Prod.fst = places ∧
      Segment.stops (Mark.segments ms {}).1 = numbered.map Place.handedOn ∧
      FollowsReading numbered := by
  refine ⟨_, Place.fst_walk_stop places {}, ?_, (Numbering.empty.walk places).follows⟩
  rw [Segment.stops_segments, h]

namespace Expansion

/-- **Tab stops follow reading.**  The output of a tree without groups, and that of declarations,
hands on a tab stop for each of its places, in the order in which they are read; the numbers of the
stops follow this order. -/
theorem stops_follow_reading (c : Config) :
    (∀ nodes, Node.anyGroup nodes = false →
      ∃ segments numbered, Html.write c.htmlStyle nodes = .ok segments ∧
        numbered.map Prod.fst = Html.places c.htmlStyle nodes ∧
        Segment.stops segments = numbered.map Place.handedOn ∧ FollowsReading numbered) ∧
      ∀ ds, ∃ numbered, numbered.map Prod.fst = Stylesheet.Declaration.allPlaces ds ∧
        Segment.stops (Stylesheet.Declaration.writeAll c.declarationStyle ds)
          = numbered.map Place.handedOn ∧ FollowsReading numbered := by
  refine ⟨fun nodes hgroup ↦ ?_, fun ds ↦ ?_⟩
  · obtain ⟨numbered, hplaces, hstops, hfollows⟩ :=
      Mark.stops_follow _ (Html.places_marks c.htmlStyle nodes)
    refine ⟨_, numbered, by rw [Html.write, hgroup]; rfl, hplaces, ?_, hfollows⟩
    rw [Html.segments_eq_marks, hstops]
  · rw [Stylesheet.Declaration.writeAll_eq_marks]
    exact Mark.stops_follow _ (Stylesheet.Declaration.places_marksFrom _ 0 ds)

/-- A link with a field in its attribute, the same field in its text and the last stop after it, and
an empty element behind. -/
def linkAndBold : List Node := [
  .element
    { name := some "a", attributes := [⟨"href", [.field { index := 7 }], none⟩]
      text := some [.field { index := 7 }, .field { index := 0 }] } none [],
  .element { name := some "b" } none []]

/-- `<a href="${1}">${1}${0}</a><b>${2}</b>`: the mirrored field has the number 1 twice. -/
theorem stops_of_linkAndBold :
    Node.anyGroup linkAndBold = false ∧
      ∃ segments numbered, Html.write ({} : Config).htmlStyle linkAndBold = .ok segments ∧
        numbered.map Prod.fst = Html.places ({} : Config).htmlStyle linkAndBold ∧
        Segment.stops segments = numbered.map Place.handedOn ∧ FollowsReading numbered ∧
        Segment.stops segments = [(1, ""), (1, ""), (0, ""), (2, "")] := by
  obtain ⟨segments, numbered, hwrite, hplaces, hstops, hfollows⟩ :=
    (stops_follow_reading {}).1 linkAndBold (by decide)
  refine ⟨by decide, segments, numbered, hwrite, hplaces, hstops, hfollows, ?_⟩
  obtain rfl := Except.ok.inj (hwrite.symm.trans (by rw [Html.write]; rfl))
  decide +kernel

end Expansion

end Shorthand
