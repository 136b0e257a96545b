import Mathlib.Data.Finset.Dedup
import Mathlib.Order.Interval.Finset.Nat
import Shorthand.Editor.SnippetText
import Shorthand.Expansion
import Shorthand.Proofs.ReadingOrder
import Shorthand.Proofs.Success

/-!
# Declarations one after the other

A plus sign stands between two stylesheet abbreviations and nowhere in them.  So what is read on one
side of it does not depend on the other side, except that offsets go on from one to the next.

In the output the two sides share one numbering of tab stops.  Every declaration has a scope of its
own, and so no field of the second side mirrors one of the first: its numbers are those that it has
alone, moved by as many numbers as the first side used up.

* `Declaration.parseAll_joined_iff` : what is read on both sides of a plus sign.
* `Mark.segments_moved` : numbering in scopes that are new.
* `FollowsReading.length_dedup` : numbers in reading order have no gaps.
* `Expansion.expand_joined` : abbreviations compose.
-/

set_option autoImplicit false

namespace Shorthand

/-! ## Reading -/

namespace Stylesheet.Declaration

/-- A declaration that begins further on. -/
def later (n : Nat) (d : Declaration) : Declaration := { d with offset := d.offset + n }

/-- The number of characters of chunks, each with a separator after it. -/
def width : List (List Char) → Nat
  | [] => 0
  | chunk :: chunks => chunk.length + 1 + width chunks

/-- Cutting a text loses its separators only. -/
theorem width_splitOn (separator : Char) (cs : List Char) :
    width (cs.splitOn separator) = cs.length + 1 := by
  induction cs with
  | nil => rfl
  | cons c cs ih =>
    rw [List.splitOn_cons_eq_if_modifyHead, List.length_cons, ← ih]
    split
    · rw [width, List.length_nil, Nat.zero_add, Nat.add_comm]
    · obtain ⟨chunk, chunks, hcut⟩ :=
        List.exists_cons_of_ne_nil (List.splitOn_ne_nil separator cs)
      rw [hcut, List.modifyHead_cons, width, width, List.length_cons]
      omega

variable {snippets : Table String} {v : Vocabulary}

/-- A chunk stands for the same declaration wherever it begins. -/
theorem parse_later_iff {chunk : List Char} {offset n : Nat} {d : Declaration} :
    parse snippets v chunk (offset + n) = .ok d ↔
      ∃ found, parse snippets v chunk offset = .ok found ∧ found.later n = d := by
  rw [parse, parse]
  dsimp only
  generalize (if chunk.getLast? == some '!' then chunk.dropLast else chunk) = body
  by_cases hbody : body.isEmpty
  · simp [hbody]
  · rw [if_neg hbody, if_neg hbody]
    cases snippets.get? (String.ofList body) with
    | some text => simp [later]
    | none =>
      rcases Snippet.splitColon body with ⟨name, _ | explicit⟩
      · by_cases hname : (splitValue body).1.isEmpty <;> simp [hname, later]
      · by_cases hname : name.isEmpty <;> simp [hname, later]

/-- The declarations of chunks that begin further on begin further on. -/
theorem parseChunks_later_iff {chunks : List (List Char)} {offset n : Nat}
    {ds : List Declaration} :
    parseChunks snippets v chunks (offset + n) = .ok ds ↔
      ∃ found, parseChunks snippets v chunks offset = .ok found ∧ found.map (later n) = ds := by
  induction chunks generalizing offset ds with
  | nil => simp [parseChunks]
  | cons chunk chunks ih =>
    have hoffset : offset + n + chunk.length + 1 = offset + chunk.length + 1 + n := by omega
    simp only [parseChunks, bind_eq_ok_iff, parse_later_iff, hoffset, ih]
    constructor
    · rintro ⟨_, ⟨first, hfirst, rfl⟩, _, ⟨rest, hrest, rfl⟩, h⟩
      exact ⟨first :: rest, ⟨first, hfirst, rest, hrest, rfl⟩, Except.ok.inj h⟩
    · rintro ⟨_, ⟨first, hfirst, rest, hrest, hfound⟩, rfl⟩
      obtain rfl := Except.ok.inj hfound
      exact ⟨_, ⟨first, hfirst, rfl⟩, _, ⟨rest, hrest, rfl⟩, rfl⟩

/-- The declarations of two rows of chunks are read one row after the other. -/
theorem parseChunks_append_iff {xs ys : List (List Char)} {offset : Nat}
    {ds : List Declaration} :
    parseChunks snippets v (xs ++ ys) offset = .ok ds ↔
      ∃ first second, parseChunks snippets v xs offset = .ok first ∧
        parseChunks snippets v ys (offset + width xs) = .ok second ∧ first ++ second = ds := by
  induction xs generalizing offset ds with
  | nil => simp [parseChunks, width]
  | cons x xs ih =>
    have hoffset : offset + width (x :: xs) = offset + x.length + 1 + width xs := by
      rw [width]
      omega
    simp only [List.cons_append, parseChunks, bind_eq_ok_iff, ih, hoffset]
    constructor
    · rintro ⟨d, hd, _, ⟨first, second, hfirst, hsecond, rfl⟩, h⟩
      exact ⟨d :: first, second, ⟨d, hd, first, hfirst, rfl⟩, hsecond, Except.ok.inj h⟩
    · rintro ⟨_, second, ⟨d, hd, first, hfirst, h⟩, hsecond, rfl⟩
      obtain rfl := Except.ok.inj h
      exact ⟨d, hd, _, ⟨first, second, hfirst, hsecond, rfl⟩, rfl⟩

/-- The declarations of an abbreviation are those of its chunks; if it is empty, there are none in
its only chunk either. -/
theorem parseAll_eq_ok_iff {abbreviation : String} {ds : List Declaration} :
    parseAll snippets v abbreviation = .ok ds ↔
      parseChunks snippets v (abbreviation.toList.splitOn '+') 0 = .ok ds := by
  rw [parseAll, located_eq_ok_iff]
  split
  · next hempty =>
    obtain rfl : abbreviation = "" := by simpa using hempty
    simp [parseChunks, parse, bind, Except.bind]
  · rfl

/-- **What is read on both sides of a plus sign.**  The declarations are those of the left side and,
further on, those of the right side. -/
theorem parseAll_joined_iff {a b : String} {ds : List Declaration} :
    parseAll snippets v (a ++ "+" ++ b) = .ok ds ↔
      ∃ first second, parseAll snippets v a = .ok first ∧ parseAll snippets v b = .ok second ∧
        first ++ second.map (later (a.length + 1)) = ds := by
  have hcut : (a ++ "+" ++ b).toList.splitOn '+'
      = a.toList.splitOn '+' ++ b.toList.splitOn '+' := by
    rw [String.toList_append, String.toList_append, List.append_assoc]
    exact List.splitOn_append_cons_self ..
  simp only [parseAll_eq_ok_iff, hcut, parseChunks_append_iff, width_splitOn, parseChunks_later_iff,
    String.length_toList]
  constructor
  · rintro ⟨first, _, hfirst, ⟨second, hsecond, rfl⟩, h⟩
    exact ⟨first, second, hfirst, hsecond, h⟩
  · rintro ⟨first, second, hfirst, hsecond, h⟩
    exact ⟨first, _, hfirst, ⟨second, hsecond, rfl⟩, h⟩

/-- There is a declaration in every abbreviation that is read. -/
theorem ne_nil_of_parseAll {abbreviation : String} {ds : List Declaration}
    (h : parseAll snippets v abbreviation = .ok ds) : ds ≠ [] := by
  rw [parseAll_eq_ok_iff] at h
  obtain ⟨chunk, chunks, hcut⟩ :=
    List.exists_cons_of_ne_nil (List.splitOn_ne_nil '+' abbreviation.toList)
  rw [hcut] at h
  obtain ⟨d, -, h⟩ := bind_eq_ok_iff.1 h
  obtain ⟨rest, -, h⟩ := bind_eq_ok_iff.1 h
  exact Except.ok.inj h ▸ List.cons_ne_nil d rest

end Stylesheet.Declaration

/-! ## Numbering -/

/-- The tab stop that a numbered one is after so many numbers were used up; 0 is the last stop of
all and stays 0. -/
def movedNumber (n number : Nat) : Nat := if number = 0 then 0 else number + n

theorem movedNumber_of_ne {n number : Nat} (h : number ≠ 0) : movedNumber n number = number + n :=
  if_neg h

/-- A piece of output after so many numbers were used up. -/
def Segment.moved (n : Nat) : Segment → Segment
  | .stop number placeholder => .stop (movedNumber n number) placeholder
  | segment => segment

/-- Formatters that are told the numbers of tab stops after so many were used up. -/
def Formatters.moved (n : Nat) (f : Formatters) : Formatters :=
  { f with field := fun number placeholder ↦ f.field (movedNumber n number) placeholder }

theorem Segment.render_moved (n : Nat) (f : Formatters) (segments : List Segment) :
    render f (segments.map (Segment.moved n)) = render (f.moved n) segments := by
  induction segments with
  | nil => rfl
  | cons s segments ih =>
    rw [List.map_cons, render_cons, render_cons, ih]
    cases s <;> rfl

/-- The numbers of the tab stops of output, each once, without the last stop. -/
def Segment.numbers (segments : List Segment) : List Nat :=
  (((stops segments).map Prod.fst).filter (· ≠ 0)).dedup

namespace Mark

/-- A mark whose field is in a later scope. -/
def moved (k : Nat) : Mark → Mark
  | .field f => .field { f with scope := f.scope + k }
  | mark => mark

end Mark

namespace TabStops

/-- Numbers given out after `n` others were, to fields of scopes that begin at `k`.  The second
state is what they are when the count begins with them. -/
structure Moved (k n : Nat) (t u : TabStops) : Prop where
  next : t.next = u.next + n
  positive : u.next ≠ 0
  known : ∀ index scope,
    t.known.lookup (scope + k, index) = (u.known.lookup (scope, index)).map (· + n)
  given : ∀ key number, u.known.lookup key = some number → number ≠ 0

variable {k n : Nat} {t u : TabStops}

theorem Moved.auto (h : Moved k n t u) : Moved k n t.auto.2 u.auto.2 where
  next := by simp only [TabStops.auto, h.next]; omega
  positive := Nat.succ_ne_zero _
  known := h.known
  given := h.given

theorem Moved.explicit (h : Moved k n t u) (index scope : Nat) :
    (t.explicit index (scope + k)).1 = movedNumber n (u.explicit index scope).1 ∧
      Moved k n (t.explicit index (scope + k)).2 (u.explicit index scope).2 := by
  by_cases h0 : index = 0
  · subst h0
    exact ⟨rfl, h⟩
  · rw [TabStops.explicit, TabStops.explicit, if_neg h0, if_neg h0, h.known]
    cases hknown : u.known.lookup (scope, index) with
    | some number => exact ⟨(movedNumber_of_ne (h.given _ _ hknown)).symm, h⟩
    | none =>
      rw [Option.map_none]
      refine ⟨h.next.trans (movedNumber_of_ne h.positive).symm, ?_, Nat.succ_ne_zero _, ?_, ?_⟩
      · dsimp only
        rw [h.next]
        omega
      · intro i s
        simp only [lookup_cons_key, h.next, h.known, Prod.mk.injEq, Nat.add_right_cancel_iff]
        split <;> rfl
      · intro key number hkey
        rw [lookup_cons_key] at hkey
        split at hkey
        · exact Option.some.inj hkey ▸ h.positive
        · exact h.given key number hkey

end TabStops

namespace Mark

/-- **Numbering in scopes that are new.**  Marks in later scopes get the numbers that they would get
alone, moved by as many as were used up. -/
theorem segments_moved {k n : Nat} {t u : TabStops} (h : TabStops.Moved k n t u)
    (ms : List Mark) :
    (segments (ms.map (moved k)) t).1 = (segments ms u).1.map (Segment.moved n) := by
  induction ms generalizing t u with
  | nil => rfl
  | cons m ms ih =>
    cases m with
    | raw output => exact congrArg (Segment.raw output :: ·) (ih h)
    | text literal => exact congrArg (Segment.text literal :: ·) (ih h)
    | blank =>
      have hnumber : t.auto.1 = movedNumber n u.auto.1 :=
        h.next.trans (movedNumber_of_ne h.positive).symm
      exact congrArg₂ (fun number rest ↦ Segment.stop number "" :: rest) hnumber (ih h.auto)
    | field f =>
      obtain ⟨hnumber, hmoved⟩ := h.explicit f.index f.scope
      exact congrArg₂ (fun number rest ↦ Segment.stop number f.placeholder :: rest) hnumber
        (ih hmoved)

/-- What is known after marks was known before them, or is of a field among them. -/
theorem known_of_segments {ms : List Mark} {t : TabStops} {key : Nat × Nat} {number : Nat}
    (h : (segments ms t).2.known.lookup key = some number) :
    t.known.lookup key = some number ∨ ∃ f, .field f ∈ ms ∧ key = (f.scope, f.index) := by
  induction ms generalizing t with
  | nil => exact .inl h
  | cons m ms ih =>
    rcases ih h with hknown | ⟨f, hf, hkey⟩
    · cases m with
      | raw output => exact .inl hknown
      | text literal => exact .inl hknown
      | blank => exact .inl hknown
      | field f =>
        by_cases hkey : key = (f.scope, f.index)
        · exact .inr ⟨f, List.mem_cons_self, hkey⟩
        · left
          change (t.explicit f.index f.scope).2.known.lookup key = some number at hknown
          rw [TabStops.explicit] at hknown
          split at hknown
          · exact hknown
          · split at hknown
            · exact hknown
            · rwa [TabStops.lookup_cons_key, if_neg hkey] at hknown
    · exact .inr ⟨f, List.mem_cons_of_mem m hf, hkey⟩

/-- The numbers given out with marks are given out with their places. -/
theorem stops_segments (ms : List Mark) (t : TabStops) :
    (segments ms t).2 = (Markup.walk Place.stop (ms.filterMap place?) t).2 := by
  induction ms generalizing t with
  | nil => rfl
  | cons m ms ih => cases m <;> exact ih _

end Mark

/-! ## The numbers that were used up -/

/-- Numbers in reading order have no gaps. -/
theorem FollowsReading.mem_of_le_greatest {numbered : List (Place × Nat)}
    (h : ∀ before p after, numbered = before ++ p :: after →
      p.2 = 0 ∨ p.2 ∈ before.map Prod.snd ∨ p.2 = greatest before + 1)
    {number : Nat} (h0 : number ≠ 0) (hle : number ≤ greatest numbered) :
    number ∈ numbered.map Prod.snd := by
  induction numbered using List.reverseRecOn with
  | nil => exact absurd (Nat.le_zero.1 hle) h0
  | append_singleton before p ih =>
    rw [List.map_append, List.mem_append]
    have hbefore := ih fun as q bs heq ↦ h as q (bs ++ [p]) (by rw [heq]; simp)
    rw [greatest_concat] at hle
    rcases le_max_iff.1 hle with hle | hle
    · exact .inl (hbefore hle)
    · rcases h before p [] rfl with hp | hp | hp
      · omega
      · obtain ⟨q, hq, heq⟩ := List.mem_map.1 hp
        exact .inl (hbefore (hle.trans (heq ▸ le_greatest hq)))
      · rcases Nat.lt_or_eq_of_le hle with hlt | rfl
        · exact .inl (hbefore (by omega))
        · exact .inr (by simp)

/-- There are as many numbers as the greatest says. -/
theorem FollowsReading.length_dedup {numbered : List (Place × Nat)} (h : FollowsReading numbered) :
    ((numbered.map Prod.snd).filter (· ≠ 0)).dedup.length = greatest numbered := by
  have hset : ((numbered.map Prod.snd).filter (· ≠ 0)).toFinset
      = Finset.Icc 1 (greatest numbered) := by
    ext number
    simp only [List.mem_toFinset, List.mem_filter, decide_eq_true_eq, Finset.mem_Icc,
      Nat.one_le_iff_ne_zero]
    constructor
    · rintro ⟨hmem, h0⟩
      obtain ⟨p, hp, rfl⟩ := List.mem_map.1 hmem
      exact ⟨h0, le_greatest hp⟩
    · rintro ⟨h0, hle⟩
      exact ⟨mem_of_le_greatest h.grows h0 hle, h0⟩
  rw [← List.card_toFinset, hset, Nat.card_Icc, Nat.add_sub_cancel]

/-- The next number is one more than there are numbers in the output. -/
theorem Mark.next_segments (ms : List Mark) :
    (segments ms {}).2.next = (Segment.numbers (segments ms {}).1).length + 1 := by
  have hwalk := Numbering.empty.walk (ms.filterMap place?)
  rw [List.nil_append] at hwalk
  rw [stops_segments, hwalk.next, ← hwalk.follows.length_dedup, Segment.numbers,
    Segment.stops_segments, List.map_map]
  rfl

/-! ## Writing -/

namespace Stylesheet.Declaration

/-- Where declarations begin makes no difference to the output. -/
theorem marksFrom_map_later (style : Style) (scope n : Nat) (ds : List Declaration) :
    marksFrom style scope (ds.map (later n)) = marksFrom style scope ds := by
  induction ds generalizing scope with
  | nil => rfl
  | cons d ds ih =>
    rw [List.map_cons, marksFrom, marksFrom, ih]
    rfl

theorem marksFrom_append (style : Style) (scope : Nat) (xs ys : List Declaration) :
    marksFrom style scope (xs ++ ys)
      = marksFrom style scope xs ++ marksFrom style (scope + xs.length) ys := by
  induction xs generalizing scope with
  | nil => rfl
  | cons x xs ih =>
    rw [List.cons_append, marksFrom, ih, marksFrom, List.length_cons, Nat.add_assoc scope 1,
      Nat.add_comm 1, List.append_assoc, List.append_assoc]

theorem marks_moved (style : Style) (scope k : Nat) (d : Declaration) :
    marks style (scope + k) d = (marks style scope d).map (Mark.moved k) := by
  have hvalue : valueMarks (scope + k) d = (valueMarks scope d).map (Mark.moved k) := by
    rw [valueMarks, valueMarks]
    split
    · rfl
    · rw [Value.mapScope, Value.mapScope, List.map_map, List.map_map, List.map_map]
      refine List.map_congr_left fun p _ ↦ ?_
      cases p <;> rfl
  have himportant : List.map (Mark.moved k)
      ((if d.important then [.raw " !important"] else []) ++ [.raw style.after])
        = (if d.important then [.raw " !important"] else []) ++ [.raw style.after] := by
    split <;> rfl
  rw [marks, marks, hvalue, List.map_cons, List.map_cons, List.map_append, himportant]
  rfl

/-- The declarations after the first have the same marks wherever they stand, in other scopes. -/
theorem marksFrom_moved (style : Style) (scope k : Nat) (ds : List Declaration) :
    marksFrom style (scope + 1 + k) ds = (marksFrom style (scope + 1) ds).map (Mark.moved k) := by
  induction ds generalizing scope with
  | nil => rfl
  | cons d ds ih =>
    have hscope : scope + 1 + k + 1 = scope + 1 + 1 + k := by omega
    rw [marksFrom, marksFrom, if_neg (by omega), if_neg (by omega), marks_moved, hscope, ih,
      List.map_append, List.map_append]
    rfl

/-- Declarations that come after `k` others have a line break before them. -/
theorem marksFrom_after (style : Style) {k : Nat} (hk : k ≠ 0) {ds : List Declaration}
    (hds : ds ≠ []) :
    marksFrom style k ds = .raw style.newline :: (marksFrom style 0 ds).map (Mark.moved k) := by
  obtain ⟨d, ds, rfl⟩ := List.exists_cons_of_ne_nil hds
  have hfirst := marks_moved style 0 k d
  have hrest := marksFrom_moved style 0 k ds
  rw [Nat.zero_add] at hfirst hrest
  rw [marksFrom, marksFrom, if_neg hk, if_pos rfl, hfirst, Nat.add_comm k 1, hrest,
    List.nil_append, List.map_append]
  rfl

/-- The scope of a field is the number of its declaration. -/
theorem scope_lt_of_mem_marksFrom {style : Style} {scope : Nat} {ds : List Declaration} {f : Field}
    (h : .field f ∈ marksFrom style scope ds) : f.scope < scope + ds.length := by
  have hplace : Place.field f ∈ placesFrom scope ds := by
    rw [← places_marksFrom style]
    exact List.mem_filterMap.2 ⟨_, h, rfl⟩
  clear h
  induction ds generalizing scope with
  | nil => cases hplace
  | cons d ds ih =>
    rw [List.length_cons]
    rcases List.mem_append.1 hplace with hplace | hplace
    · rw [places] at hplace
      split at hplace
      · simp at hplace
      · obtain ⟨g, -, hg⟩ := List.mem_map.1 hplace
        rw [← Place.field.inj hg]
        dsimp only
        omega
    · have hlt := ih hplace
      omega

/-- **The output of two rows of declarations.**  The second row is written as it is alone, on new
lines and with its stops moved by as many numbers as the first row used up. -/
theorem writeAll_append (style : Style) {xs ys : List Declaration} (hxs : xs ≠ [])
    (hys : ys ≠ []) :
    writeAll style (xs ++ ys)
      = writeAll style xs ++ .raw style.newline ::
          (writeAll style ys).map (Segment.moved (Segment.numbers (writeAll style xs)).length) := by
  have hlength : xs.length ≠ 0 := fun h ↦ hxs (List.eq_nil_of_length_eq_zero h)
  have hmoved : TabStops.Moved xs.length
      (Segment.numbers (Mark.segments (marksFrom style 0 xs) {}).1).length
      (Mark.segments (marksFrom style 0 xs) {}).2 {} := by
    refine ⟨(Mark.next_segments _).trans (Nat.add_comm _ 1), Nat.one_ne_zero, fun index scope ↦ ?_,
      fun _ _ h ↦ by cases h⟩
    refine Option.eq_none_iff_forall_ne_some.2 fun number hknown ↦ ?_
    rcases Mark.known_of_segments hknown with hknown | ⟨f, hf, hkey⟩
    · cases hknown
    · have hlt := scope_lt_of_mem_marksFrom hf
      have hscope := (Prod.mk.inj hkey).1
      omega
  rw [writeAll_eq_marks, writeAll_eq_marks, writeAll_eq_marks, marksFrom_append, Nat.zero_add,
    marksFrom_after style hlength hys, Mark.segments_append, Mark.segments_raw,
    Mark.segments_moved hmoved]

end Stylesheet.Declaration

/-! ## Expanding -/

namespace Expansion

open Stylesheet

/-- The output for a stylesheet abbreviation under given formatters. -/
theorem expand_of_declarations {c : Config} (hstylesheet : c.grammar = .stylesheet) {s : String}
    {ds : List Declaration} (h : declarations c s = .ok ds) (f : Formatters) :
    segments c s = .ok (Declaration.writeAll c.declarationStyle ds) ∧
      expand { c with formatters := f } s
        = .ok (Segment.render f (Declaration.writeAll c.declarationStyle ds)) := by
  have hsegments : segments c s = .ok (Declaration.writeAll c.declarationStyle ds) := by
    rw [segments, hstylesheet]
    exact bind_eq_ok_iff.2 ⟨ds, h, rfl⟩
  exact ⟨hsegments, map_eq_ok_iff.2 ⟨_, hsegments, rfl⟩⟩

/-- **Stylesheet abbreviations compose.**  Two abbreviations with a plus sign between them are read
exactly if each of them is: as the declarations of the one and, further on, of the other.  And the
output is that of the one, a line break, and that of the other, with its stops moved by as many
numbers as there are in the output of the one. -/
theorem expand_joined (c : Config) (hstylesheet : c.grammar = .stylesheet) (a b : String) :
    ((∃ ds, declarations c (a ++ "+" ++ b) = .ok ds) ↔
      (∃ ds, declarations c a = .ok ds) ∧ ∃ ds, declarations c b = .ok ds) ∧
    ∀ first second, declarations c a = .ok first → declarations c b = .ok second →
      declarations c (a ++ "+" ++ b)
        = .ok (first ++ second.map (Declaration.later (a.length + 1))) ∧
      ∃ output, segments c a = .ok output ∧ ∀ f : Formatters, ∃ p q,
        expand { c with formatters := f } a = .ok p ∧
        expand { c with formatters := f.moved (Segment.numbers output).length } b = .ok q ∧
        expand { c with formatters := f } (a ++ "+" ++ b) = .ok (p ++ c.newline ++ q) := by
  have hjoined : ∀ first second, declarations c a = .ok first → declarations c b = .ok second →
      declarations c (a ++ "+" ++ b)
        = .ok (first ++ second.map (Declaration.later (a.length + 1))) :=
    fun first second hfirst hsecond ↦
      Declaration.parseAll_joined_iff.2 ⟨first, second, hfirst, hsecond, rfl⟩
  refine ⟨⟨?_, ?_⟩, fun first second hfirst hsecond ↦ ?_⟩
  · rintro ⟨ds, h⟩
    obtain ⟨first, second, hfirst, hsecond, -⟩ := Declaration.parseAll_joined_iff.1 h
    exact ⟨⟨first, hfirst⟩, second, hsecond⟩
  · rintro ⟨⟨first, hfirst⟩, second, hsecond⟩
    exact ⟨_, hjoined first second hfirst hsecond⟩
  · have hoffsets : Declaration.writeAll c.declarationStyle
        (first ++ second.map (Declaration.later (a.length + 1)))
          = Declaration.writeAll c.declarationStyle (first ++ second) := by
      simp only [Declaration.writeAll_eq_marks, Declaration.marksFrom_append,
        Declaration.marksFrom_map_later]
    refine ⟨hjoined first second hfirst hsecond, _,
      (expand_of_declarations hstylesheet hfirst {}).1, fun f ↦ ⟨_, _,
        (expand_of_declarations hstylesheet hfirst f).2,
        (expand_of_declarations hstylesheet hsecond _).2, ?_⟩⟩
    rw [(expand_of_declarations hstylesheet (hjoined first second hfirst hsecond) f).2, hoffsets,
      Declaration.writeAll_append _ (Declaration.ne_nil_of_parseAll hfirst)
        (Declaration.ne_nil_of_parseAll hsecond),
      Segment.render_append, Segment.render_cons, Segment.render_moved, String.append_assoc]
    rfl

/-- A configuration with a snippet for borders, whose style is given twice, and one for margins. -/
def boxConfig : Config where
  grammar := .stylesheet
  stylesheetSnippets := [("bd", "border:$\x7b1:1px\x7d $\x7b2\x7d $\x7b2\x7d"), ("m", "margin:")]

/-- A border has the stops 1, 2 and 2 again; so the margin after it has number 3. -/
theorem expand_border_margin :
    boxConfig.grammar = .stylesheet ∧
      (∃ border margin, declarations boxConfig "bd" = .ok border ∧
        declarations boxConfig "m!" = .ok margin ∧
        declarations boxConfig "bd+m!" = .ok (border ++ margin.map (Declaration.later 3))) ∧
      expand { boxConfig with formatters := Editor.formatters } "bd+m!"
        = .ok "border: $\x7b1:1px\x7d $\x7b2\x7d $\x7b2\x7d;\nmargin: $\x7b3\x7d !important;" := by
  have hborder : declarations boxConfig "bd" = .ok [
      ⟨"border", some [.field ⟨1, "1px", 0⟩, .text " ", .field ⟨2, "", 0⟩, .text " ",
        .field ⟨2, "", 0⟩], false, 0⟩] := by decide +kernel
  have hmargin : declarations boxConfig "m!" = .ok [⟨"margin", none, true, 0⟩] := by
    decide +kernel
  obtain ⟨hread, output, houtput, hexpand⟩ :=
    (expand_joined boxConfig rfl "bd" "m!").2 _ _ hborder hmargin
  obtain ⟨p, q, hp, hq, hjoined⟩ := hexpand Editor.formatters
  refine ⟨rfl, ⟨_, _, hborder, hmargin, hread⟩, hjoined.trans ?_⟩
  have hmapped : (segments boxConfig "bd").map (fun output ↦ (Segment.numbers output).length)
      = .ok 2 := by decide +kernel
  rw [houtput] at hmapped
  have hnumbers : (Segment.numbers output).length = 2 := Except.ok.inj hmapped
  rw [hnumbers] at hq
  have hp' : expand { boxConfig with formatters := Editor.formatters } "bd"
      = .ok "border: $\x7b1:1px\x7d $\x7b2\x7d $\x7b2\x7d;" := by decide +kernel
  have hq' : expand { boxConfig with formatters := Editor.formatters.moved 2 } "m!"
      = .ok "margin: $\x7b3\x7d !important;" := by decide +kernel
  rw [Except.ok.inj (hp.symm.trans hp'), Except.ok.inj (hq.symm.trans hq')]
  decide +kernel

end Expansion

end Shorthand
