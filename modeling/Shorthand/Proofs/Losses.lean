import Shorthand.Proofs.Placeholders
import Shorthand.Segment
import Mathlib.Algebra.Order.Group.Nat
import Mathlib.Algebra.Order.Monoid.Prod

/-!
# What an editor loses

Text that is not escaped may lose something when an editor reads it: an escape loses its backslash,
a tab stop all of its characters, and a variable is one thing where there were several characters.
Nothing is ever gained.  Here backslashes count most, since a lost backslash may bring a dollar sign
back that would have begun a variable, and after them the length.

So a completion shows what it was meant to show only if no part of it loses anything where it
stands: what one part loses, no other part can make good.

* `Editor.weight` : what a loss is measured by.
* `Editor.read_append` : a text shows itself or loses something.
* `Editor.Shows` : a segment shows itself where it stands.
* `Editor.inserted?_tabStop` : a placeholder without active characters shows itself.
* `Editor.inserted?_render_iff` : when a completion shows what was to be shown.
-/

set_option autoImplicit false

namespace Shorthand.Editor

/-! ## Losses -/

/-- What is shown is weighed by its backslashes, and by its length where these are equally many. -/
def weight (gs : List Glyph) : ℕ ×ₗ ℕ := toLex (backslashes gs, gs.length)

theorem weight_append (gs gs' : List Glyph) : weight (gs ++ gs') = weight gs + weight gs' := by
  rw [weight, backslashes_append, List.length_append]
  rfl

theorem weight_lt_iff {gs gs' : List Glyph} : weight gs < weight gs' ↔
    backslashes gs < backslashes gs' ∨
      backslashes gs = backslashes gs' ∧ gs.length < gs'.length :=
  Prod.Lex.toLex_lt_toLex

/-- Is this what was to be shown, or was something lost? -/
def NoGain (gs gs' : List Glyph) : Prop := gs = gs' ∨ weight gs < weight gs'

namespace NoGain

variable {gs gs' gs'' : List Glyph}

theorem weight_le (h : NoGain gs gs') : weight gs ≤ weight gs' :=
  h.elim (fun h ↦ le_of_eq (congrArg weight h)) le_of_lt

theorem trans (h : NoGain gs gs') (h' : NoGain gs' gs'') : NoGain gs gs'' := by
  rcases h with rfl | h
  · exact h'
  · exact .inr (lt_of_lt_of_le h h'.weight_le)

theorem cons (h : NoGain gs gs') (g : Glyph) : NoGain (g :: gs) (g :: gs') := by
  refine h.imp (congrArg (g :: ·)) fun h ↦ ?_
  have hcons : ∀ gs, weight (g :: gs) = weight [g] + weight gs := weight_append [g]
  rw [hcons gs, hcons gs']
  exact (add_lt_add_iff_left _).2 h

/-- A backslash more outweighs everything else. -/
theorem of_backslash (h : backslashes gs = backslashes gs') : NoGain gs (.char '\\' :: gs') := by
  refine .inr (weight_lt_iff.2 (.inl ?_))
  rw [backslashes_cons_char, h]
  exact Nat.lt_add_of_pos_left (by decide)

end NoGain

/-! ## Text that is not escaped -/

theorem isActive_iff {c : Char} : isActive c = true ↔ c = '\\' ∨ c = '$' ∨ c = '\x7d' := by
  simp [isActive, or_assoc]

theorem backslashes_cons_of_ne {c : Char} (h : c ≠ '\\') (gs : List Glyph) :
    backslashes (.char c :: gs) = backslashes gs :=
  List.count_cons_of_ne fun heq ↦ h (Glyph.char.inj heq)

/-- Text without backslashes and dollar signs shows itself. -/
theorem read_quiet {w : List Char} (h : ∀ c ∈ w, c ≠ '\\' ∧ c ≠ '$') (cs : List Char) :
    read (w ++ cs) = w.map .char ++ read cs := by
  induction w with
  | nil => rfl
  | cons c w ih =>
    obtain ⟨⟨hbackslash, hdollar⟩, hw⟩ := List.forall_mem_cons.1 h
    rw [List.cons_append, List.map_cons, List.cons_append, ← ih hw]
    by_cases hc : c = '\x7d'
    · rw [hc, read_brace]
    · exact read_inactive (w := [c]) (by simp [isActive, hbackslash, hdollar, hc]) _

theorem backslashes_read_quiet {w : List Char} (h : ∀ c ∈ w, c ≠ '\\' ∧ c ≠ '$')
    (cs : List Char) : backslashes (read (w ++ cs)) = backslashes (read cs) := by
  have hcount : w.count '\\' = 0 := List.count_eq_zero.2 fun hmem ↦ (h _ hmem).1 rfl
  rw [read_quiet h, backslashes_append, backslashes_map_char, hcount, Nat.zero_add]

/-- One placeholder more around it hides nothing but braces. -/
theorem length_shown_succ_le (ss : List Sign) (depth : Nat) :
    (shown (depth + 1) ss).length ≤ (shown depth ss).length := by
  induction ss generalizing depth with
  | nil => simp [shown]
  | cons s ss ih =>
    cases s with
    | plain c | escaped c | name braced chars =>
      simpa only [shown, List.length_cons, Nat.add_le_add_iff_right] using ih depth
    | stop braced digits => simpa only [shown] using ih depth
    | opening digits =>
      rw [shown, shown]
      split
      · exact ih (depth + 1)
      · simpa only [List.length_append, Nat.add_le_add_iff_left] using ih depth
    | closing =>
      cases depth with
      | zero => simp [shown]
      | succ depth => simpa only [shown] using ih depth

theorem Sign.quiet_of_isDigit {c : Char} (h : c.isDigit = true) : c ≠ '\\' ∧ c ≠ '$' := by
  constructor <;> rintro rfl <;> exact absurd h (by decide)

theorem Sign.quiet_of_isNameChar {c : Char} (h : isNameChar c = true) : c ≠ '\\' ∧ c ≠ '$' := by
  constructor <;> rintro rfl <;> exact absurd h (by decide)

/-- What a sign has after its dollar sign is quiet. -/
theorem Sign.quiet_of_spelling {s : Sign} (hs : s.WellFormed) {w : List Char}
    (hspelling : s.spelling = '$' :: w) : ∀ c ∈ w, c ≠ '\\' ∧ c ≠ '$' := by
  have hbraced : ∀ chars : List Char, (∀ c ∈ chars, c ≠ '\\' ∧ c ≠ '$') → ∀ last ∈ ['\x7d', ':'],
      ∀ c ∈ '\x7b' :: (chars ++ [last]), c ≠ '\\' ∧ c ≠ '$' := by
    intro chars hchars last hlast
    rw [List.forall_mem_cons, List.forall_mem_append, List.forall_mem_singleton]
    refine ⟨by decide, hchars, ?_⟩
    constructor <;> rintro rfl <;> simp at hlast
  cases s with
  | plain c =>
    obtain ⟨-, rfl⟩ := List.cons.inj hspelling
    simp
  | escaped c => cases hspelling
  | stop braced digits =>
    have hdigits := fun c hc ↦ Sign.quiet_of_isDigit (hs.2 c hc)
    cases braced with
    | false => exact (List.cons.inj hspelling).2 ▸ hdigits
    | true => exact (List.cons.inj hspelling).2 ▸ hbraced digits hdigits _ (by simp)
  | name braced chars =>
    have hchars := fun c hc ↦ Sign.quiet_of_isNameChar (hs.2 c hc)
    cases braced with
    | false => exact (List.cons.inj hspelling).2 ▸ hchars
    | true => exact (List.cons.inj hspelling).2 ▸ hbraced chars hchars _ (by simp)
  | opening digits =>
    have hdigits := fun c hc ↦ Sign.quiet_of_isDigit (hs.2 c hc)
    exact (List.cons.inj hspelling).2 ▸ hbraced digits hdigits _ (by simp)
  | closing => cases hspelling

/-- A sign that a dollar sign begins is not longer in what is shown than without the dollar sign. -/
theorem read_dollar (cs : List Char) : read ('$' :: cs) = .char '$' :: read cs ∨
    (backslashes (read ('$' :: cs)) = backslashes (read cs) ∧
      (read ('$' :: cs)).length ≤ (read cs).length) := by
  obtain ⟨rest, hsplit, hsigns, -⟩ := signs_cons '$' cs
  have hwf := (Sign.begins_first '$' cs).1
  generalize Sign.first '$' cs = s at hsplit hsigns hwf
  obtain ⟨w, hspelling, rfl⟩ : ∃ w, s.spelling = '$' :: w ∧ cs = w ++ rest := by
    obtain ⟨d, w, hspelling⟩ := List.exists_cons_of_ne_nil s.spelling_ne_nil
    rw [hspelling] at hsplit
    obtain ⟨rfl, rfl⟩ := List.cons.inj hsplit
    exact ⟨w, hspelling, rfl⟩
  have hquiet := Sign.quiet_of_spelling hwf hspelling
  have hshown := read_quiet hquiet rest
  have hcount := backslashes_read_quiet hquiet rest
  cases s with
  | plain c =>
    obtain ⟨rfl, rfl⟩ := List.cons.inj hspelling
    left
    rw [read, hsigns, shown, ← read]
    rfl
  | escaped c => cases hspelling
  | stop braced digits =>
    right
    have hread : read ('$' :: (w ++ rest)) = read rest := by rw [read, hsigns, shown, ← read]
    rw [hread, hcount, hshown, List.length_append]
    exact ⟨rfl, Nat.le_add_left _ _⟩
  | name braced chars =>
    right
    have hread : read ('$' :: (w ++ rest)) = .name chars :: read rest := by
      rw [read, hsigns, shown, ← read]
    have hpos : 0 < w.length := by
      cases braced with
      | false => exact (List.cons.inj hspelling).2 ▸ List.length_pos_iff.2 hwf.1
      | true => exact (List.cons.inj hspelling).2 ▸ Nat.succ_pos _
    rw [hread, hcount, backslashes_cons_name, hshown, List.length_append, List.length_map,
      List.length_cons]
    exact ⟨rfl, by omega⟩
  | opening digits =>
    rw [read, hsigns, shown]
    split
    · -- What follows is inside of the placeholder, so it shows fewer braces.
      right
      have hwf' := wellFormed_of_mem_signs rest
      have hone := backslashes_shown hwf' (0 + 1)
      have hzero := backslashes_shown hwf' 0
      refine ⟨?_, ?_⟩
      · rw [hcount, read]
        omega
      · rw [hshown, List.length_append]
        exact Nat.le_add_left_of_le (length_shown_succ_le _ 0)
    · left
      obtain ⟨-, rfl⟩ := List.cons.inj hspelling
      rw [hshown]
      rfl
  | closing => cases hspelling

theorem signs_escaped {c : Char} (h : isActive c = true) (cs : List Char) :
    signs ('\\' :: c :: cs) = .escaped c :: signs cs :=
  signs_eq_cons (by simp [Sign.first, h]) rfl

theorem read_escaped {c : Char} (h : isActive c = true) (cs : List Char) :
    read ('\\' :: c :: cs) = .char c :: read cs := by
  rw [read, signs_escaped h, shown, ← read]

/-- A backslash that escapes nothing shows itself. -/
theorem read_backslash {cs : List Char} (h : ∀ c ∈ cs.head?, isActive c = false) :
    read ('\\' :: cs) = .char '\\' :: read cs := by
  have hsigns : signs ('\\' :: cs) = .plain '\\' :: signs cs := by
    refine signs_eq_cons ?_ rfl
    cases cs with
    | nil => rfl
    | cons c cs => simp [Sign.first, h c rfl]
  rw [read, hsigns, shown, ← read]

/-- **Nothing is gained**: a character shows itself, or something is lost. -/
theorem read_cons : ∀ (c : Char) (cs : List Char), NoGain (read (c :: cs)) (.char c :: read cs)
  | c, cs => by
    by_cases hc : isActive c = false
    · exact .inl (read_inactive (w := [c]) (by simpa using hc) cs)
    · obtain rfl | rfl | rfl := isActive_iff.1 (by simpa using hc)
      · match cs with
        | [] => exact .inl (read_backslash (by simp))
        | d :: cs =>
          by_cases hd : isActive d = false
          · exact .inl (read_backslash (by simpa using hd))
          · rw [read_escaped (by simpa using hd)]
            obtain rfl | rfl | rfl := isActive_iff.1 (by simpa using hd)
            · -- Of two backslashes one is lost, unless what follows could have been escaped.
              refine NoGain.cons ?_ _
              match cs with
              | [] => exact .of_backslash rfl
              | e :: cs =>
                by_cases he : isActive e = false
                · rw [read_backslash (by simpa using he)]
                  exact .of_backslash rfl
                · rw [read_escaped (by simpa using he)]
                  exact read_cons e cs
            · refine .of_backslash ?_
              rw [backslashes_cons_of_ne (by decide)]
              rcases read_dollar cs with h | ⟨h, -⟩
              · rw [h, backslashes_cons_of_ne (by decide)]
              · rw [h]
            · rw [read_brace]
              exact .of_backslash rfl
      · rcases read_dollar cs with h | ⟨hcount, hlength⟩
        · exact .inl h
        · refine .inr (weight_lt_iff.2 (.inr ⟨?_, Nat.lt_succ_of_le hlength⟩))
          rw [hcount, backslashes_cons_of_ne (by decide)]
      · exact .inl (read_brace cs)

/-- **A text shows itself or loses something**, whatever comes after it. -/
theorem read_append (w cs : List Char) :
    NoGain (read (w ++ cs)) (w.map .char ++ read cs) := by
  induction w with
  | nil => exact .inl rfl
  | cons c w ih => exact (read_cons c (w ++ cs)).trans (ih.cons (.char c))

/-! ## Segments -/

/-- A segment shows itself where it stands, that is, in front of others. -/
def Shows : Segment → List Segment → Prop
  | .raw output, after =>
    read (output.toList ++ (Segment.render formatters after).toList)
      = output.toList.map .char ++ read (Segment.render formatters after).toList
  | .text _, _ => True
  | .stop number placeholder, _ => inserted? (tabStop number placeholder) = some placeholder

/-- Without escapes in it, is a placeholder closed where it was meant to be? -/
def Closed (placeholder : String) : Prop := escapes placeholder = 0 → Nested placeholder

theorem Closed.of_balanced {placeholder : String} (h : Balanced placeholder) :
    Closed placeholder := nested_of_balanced h

/-- A tab stop loses as many backslashes as there are escapes in its placeholder; without escapes it
is read by itself. -/
theorem read_tabStop_append {placeholder : String} (h : Closed placeholder) (number : Nat)
    (cs : List Char) :
    weight (read ((tabStop number placeholder).toList ++ cs))
        < weight (placeholder.toList.map .char ++ read cs) ∨
      (read (tabStop number placeholder).toList).length ≤ placeholder.length ∧
        backslashes (read (tabStop number placeholder).toList)
          = backslashes (placeholder.toList.map .char) ∧
        read ((tabStop number placeholder).toList ++ cs)
          = read (tabStop number placeholder).toList ++ read cs := by
  have hcount := backslashes_tabStop number placeholder
  by_cases hescapes : escapes placeholder = 0
  · obtain ⟨hlength, hread⟩ := read_tabStop (h hescapes) number
    rw [hescapes, Nat.add_zero] at hcount
    exact .inr ⟨hlength, by rw [hcount, backslashes_map_char], hread cs⟩
  · refine .inl (weight_lt_iff.2 (.inl ?_))
    have htotal := backslashes_read ((tabStop number placeholder).toList ++ cs)
    have hrest := backslashes_read cs
    rw [countP_signs_tabStop, List.count_append, count_tabStop] at htotal
    rw [backslashes_append, backslashes_map_char]
    omega

/-- What is to be shown of a segment. -/
abbrev plainly (s : Segment) : List Glyph := (Segment.format {} s).toList.map .char

theorem plainly_render_cons (s : Segment) (ss : List Segment) :
    (Segment.render {} (s :: ss)).toList.map Glyph.char
      = plainly s ++ (Segment.render {} ss).toList.map .char := by
  rw [Segment.render_cons, String.toList_append, List.map_append]

/-- A segment does not gain.  If it loses nothing, then it shows something of the same length by
itself; and if this is itself, it shows itself. -/
theorem read_segment {s : Segment} (hs : ∀ number placeholder, s = .stop number placeholder →
      Closed placeholder) (after : List Segment) :
    weight (read (Segment.render formatters (s :: after)).toList)
        < weight (plainly s) + weight (read (Segment.render formatters after).toList) ∨
      ∃ gs : List Glyph, gs.length = (plainly s).length ∧ weight gs = weight (plainly s) ∧
        read (Segment.render formatters (s :: after)).toList
          = gs ++ read (Segment.render formatters after).toList ∧
        (gs = plainly s → Shows s after) := by
  rw [Segment.render_cons, String.toList_append, ← weight_append]
  cases s with
  | raw output =>
    rcases read_append output.toList (Segment.render formatters after).toList with h | h
    · exact .inr ⟨_, rfl, rfl, h, fun _ ↦ h⟩
    · exact .inl h
  | text literal => exact .inr ⟨_, rfl, rfl, read_escape literal _, fun _ ↦ trivial⟩
  | stop number placeholder =>
    have hformat : Segment.format formatters (.stop number placeholder)
        = tabStop number placeholder := rfl
    have hplain : (plainly (.stop number placeholder)).length = placeholder.length :=
      List.length_map _
    rcases read_tabStop_append (hs number placeholder rfl) number
      (Segment.render formatters after).toList with h | ⟨hlength, hcount, hread⟩
    · exact .inl h
    · rcases hlength.lt_or_eq with hlt | heq
      · refine .inl ?_
        rw [hformat, hread, weight_append, weight_append]
        exact (add_lt_add_iff_right _).2 (weight_lt_iff.2 (.inr ⟨hcount, hplain ▸ hlt⟩))
      · have hlength := heq.trans hplain.symm
        refine .inr ⟨_, hlength, ?_, hread, fun h ↦ inserted?_eq_some_iff.2 h⟩
        rw [weight, hcount, hlength]
        rfl

/-- A segment that shows itself is read back. -/
theorem read_of_shows {s : Segment} (hs : ∀ number placeholder, s = .stop number placeholder →
      Closed placeholder) {after : List Segment} (h : Shows s after) :
    read (Segment.render formatters (s :: after)).toList
      = plainly s ++ read (Segment.render formatters after).toList := by
  rw [Segment.render_cons, String.toList_append]
  cases s with
  | raw output => exact h
  | text literal => exact read_escape literal _
  | stop number placeholder =>
    have halone := inserted?_eq_some_iff.1 h
    have hcount := backslashes_tabStop number placeholder
    rw [halone, backslashes_map_char] at hcount
    have hnested := hs number placeholder rfl (by omega)
    refine ((read_tabStop hnested number).2 _).trans ?_
    rw [halone]
    rfl

/-- A placeholder without active characters shows itself. -/
theorem inserted?_tabStop {placeholder : String}
    (h : ∀ c ∈ placeholder.toList, isActive c = false) (number : Nat) :
    inserted? (tabStop number placeholder) = some placeholder := by
  have hsigns : ∀ w : List Char, (∀ c ∈ w, isActive c = false) →
      signs (w ++ ['\x7d']) = w.map .plain ++ [.closing] := by
    intro w hw
    induction w with
    | nil => rfl
    | cons c w ih =>
      obtain ⟨hc, hw⟩ := List.forall_mem_cons.1 hw
      rw [List.cons_append, signs_inactive hc, ih hw]
      rfl
  have hcloses : ∀ w : List Char, closes 0 (w.map .plain ++ [.closing]) = true := by
    intro w
    induction w with
    | nil => rfl
    | cons c w ih => exact ih
  have hshown : ∀ w : List Char,
      shown 1 (w.map .plain ++ [.closing]) = w.map .char := by
    intro w
    induction w with
    | nil => rfl
    | cons c w ih => rw [List.map_cons, List.cons_append, shown, ih, List.map_cons]
  have htext := signs_tabStop number placeholder []
  rw [signs_nil, List.append_nil, List.append_nil] at htext
  rw [inserted?_eq_some_iff, read, htext]
  split
  · next hempty =>
    obtain rfl := String.isEmpty_iff.1 hempty
    rfl
  · rw [hsigns _ h, shown, hcloses, if_pos rfl, hshown]

/-- A part of output without active characters shows itself wherever it stands. -/
theorem shows_raw {output : String} (h : ∀ c ∈ output.toList, isActive c = false)
    (after : List Segment) : Shows (.raw output) after :=
  read_inactive h _

/-- **When a completion shows what was to be shown**: exactly when each of its segments shows itself
where it stands. -/
theorem inserted?_render_iff {segments : List Segment}
    (h : ∀ number placeholder, .stop number placeholder ∈ segments → Closed placeholder) :
    inserted? (Segment.render formatters segments) = some (Segment.render {} segments) ↔
      ∀ s after, s :: after <:+ segments → Shows s after := by
  rw [inserted?_eq_some_iff]
  suffices hmain : weight (read (Segment.render formatters segments).toList)
        ≤ weight ((Segment.render {} segments).toList.map .char) ∧
      (read (Segment.render formatters segments).toList
          = (Segment.render {} segments).toList.map .char ↔
        ∀ s after, s :: after <:+ segments → Shows s after) from hmain.2
  induction segments with
  | nil => exact ⟨le_refl _, iff_of_true rfl (by simp)⟩
  | cons s after ih =>
    obtain ⟨hs, hafter⟩ : (∀ number placeholder, s = .stop number placeholder →
        Closed placeholder) ∧
        ∀ number placeholder, .stop number placeholder ∈ after → Closed placeholder :=
      ⟨fun n ph hn ↦ h n ph (by simp [hn]), fun n ph hn ↦ h n ph (List.mem_cons_of_mem s hn)⟩
    obtain ⟨hle, hiff⟩ := ih hafter
    have hsuffix : (∀ t rest, t :: rest <:+ s :: after → Shows t rest) ↔
        Shows s after ∧ ∀ t rest, t :: rest <:+ after → Shows t rest := by
      constructor
      · exact fun h ↦ ⟨h s after (List.suffix_refl _),
          fun t rest ht ↦ h t rest (ht.trans (List.suffix_cons s after))⟩
      · rintro ⟨hhead, htail⟩ t rest ht
        rcases List.suffix_cons_iff.1 ht with ht | ht
        · obtain ⟨rfl, rfl⟩ := List.cons.inj ht
          exact hhead
        · exact htail t rest ht
    rw [hsuffix, ← hiff, plainly_render_cons, weight_append]
    have hstep := (add_le_add_iff_left (weight (plainly s))).2 hle
    rcases read_segment hs after with hlt | ⟨gs, hlength, hweight, hread, hshows⟩
    · refine ⟨hlt.le.trans hstep, iff_of_false (fun heq ↦ ?_) fun ⟨hhead, _⟩ ↦ ?_⟩
      · rw [heq, weight_append] at hlt
        exact absurd hstep (not_le_of_gt hlt)
      · rw [read_of_shows hs hhead, weight_append] at hlt
        exact absurd hlt (lt_irrefl _)
    · rw [hread, weight_append, hweight]
      refine ⟨hstep, fun heq ↦ ?_, fun ⟨hhead, htail⟩ ↦ ?_⟩
      · obtain ⟨hgs, hrest⟩ := List.append_inj heq hlength
        exact ⟨hshows hgs, hrest⟩
      · rw [← hread, read_of_shows hs hhead, htail]

end Shorthand.Editor
