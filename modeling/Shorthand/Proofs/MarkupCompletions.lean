import Shorthand.Proofs.Filling
import Shorthand.Proofs.Formatting
import Shorthand.Proofs.Losses

/-!
# Markup as a completion

All text of a markup abbreviation is escaped for an editor, and the layout holds nothing that would
have to be.  What is not escaped are placeholders.  Their braces are in pairs, so each is closed
where it was meant to be; but a backslash, a dollar sign or a brace in it is read once more.

* `Html.inactive_of_isLayout` : layout holds no active characters.
* `Expansion.markup_inserted_iff` : when a markup completion shows the plain output.
* `Expansion.placeholder_becomes_variable` : it need not.
-/

set_option autoImplicit false

namespace Shorthand

/-- Layout holds no active characters if line break and indentation do not. -/
theorem Markup.Html.inactive_of_isLayout {c : Config}
    (hindent : ∀ ch ∈ c.indent.toList, Editor.isActive ch = false)
    (hnewline : ∀ ch ∈ c.newline.toList, Editor.isActive ch = false) {output : String}
    (h : IsLayout c.htmlStyle output) : ∀ ch ∈ output.toList, Editor.isActive ch = false :=
  forall_mem_of_isLayout (by simp [signs, Editor.isActive]) hnewline hindent h

namespace Expansion

open Editor

/-- **When a markup completion shows the plain output.**  If expansion gives a plain output, it
gives one for an editor; and what the editor inserts is the plain output exactly if every
placeholder, taken by itself, is inserted as it was written.  That is so for placeholders without
active characters. -/
theorem markup_inserted_iff (c : Config) (hmarkup : c.grammar = .markup)
    (hindent : ∀ ch ∈ c.indent.toList, isActive ch = false)
    (hnewline : ∀ ch ∈ c.newline.toList, isActive ch = false) (s p : String)
    (h : expand { c with formatters := {} } s = .ok p) :
    ∃ output q, segments c s = .ok output ∧
      expand { c with formatters := formatters } s = .ok q ∧
      (inserted? q = some p ↔ ∀ number placeholder, .stop number placeholder ∈ output →
        inserted? (tabStop number placeholder) = some placeholder) ∧
      ((∀ number placeholder, .stop number placeholder ∈ output →
        ∀ ch ∈ placeholder.toList, isActive ch = false) → inserted? q = some p) := by
  obtain ⟨output, houtput, rfl⟩ := map_eq_ok_iff.1 h
  have hstops : ∀ number placeholder, .stop number placeholder ∈ output → Closed placeholder :=
    fun _ _ hmem ↦ .of_balanced (placeholder_of_segments (F := Balanced) rfl
      (fun _ _ ↦ balanced_of_mem_parse) hmarkup houtput hmem)
  have hraw : ∀ raw, .raw raw ∈ output → ∀ ch ∈ raw.toList, isActive ch = false := by
    intro raw hmem
    obtain ⟨nodes, hnodes, hwrite⟩ := (segments_eq_ok_iff hmarkup).1 houtput
    rw [Markup.Html.write] at hwrite
    split at hwrite
    · cases hwrite
    · cases hwrite
      rw [Markup.Html.segments_eq_marks] at hmem
      exact Markup.Html.inactive_of_isLayout hindent hnewline
        (Markup.Html.laidOut_marks nodes raw (Mark.raw_mem_segments hmem))
  have hiff : inserted? (Segment.render formatters output) = some (Segment.render {} output) ↔
      ∀ number placeholder, .stop number placeholder ∈ output →
        inserted? (tabStop number placeholder) = some placeholder := by
    rw [inserted?_render_iff hstops]
    constructor
    · intro hshows number placeholder hmem
      obtain ⟨before, after, rfl⟩ := List.append_of_mem hmem
      exact hshows _ after (List.suffix_append before _)
    · intro halone segment after hsuffix
      have hmem : segment ∈ output := hsuffix.subset List.mem_cons_self
      cases segment with
      | raw raw => exact shows_raw (hraw raw hmem) after
      | text literal => trivial
      | stop number placeholder => exact halone number placeholder hmem
  refine ⟨output, _, houtput, map_eq_ok_iff.2 ⟨output, houtput, rfl⟩, hiff, fun hinactive ↦ ?_⟩
  exact hiff.2 fun number placeholder hmem ↦
    inserted?_tabStop (hinactive number placeholder hmem) number

/-- A price, with the dollar sign in the text and the time as a tab stop. -/
theorem price_inserted :
    expand { ({} : Config) with formatters := {} } "b\x7b\\$5 $\x7b1:now\x7d\x7d"
        = .ok "<b>$5 now</b>" ∧
      expand { ({} : Config) with formatters := formatters } "b\x7b\\$5 $\x7b1:now\x7d\x7d"
        = .ok "<b>\\$5 $\x7b1:now\x7d</b>" ∧
      inserted? "<b>\\$5 $\x7b1:now\x7d</b>" = some "<b>$5 now</b>" := by
  have h : expand { ({} : Config) with formatters := {} } "b\x7b\\$5 $\x7b1:now\x7d\x7d"
      = .ok "<b>$5 now</b>" := by decide +kernel
  have hq : expand { ({} : Config) with formatters := formatters } "b\x7b\\$5 $\x7b1:now\x7d\x7d"
      = .ok "<b>\\$5 $\x7b1:now\x7d</b>" := by decide +kernel
  have hsegments : segments {} "b\x7b\\$5 $\x7b1:now\x7d\x7d"
      = .ok [.raw "<", .text "b", .raw ">", .text "$5 ", .stop 1 "now", .raw "</", .text "b",
          .raw ">"] := by decide +kernel
  obtain ⟨output, q, houtput, hq', -, hinserted⟩ :=
    markup_inserted_iff {} rfl (by simp [isActive]) (by simp [isActive]) _ _ h
  obtain rfl := Except.ok.inj (houtput.symm.trans hsegments)
  obtain rfl := Except.ok.inj (hq'.symm.trans hq)
  exact ⟨h, hq, hinserted (by simp [isActive])⟩

/-- **A placeholder may become a variable**: the dollar sign in it is not escaped. -/
theorem placeholder_becomes_variable :
    expand {} "\x7b$\x7b1:$x\x7d\x7d" = .ok "$x" ∧
      expand { ({} : Config) with formatters := formatters } "\x7b$\x7b1:$x\x7d\x7d"
        = .ok "$\x7b1:$x\x7d" ∧
      inserted? "$\x7b1:$x\x7d" ≠ some "$x" := by
  exact ⟨by decide +kernel, by decide +kernel, by decide +kernel⟩

end Expansion

end Shorthand
