import Shorthand.Proofs.Losses
import Shorthand.Stylesheet.Snippet

/-!
# Snippets of nothing but text and fields

The text of a stylesheet snippet may hold backslashes, dollar signs and closing braces only where
they are part of a field, `${1}` or `${1:placeholder}`, whose placeholder holds none of them.  Read
character by character, such a text leads back to where plain text is read.

A snippet is cut at its first colon, which may be that of a field, and blanks around its parts are
dropped.  The template that remains is still a text that leads back to plain text, though perhaps
from the inside of a placeholder.

* `Snippet.FieldsOnly` : texts with active characters in fields only.
* `Snippet.inactive_of_read?` : the fields that are read from such a text have no others in their
  placeholders.
* `Snippet.closed_of_mem_template` : placeholders of templates are closed where they were meant to
  be.
* `Snippet.inactive_of_mem_template` : if the property holds no active characters, then no
  placeholder does.
-/

set_option autoImplicit false

namespace Shorthand.Stylesheet.Snippet

open Editor

/-! ## Texts that lead back to plain text -/

/-- Where a reader of the text of a snippet is: in plain text, after a dollar sign, after the brace
of a field, in its digits or inside of its placeholder. -/
inductive Spot where
  | text
  | dollar
  | brace
  | digits
  | inside
  deriving DecidableEq

/-- Where the next character leads to, if it may stand there. -/
def Spot.next? (spot : Spot) (c : Char) : Option Spot :=
  match spot with
  | .text => if c = '$' then some .dollar else if isActive c then none else some .text
  | .dollar => if c = '\x7b' then some .brace else none
  | .brace => if Text.isDecimal c then some .digits else none
  | .digits =>
    if Text.isDecimal c then some .digits
    else if c = '\x7d' then some .text
    else if c = ':' then some .inside
    else none
  | .inside => if c = '\x7d' then some .text else if isActive c then none else some .inside

/-- A text that leads from a spot back to plain text. -/
def Leads (spot : Spot) (cs : List Char) : Prop := cs.foldlM Spot.next? spot = some .text

/-- Backslashes, dollar signs and closing braces are parts of fields, with none of them in their
placeholders. -/
def FieldsOnly (s : String) : Prop := Leads .text s.toList

instance (s : String) : Decidable (FieldsOnly s) :=
  inferInstanceAs (Decidable (s.toList.foldlM Spot.next? Spot.text = some .text))

variable {spot : Spot} {cs : List Char}

theorem leads_cons {c : Char} :
    Leads spot (c :: cs) ↔ ∃ next, spot.next? c = some next ∧ Leads next cs := by
  rw [Leads, List.foldlM_cons]
  exact Option.bind_eq_some_iff

theorem leads_append {w : List Char} :
    Leads spot (w ++ cs) ↔ ∃ next, w.foldlM Spot.next? spot = some next ∧ Leads next cs := by
  rw [Leads, List.foldlM_append]
  exact Option.bind_eq_some_iff

namespace Spot

theorem next?_inactive {c : Char} (h : isActive c = false) :
    Spot.text.next? c = some .text ∧ Spot.inside.next? c = some .inside := by
  obtain ⟨-, hdollar, hbrace⟩ := ne_of_inactive h
  simp [next?, h, hdollar, hbrace]

theorem next?_dollar {next : Spot} (h : spot.next? '$' = some next) :
    spot = .text ∧ next = .dollar := by
  have hdecimal : Text.isDecimal '$' = false := by decide
  cases spot <;> simp [next?, hdecimal, isActive] at h
  exact ⟨rfl, h.symm⟩

theorem next?_backslash : spot.next? '\\' = none := by
  have hdecimal : Text.isDecimal '\\' = false := by decide
  cases spot <;> simp [next?, hdecimal, isActive]

/-- Only a closing brace leads back to plain text. -/
theorem eq_text_of_next? {c : Char} (h : spot.next? c = some .text) (hc : c ≠ '\x7d') :
    spot = .text := by
  cases spot with
  | text => rfl
  | dollar | brace => simp [next?] at h
  | digits | inside =>
    simp only [next?, hc, if_false] at h
    split at h <;> simp at h

end Spot

/-! ## Cutting and trimming -/

theorem isActive_of_isBlank {c : Char} (h : Text.isBlank c = true) : isActive c = false := by
  rw [← Bool.not_eq_true, isActive_iff]
  rintro (rfl | rfl | rfl) <;> exact absurd h (by decide)

/-- The spots at which a template may begin. -/
def Spot.Open (spot : Spot) : Prop := spot = .text ∨ spot = .inside

theorem Spot.Open.next? (h : spot.Open) {c : Char} (hc : isActive c = false) :
    spot.next? c = some spot := by
  rcases h with rfl | rfl
  · exact (next?_inactive hc).1
  · exact (next?_inactive hc).2

/-- Text without active characters leads nowhere else. -/
theorem Spot.Open.foldlM (h : spot.Open) {w : List Char} (hw : ∀ c ∈ w, isActive c = false) :
    w.foldlM Spot.next? spot = some spot := by
  induction w with
  | nil => rfl
  | cons c w ih =>
    obtain ⟨hc, hw⟩ := List.forall_mem_cons.1 hw
    rw [List.foldlM_cons, h.next? hc]
    exact ih hw

/-- Blanks lead to plain text only from plain text. -/
theorem eq_text_of_leads_blank {bs : List Char} (hbs : ∀ b ∈ bs, Text.isBlank b = true)
    (h : Leads spot bs) : spot = .text := by
  induction bs generalizing spot with
  | nil => exact Option.some.inj h
  | cons b bs ih =>
    obtain ⟨hb, hbs⟩ := List.forall_mem_cons.1 hbs
    obtain ⟨next, hnext, hleads⟩ := leads_cons.1 h
    obtain rfl := ih hbs hleads
    exact Spot.eq_text_of_next? hnext fun hc ↦ absurd hb (by rw [hc]; decide)

theorem leads_trimChars (hspot : spot.Open) (h : Leads spot cs) :
    Leads spot (Text.trimChars cs) := by
  have hfront : Leads spot (cs.dropWhile Text.isBlank) := by
    rw [← List.takeWhile_append_dropWhile (p := Text.isBlank) (l := cs)] at h
    obtain ⟨next, hnext, hleads⟩ := leads_append.1 h
    rw [hspot.foldlM fun c hc ↦ isActive_of_isBlank (List.mem_takeWhile_imp hc)] at hnext
    obtain rfl := Option.some.inj hnext
    exact hleads
  rw [Text.trimChars]
  generalize cs.dropWhile Text.isBlank = ds at hfront
  have hsplit : (ds.reverse.dropWhile Text.isBlank).reverse
      ++ (ds.reverse.takeWhile Text.isBlank).reverse = ds := by
    rw [← List.reverse_append, List.takeWhile_append_dropWhile, List.reverse_reverse]
  rw [← hsplit] at hfront
  obtain ⟨next, hnext, hblank⟩ := leads_append.1 hfront
  obtain rfl := eq_text_of_leads_blank
    (fun b hb ↦ List.mem_takeWhile_imp (List.mem_reverse.1 hb)) hblank
  exact hnext

/-- Characters that trimming drops are blanks. -/
theorem mem_trimChars_or_isBlank {c : Char} (h : c ∈ cs) :
    c ∈ Text.trimChars cs ∨ Text.isBlank c = true := by
  have hsplit : ∀ {ds : List Char}, c ∈ ds →
      c ∈ ds.dropWhile Text.isBlank ∨ Text.isBlank c = true := by
    intro ds hc
    rw [← List.takeWhile_append_dropWhile (p := Text.isBlank) (l := ds)] at hc
    rcases List.mem_append.1 hc with hc | hc
    · exact .inr (List.mem_takeWhile_imp hc)
    · exact .inl hc
  rcases hsplit h with h | h
  · rcases hsplit (List.mem_reverse.2 h) with h | h
    · exact .inl (List.mem_reverse.2 h)
    · exact .inr h
  · exact .inr h

theorem mem_of_mem_trimChars {c : Char} (h : c ∈ Text.trimChars cs) : c ∈ cs :=
  (List.dropWhile_sublist _).subset
    (List.mem_reverse.1 ((List.dropWhile_sublist _).subset (List.mem_reverse.1 h)))

/-- After the colon at which a text is cut, the reader is in plain text or inside a placeholder: in
plain text if there was nothing else before it. -/
theorem leads_of_splitColon {name rest : List Char} (h : splitColon cs = (name, some rest))
    (hcs : Leads .text cs) : (∃ spot : Spot, spot.Open ∧ Leads spot rest) ∧
      ((∀ c ∈ name, isActive c = false) → Leads .text rest) := by
  have hsplit : cs = name ++ ':' :: rest := by
    rw [splitColon] at h
    split at h
    · cases h
    · next colon tail hdrop =>
      obtain ⟨rfl, rfl⟩ : cs.takeWhile (· != ':') = name ∧ tail = rest := by simpa using h
      have hcolon := List.head_dropWhile_not (· != ':') (l := cs) (by simp [hdrop])
      simp only [hdrop, List.head_cons, bne_eq_false_iff_eq] at hcolon
      rw [hcolon] at hdrop
      rw [← hdrop, List.takeWhile_append_dropWhile]
  rw [hsplit] at hcs
  obtain ⟨before, hbefore, hleads⟩ := leads_append.1 hcs
  obtain ⟨after, hafter, hrest⟩ := leads_cons.1 hleads
  have hdecimal : Text.isDecimal ':' = false := by decide
  constructor
  · refine ⟨after, ?_, hrest⟩
    cases before <;> simp [Spot.next?, hdecimal, isActive] at hafter
    · exact .inl hafter.symm
    · exact .inr hafter.symm
    · exact .inr hafter.symm
  · intro hname
    rw [Spot.Open.foldlM (.inl rfl) hname] at hbefore
    obtain rfl := Option.some.inj hbefore
    have hcolon : Spot.text.next? ':' = some .text := by decide
    obtain rfl := Option.some.inj (hcolon.symm.trans hafter)
    exact hrest

/-! ## Fields -/

/-- The braces that are open at a spot. -/
def Spot.opened : Spot → Nat
  | .text | .dollar => 0
  | .brace | .digits | .inside => 1

/-- A text that leads back to plain text closes no more braces than are open. -/
theorem placeholder?_eq_none (h : Leads spot cs) (depth : Nat) :
    placeholder? (depth + spot.opened) cs = none := by
  induction cs generalizing spot depth with
  | nil => rw [placeholder?]
  | cons c cs ih =>
    obtain ⟨next, hnext, hcs⟩ := leads_cons.1 h
    have hdecimal : Text.isDecimal '\x7b' = false ∧ Text.isDecimal '\x7d' = false := by decide
    rw [placeholder?.eq_def]
    by_cases hclose : c = '\x7d'
    · -- The brace closes that of a field.
      subst hclose
      have hspot : spot.opened = 1 ∧ next = .text := by
        cases spot <;> simp [Spot.next?, hdecimal, isActive] at hnext <;>
          exact ⟨rfl, hnext.symm⟩
      rw [hspot.1]
      simpa [hspot.2, Spot.opened] using ih hcs depth
    · by_cases hopen : c = '\x7b'
      · subst hopen
        have hdepth : ∃ depth', depth + spot.opened + 1 = depth' + next.opened := by
          cases spot <;> simp [Spot.next?, hdecimal, isActive] at hnext <;>
            subst hnext <;> simp [Spot.opened]
        obtain ⟨depth', hdepth⟩ := hdepth
        simpa [hdepth] using ih hcs depth'
      · have hopened : spot.opened = next.opened := by
          cases spot with
          | dollar => simp [Spot.next?, hopen] at hnext
          | text | brace | digits | inside =>
            simp only [Spot.next?, hclose, if_false] at hnext
            split_ifs at hnext
            all_goals
              obtain rfl := Option.some.inj hnext
              rfl
        simpa [hclose, hopen, hopened] using ih hcs depth

/-- The placeholder that is read from inside a placeholder is free of active characters. -/
theorem inactive_of_placeholder? {inner : List Char} (h : Leads .inside cs)
    (hinner : placeholder? 0 cs = some inner) : ∀ c ∈ inner, isActive c = false := by
  induction cs generalizing inner with
  | nil => simp [placeholder?] at hinner
  | cons c cs ih =>
    obtain ⟨next, hnext, hcs⟩ := leads_cons.1 h
    rw [placeholder?.eq_def] at hinner
    by_cases hclose : c = '\x7d'
    · subst hclose
      obtain rfl : inner = [] := by simpa using hinner.symm
      simp
    · have hc : isActive c = false ∧ next = .inside := by
        simp only [Spot.next?, hclose, if_false] at hnext
        split_ifs at hnext with hactive
        exact ⟨by simpa using hactive, (Option.some.inj hnext).symm⟩
      obtain ⟨hc, rfl⟩ := hc
      by_cases hopen : c = '\x7b'
      · subst hopen
        have hnone : placeholder? 1 cs = none := placeholder?_eq_none hcs 0
        simp [hnone] at hinner
      · obtain ⟨tail, htail, rfl⟩ : ∃ tail, placeholder? 0 cs = some tail ∧ c :: tail = inner := by
          simpa [hclose, hopen] using hinner
        exact List.forall_mem_cons.2 ⟨hc, ih hcs htail⟩

/-- The fields that are read from a text that leads back to plain text hold no active characters. -/
theorem inactive_of_read? {f : Field} {size : Nat} (h : Leads spot cs)
    (hread : Field.read? cs = some (f, size)) : ∀ c ∈ f.placeholder.toList, isActive c = false := by
  rw [Field.read?.eq_def] at hread
  split at hread
  · next after =>
    obtain ⟨_, hdollar, h⟩ := leads_cons.1 h
    obtain ⟨-, rfl⟩ := Spot.next?_dollar hdollar
    obtain ⟨next, hbrace, h⟩ := leads_cons.1 h
    obtain rfl : .brace = next := by simpa [Spot.next?] using hbrace
    have hdigits : ∀ ds : List Char, Leads .digits ds →
        Leads .digits (ds.dropWhile Text.isDecimal) := by
      intro ds
      induction ds with
      | nil => exact fun h ↦ h
      | cons d ds ih =>
        intro h
        rw [List.dropWhile_cons]
        split
        · next hd =>
          obtain ⟨next, hnext, hds⟩ := leads_cons.1 h
          obtain rfl : .digits = next := by simpa [Spot.next?, hd] using hnext
          exact ih hds
        · exact h
    have hrest : Leads .digits (after.dropWhile Text.isDecimal) := by
      cases after with
      | nil => cases h
      | cons d ds =>
        obtain ⟨next, hnext, hds⟩ := leads_cons.1 h
        obtain ⟨hd, rfl⟩ : Text.isDecimal d = true ∧ .digits = next := by
          simpa [Spot.next?] using hnext
        rw [List.dropWhile_cons_of_pos hd]
        exact hdigits ds hds
    dsimp only at hread
    split at hread
    · cases hread
    · split at hread
      · cases hread
        simp
      · next rest hcolon =>
        rw [hcolon] at hrest
        obtain ⟨next, hnext, hrest⟩ := leads_cons.1 hrest
        have hdecimal : Text.isDecimal ':' = false := by decide
        obtain rfl : .inside = next := by simpa [Spot.next?, hdecimal] using hnext
        obtain ⟨inner, hinner, hf⟩ := Option.map_eq_some_iff.1 hread
        cases hf
        rw [String.toList_ofList]
        exact inactive_of_placeholder? hrest hinner
      · cases hread
  · cases hread

/-! ## Alternatives -/

theorem hasMarker_tail {c : Char} (h : hasMarker (c :: cs) = false) : hasMarker cs = false := by
  rw [hasMarker.eq_def] at h
  split at h
  · cases h
  · next heq =>
    obtain ⟨-, rfl⟩ := List.cons.inj heq
    exact h
  · next heq => cases heq

/-- Where no field begins, there are neither backslashes nor dollar signs. -/
theorem quiet_of_leads (h : Leads spot cs) (hmarker : hasMarker cs = false) :
    ∀ c ∈ cs, c ≠ '\\' ∧ c ≠ '$' := by
  induction cs generalizing spot with
  | nil => simp
  | cons c cs ih =>
    obtain ⟨next, hnext, hcs⟩ := leads_cons.1 h
    refine List.forall_mem_cons.2 ⟨⟨?_, ?_⟩, ih hcs (hasMarker_tail hmarker)⟩
    · rintro rfl
      rw [Spot.next?_backslash] at hnext
      cases hnext
    · rintro rfl
      obtain ⟨-, rfl⟩ := Spot.next?_dollar hnext
      cases cs with
      | nil => cases hcs
      | cons d cs =>
        obtain ⟨next, hnext, -⟩ := leads_cons.1 hcs
        obtain ⟨rfl, -⟩ : d = '\x7b' ∧ .brace = next := by simpa [Spot.next?] using hnext
        cases hmarker

/-- Plain text where no field begins holds no active characters. -/
theorem inactive_of_leads (h : Leads .text cs) (hmarker : hasMarker cs = false) :
    ∀ c ∈ cs, isActive c = false := by
  have hquiet := quiet_of_leads h hmarker
  induction cs with
  | nil => simp
  | cons c cs ih =>
    obtain ⟨⟨-, hdollar⟩, hquiet⟩ := List.forall_mem_cons.1 hquiet
    obtain ⟨next, hnext, hcs⟩ := leads_cons.1 h
    obtain ⟨hc, rfl⟩ : isActive c = false ∧ .text = next := by
      simpa [Spot.next?, hdollar] using hnext
    exact List.forall_mem_cons.2 ⟨hc, ih hcs (hasMarker_tail hmarker) hquiet⟩

/-- Alternatives are parts of the template. -/
theorem mem_of_mem_alternatives {a : String} (ha : a ∈ alternatives cs) {c : Char}
    (hc : c ∈ a.toList) : c ∈ cs := by
  obtain ⟨w, hw, rfl⟩ := List.mem_map.1 ha
  obtain ⟨piece, hpiece, rfl⟩ := List.mem_map.1 (List.mem_of_mem_filter hw)
  rw [String.toList_ofList] at hc
  have hsubset : ∀ pieces : List (List Char), piece ∈ pieces →
      c ∈ ['|'].intercalate pieces := by
    intro pieces hmem
    induction pieces with
    | nil => cases hmem
    | cons first pieces ih =>
      cases pieces with
      | nil =>
        obtain rfl := List.mem_singleton.1 hmem
        simpa using mem_of_mem_trimChars hc
      | cons second pieces =>
        rw [List.intercalate_cons_cons]
        rcases List.mem_cons.1 hmem with rfl | hmem
        · simp [mem_of_mem_trimChars hc]
        · simp [ih hmem]
  simpa using hsubset _ hpiece

/-- A placeholder without backslashes and dollar signs is closed where it was meant to be. -/
theorem closed_of_quiet {placeholder : String}
    (h : ∀ c ∈ placeholder.toList, c ≠ '\\' ∧ c ≠ '$') : Closed placeholder := by
  intro _
  rw [Nested]
  generalize placeholder.toList = w at h
  induction w with
  | nil => rfl
  | cons c w ih =>
    obtain ⟨⟨hbackslash, hdollar⟩, hw⟩ := List.forall_mem_cons.1 h
    rw [List.cons_append]
    by_cases hc : c = '\x7d'
    · rw [hc, signs_brace, nested, ih hw, Bool.or_true]
    · rw [signs_inactive (by simp [isActive, hbackslash, hdollar, hc]), nested, ih hw]

/-! ## Templates -/

/-- The fields of a template were read from it, or are its first alternative. -/
theorem mem_template {s : String} {f : Field} (h : f ∈ ((parse s).template.getD []).fields) :
    ∃ name rest, splitColon s.toList = (name, some rest) ∧
      (parse s).property = String.ofList (Text.trimChars name) ∧
      (f ∈ (Value.parse (String.ofList (Text.trimChars rest))).fields ∨
        hasMarker (Text.trimChars rest) = false ∧
          f.placeholder ∈ alternatives (Text.trimChars rest)) := by
  obtain ⟨name, rest?, hsplit⟩ : ∃ name rest?, splitColon s.toList = (name, rest?) := ⟨_, _, rfl⟩
  have hproperty : (parse s).property = String.ofList (Text.trimChars name) := by
    rw [parse, hsplit]
    dsimp only
    split_ifs
    · rfl
    · split <;> rfl
    · rfl
  cases rest? with
  | none =>
    rw [parse, hsplit] at h
    simp [Text.trimChars, Value.fields] at h
  | some rest =>
    refine ⟨name, rest, hsplit, hproperty, ?_⟩
    rw [parse, hsplit] at h
    dsimp only [Option.getD_some] at h
    split_ifs at h with hempty hbars
    · simp [Value.fields] at h
    · right
      split at h
      · simp [Value.fields] at h
      · next first others halternatives =>
        obtain rfl : f = { index := 1, placeholder := first } := by
          simpa [Value.fields] using h
        exact ⟨by simpa using (Bool.and_eq_true_iff.1 hbars).2, by simp [halternatives]⟩
    · exact .inl h

variable {s : String} {f : Field}

/-- **Placeholders of templates are closed where they were meant to be.** -/
theorem closed_of_mem_template (hs : FieldsOnly s)
    (h : f ∈ ((parse s).template.getD []).fields) : Closed f.placeholder := by
  obtain ⟨name, rest, hsplit, -, hf | ⟨hmarker, hf⟩⟩ := mem_template h
  · exact .of_balanced (balanced_of_mem_parse hf)
  · obtain ⟨spot, hopen, hleads⟩ := (leads_of_splitColon hsplit hs).1
    have hquiet := quiet_of_leads (leads_trimChars hopen hleads) hmarker
    exact closed_of_quiet fun c hc ↦ hquiet c (mem_of_mem_alternatives hf hc)

/-- **Placeholders hold no active characters if the property holds none.** -/
theorem inactive_of_mem_template (hs : FieldsOnly s)
    (hproperty : ∀ c ∈ (parse s).property.toList, isActive c = false)
    (h : f ∈ ((parse s).template.getD []).fields) :
    ∀ c ∈ f.placeholder.toList, isActive c = false := by
  obtain ⟨name, rest, hsplit, heq, hf⟩ := mem_template h
  have hname : ∀ c ∈ name, isActive c = false := by
    intro c hc
    rcases mem_trimChars_or_isBlank hc with hc | hblank
    · exact hproperty c (by rwa [heq, String.toList_ofList])
    · exact isActive_of_isBlank hblank
  have hleads := leads_trimChars (.inl rfl) ((leads_of_splitColon hsplit hs).2 hname)
  rcases hf with hf | ⟨hmarker, hf⟩
  · obtain ⟨cs, size, ⟨before, hcs⟩, hread⟩ := Value.read?_of_mem_parse hf
    rw [String.toList_ofList] at hcs
    rw [← hcs] at hleads
    obtain ⟨spot, -, hleads⟩ := leads_append.1 hleads
    exact inactive_of_read? hleads hread
  · have hinactive := inactive_of_leads hleads hmarker
    exact fun c hc ↦ hinactive c (mem_of_mem_alternatives hf hc)

end Shorthand.Stylesheet.Snippet
