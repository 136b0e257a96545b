import Shorthand.Config.Option
import Shorthand.Proofs.Success

/-!
# What options take

An option is set by a JSON value or by a formatter, and it either makes its value of the whole of it
or complains.  There is nothing in between: no truth value passes for a number, no list for a text,
and a list or a table with a single member of the wrong kind is refused like any other value.

Which settings an option takes is best said from the other side, by the settings that values are
written as.

* `Setting.ofText`, `ofCount`, `ofNames`, `ofTable` : how values are written.
* `OptionName.Takes` : the settings that an option takes, and for what.
* `OptionName.validate_eq_ok_iff` : these and no others.
-/

set_option autoImplicit false

namespace Shorthand

namespace Json

theorem string?_eq_some_iff (j : Json) (text : String) :
    j.string? = some text ↔ j = .string text := by
  cases j <;> simp [string?]

theorem strings?_eq_some_iff {j : Json} {names : List String} :
    j.strings? = some names ↔ j = .array (names.map .string) := by
  cases j <;> simp [strings?, mapM_eq_some_iff string?_eq_some_iff]

theorem stringMembers?_eq_some_iff {j : Json} {entries : Table String} :
    j.stringMembers? = some entries
      ↔ j = .object (entries.map fun entry ↦ (entry.1, .string entry.2)) := by
  have hmember : ∀ (member : String × Json) (entry : String × String),
      ((string? member.2).map (member.1, ·)) = some entry
        ↔ member = (entry.1, .string entry.2) := by
    rintro ⟨name, value⟩ ⟨name', text⟩
    simp only [Option.map_eq_some_iff, string?_eq_some_iff, Prod.mk.injEq]
    constructor
    · rintro ⟨_, rfl, rfl, rfl⟩
      exact ⟨rfl, rfl⟩
    · rintro ⟨rfl, rfl⟩
      exact ⟨text, rfl, rfl, rfl⟩
  cases j <;> simp [stringMembers?, mapM_eq_some_iff hmember]

end Json

namespace Setting

/-- A text as a setting. -/
def ofText (text : String) : Setting := .json (.string text)

/-- A number of things as a setting. -/
def ofCount (n : Nat) : Setting := .json (.integer n)

/-- A list of names as a setting. -/
def ofNames (names : List String) : Setting := .json (.array (names.map .string))

/-- A table of texts as a setting. -/
def ofTable (entries : Table String) : Setting :=
  .json (.object (entries.map fun entry ↦ (entry.1, .string entry.2)))

theorem asString_eq_ok_iff {s : Setting} {text : String} :
    s.asString = .ok text ↔ s = ofText text := by
  rw [asString.eq_def, ofText]
  split <;> simp_all

theorem asWord_eq_ok_iff {s : Setting} {text : String} :
    s.asWord = .ok text ↔ s = ofText text ∧ ∀ c ∈ text.toList, Text.isBlank c = false := by
  rw [asWord, bind_eq_ok_iff]
  constructor
  · rintro ⟨word, hword, hblank⟩
    split at hblank
    · cases hblank
    · next hno =>
      obtain rfl := Except.ok.inj hblank
      exact ⟨asString_eq_ok_iff.1 hword, by simpa using hno⟩
  · rintro ⟨hs, hblank⟩
    refine ⟨text, asString_eq_ok_iff.2 hs, ?_⟩
    rw [if_neg (by simpa using hblank)]
    rfl

/-- Where the names of values differ and every value is a choice, a choice is made by its name. -/
theorem asChoice_eq_ok_iff {α : Type} {name : α → String} {choices : List α}
    (hname : Function.Injective name) (hall : ∀ a, a ∈ choices) {s : Setting} {a : α} :
    s.asChoice name choices = .ok a ↔ s = ofText (name a) := by
  have hfind : ∀ text b, (choices.find? fun choice ↦ name choice == text) = some b →
      (b = a ↔ text = name a) := by
    intro text b hb
    obtain rfl : name b = text := by simpa using List.find?_some hb
    exact ⟨fun h ↦ congrArg name h, fun h ↦ hname h⟩
  rw [asChoice.eq_def, ofText]
  split
  · next text =>
    rw [Setting.json.injEq, Json.string.injEq]
    split
    · next b hb => rw [Except.ok.injEq, hfind text b hb]
    · next hnone =>
      refine iff_of_false (fun h ↦ by cases h) ?_
      rintro rfl
      exact List.find?_eq_none.1 hnone a (hall a) (by simp)
  · next hno => exact iff_of_false (fun h ↦ by cases h) (hno (name a))

theorem asCount_eq_ok_iff {s : Setting} {n : Nat} : s.asCount = .ok n ↔ s = ofCount n := by
  rw [asCount.eq_def, ofCount]
  split
  · rw [Except.ok.injEq, Setting.json.injEq, Json.integer.injEq]
    exact Int.ofNat_inj.symm
  · next hno => exact iff_of_false (fun h ↦ by cases h) (hno n)

theorem asPositive_eq_ok_iff {s : Setting} {n : Nat} :
    s.asPositive = .ok n ↔ s = ofCount n ∧ 0 < n := by
  rw [asPositive, bind_eq_ok_iff]
  simp only [asCount_eq_ok_iff]
  constructor
  · rintro ⟨m, hm, hpos⟩
    split at hpos
    · cases hpos
    · next hne =>
      obtain rfl := Except.ok.inj hpos
      exact ⟨hm, Nat.pos_of_ne_zero hne⟩
  · rintro ⟨hs, hpos⟩
    refine ⟨n, hs, ?_⟩
    rw [if_neg (Nat.ne_of_gt hpos)]
    rfl

theorem strings?_json?_eq_some_iff {s : Setting} {given : List String} :
    s.json?.bind Json.strings? = some given ↔ s = ofNames given := by
  rw [ofNames]
  cases s <;> simp [json?, Json.strings?_eq_some_iff]

theorem asNames_eq_ok_iff {s : Setting} {names : List String} :
    s.asNames = .ok names ↔ ∃ given, s = ofNames given ∧ names = sorted given := by
  simp only [← strings?_json?_eq_some_iff, asNames]
  cases s.json?.bind Json.strings? with
  | none => simp
  | some given => simp [eq_comm]

theorem asOrderedNames_eq_ok_iff {s : Setting} {names : List String} :
    s.asOrderedNames = .ok names ↔ ∃ given, s = ofNames given ∧ names = distinct given := by
  simp only [← strings?_json?_eq_some_iff]
  rw [asOrderedNames.eq_def]
  split
  · next items =>
    simp only [json?, Option.bind_some, Json.strings?]
    cases items.mapM Json.string? with
    | none => simp
    | some given => simp [eq_comm]
  · next hno =>
    refine iff_of_false (fun h ↦ by cases h) ?_
    rintro ⟨given, hgiven, -⟩
    exact hno _ (strings?_json?_eq_some_iff.1 hgiven)

theorem asTable_eq_ok_iff {base : Table String} {s : Setting} {t : Table String} :
    s.asTable base = .ok t ↔ ∃ later, s = ofTable later ∧ t = base.merge later := by
  rw [asTable.eq_def]
  split
  · next members =>
    simp only [ofTable, Setting.json.injEq, ← Json.stringMembers?_eq_some_iff]
    cases Json.stringMembers? (.object members) with
    | none => simp
    | some later => simp [eq_comm]
  · next hno =>
    refine iff_of_false (fun h ↦ by cases h) ?_
    rintro ⟨later, hlater, -⟩
    exact hno _ hlater

end Setting

theorem SelfClosing.name_injective : Function.Injective SelfClosing.name := by
  intro a b
  cases a <;> cases b <;> decide

theorem SelfClosing.mem_choices (a : SelfClosing) : a ∈ [html, xhtml, xml] := by
  cases a <;> decide

theorem Quotes.name_injective : Function.Injective Quotes.name := by
  intro a b
  cases a <;> cases b <;> decide

theorem Quotes.mem_choices (a : Quotes) : a ∈ [double, single] := by
  cases a <;> decide

namespace OptionName

/-- The settings that an option takes, each with the value that the option then has. -/
def Takes : (o : OptionName) → Setting → o.Target → Prop
  | .field, s, format => s = .fieldFormatter format
  | .text, s, format => s = .textFormatter format
  | .indent, s, value | .newline, s, value | .between, s, value | .after, s, value =>
    s = .ofText value
  | .intUnit, s, unit | .floatUnit, s, unit =>
    s = .ofText unit ∧ ∀ c ∈ String.toList unit, Text.isBlank c = false
  | .selfClosingStyle, s, style => s = .ofText (SelfClosing.name style)
  | .attributeQuotes, s, quotes => s = .ofText (Quotes.name quotes)
  | .inlineBreak, s, n => s = .ofCount n
  | .maxRepeat, s, n => s = .ofCount n ∧ Nat.lt 0 n
  | .selfClosingTags, s, names | .unitless, s, names =>
    ∃ given, s = .ofNames given ∧ names = Setting.sorted given
  | .keywords, s, names => ∃ given, s = .ofNames given ∧ names = Setting.distinct given
  | .markupSnippets, s, t => ∃ later, s = .ofTable later ∧ t = Markup.defaultSnippets.merge later
  | .stylesheetSnippets, s, t =>
    ∃ later, s = .ofTable later ∧ t = Stylesheet.defaultSnippets.merge later
  | .unitAliases, s, t =>
    ∃ later, s = .ofTable later ∧ t = ({} : Config).unitAliases.merge later

/-- An option makes a value of the settings that it takes, and complains about all others. -/
theorem validate_eq_ok_iff (o : OptionName) (s : Setting) (value : o.Target) :
    o.validate s = .ok value ↔ o.Takes s value := by
  cases o with
  | field =>
    cases s with
    | fieldFormatter format =>
      exact ⟨fun h ↦ congrArg Setting.fieldFormatter (Except.ok.inj h),
        fun h ↦ congrArg Except.ok (Setting.fieldFormatter.inj h)⟩
    | json | textFormatter => exact iff_of_false nofun nofun
  | text =>
    cases s with
    | textFormatter format =>
      exact ⟨fun h ↦ congrArg Setting.textFormatter (Except.ok.inj h),
        fun h ↦ congrArg Except.ok (Setting.textFormatter.inj h)⟩
    | json | fieldFormatter => exact iff_of_false nofun nofun
  | indent => exact Setting.asString_eq_ok_iff
  | newline => exact Setting.asString_eq_ok_iff
  | between => exact Setting.asString_eq_ok_iff
  | after => exact Setting.asString_eq_ok_iff
  | intUnit => exact Setting.asWord_eq_ok_iff
  | floatUnit => exact Setting.asWord_eq_ok_iff
  | selfClosingStyle =>
    exact Setting.asChoice_eq_ok_iff SelfClosing.name_injective SelfClosing.mem_choices
  | attributeQuotes => exact Setting.asChoice_eq_ok_iff Quotes.name_injective Quotes.mem_choices
  | selfClosingTags => exact Setting.asNames_eq_ok_iff
  | unitless => exact Setting.asNames_eq_ok_iff
  | keywords => exact Setting.asOrderedNames_eq_ok_iff
  | inlineBreak => exact Setting.asCount_eq_ok_iff
  | maxRepeat => exact Setting.asPositive_eq_ok_iff
  | markupSnippets => exact Setting.asTable_eq_ok_iff
  | stylesheetSnippets => exact Setting.asTable_eq_ok_iff
  | unitAliases => exact Setting.asTable_eq_ok_iff

end OptionName

end Shorthand
