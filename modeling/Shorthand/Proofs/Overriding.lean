import Mathlib.Data.List.Nodup
import Shorthand.Proofs.OptionValues

/-!
# Options that stay out of each other's way

Settings come from an editor or a command line, and nothing is known of them but that no name is
there twice.  They are taken into account one after the other.  Each has an option of its own or
none, each option a field of its own, and an option takes a setting as a whole or refuses it; so a
setting that cannot be used costs no more than its own option, which keeps its default.

That is what makes the order irrelevant, and what allows the unusable settings to be left out: a
configuration is told by the values of the options, the grammar and the list of unusable names
(`Config.eq_of_read`), and the value of an option depends on the one setting of its name.

* `OptionName.read` : the value of an option; `read_apply_self`, `read_apply_of_ne`.
* `Config.Unusable` : the settings that cannot be used; `override_cases`, what one setting does.
* `Config.read_overrideAll_of_mem`, `Config.rejected_overrideAll` : what all of them do.
* `Config.AccountsFor` : what is known of a configuration and the settings it comes from.
* `Config.resolve_accounts` : there is always a configuration, and all of this is known of it.
-/

set_option autoImplicit false

namespace Shorthand

namespace OptionName

/-! ## Options as fields of a configuration -/

/-- The value that an option has in a configuration. -/
def read : (o : OptionName) → Config → o.Target
  | .field, c => c.formatters.field
  | .text, c => c.formatters.text
  | .indent, c => c.indent
  | .newline, c => c.newline
  | .selfClosingStyle, c => c.selfClosing
  | .selfClosingTags, c => c.voidTags
  | .inlineBreak, c => c.inlineBreak
  | .attributeQuotes, c => c.quotes
  | .maxRepeat, c => c.maxRepeat
  | .markupSnippets, c => c.markupSnippets
  | .stylesheetSnippets, c => c.stylesheetSnippets
  | .intUnit, c => c.intUnit
  | .floatUnit, c => c.floatUnit
  | .unitAliases, c => c.unitAliases
  | .unitless, c => c.unitless
  | .keywords, c => c.keywords
  | .between, c => c.between
  | .after, c => c.after

theorem read_apply_self (o : OptionName) (value : o.Target) (c : Config) :
    o.read (o.apply value c) = value := by
  cases o <;> rfl

/-- No option has the field of another one. -/
theorem read_apply_of_ne {o p : OptionName} (h : o ≠ p) (value : p.Target) (c : Config) :
    o.read (p.apply value c) = o.read c := by
  cases p <;> cases o <;> first | rfl | exact absurd rfl h

theorem grammar_apply (o : OptionName) (value : o.Target) (c : Config) :
    (o.apply value c).grammar = c.grammar := by
  cases o <;> rfl

theorem rejected_apply (o : OptionName) (value : o.Target) (c : Config) :
    (o.apply value c).rejected = c.rejected := by
  cases o <;> rfl

theorem read_reject (o : OptionName) (c : Config) (names : List String) :
    o.read { c with rejected := names } = o.read c := by
  cases o <;> rfl

theorem ofName?_eq_some_iff {name : String} {o : OptionName} :
    ofName? name = some o ↔ o.name = name := by
  constructor
  · intro h
    simpa using List.find?_some h
  · rintro rfl
    exact ofName?_name o

theorem ofName?_eq_none_iff {name : String} :
    ofName? name = none ↔ ∀ o : OptionName, o.name ≠ name := by
  rw [Option.eq_none_iff_forall_ne_some]
  exact forall_congr' fun o ↦ not_congr ofName?_eq_some_iff

end OptionName

namespace Config

/-- A configuration is told by its grammar, its options and its unusable names. -/
theorem eq_of_read {c d : Config} (hgrammar : c.grammar = d.grammar)
    (hread : ∀ o : OptionName, o.read c = o.read d) (hrejected : c.rejected = d.rejected) :
    c = d := by
  have hformatters : c.formatters = d.formatters :=
    (Formatters.mk.injEq ..).mpr ⟨hread .field, hread .text⟩
  obtain ⟨⟩ := c
  obtain ⟨⟩ := d
  exact (Config.mk.injEq ..).mpr ⟨hgrammar, hformatters, hread .indent, hread .newline,
    hread .selfClosingStyle, hread .selfClosingTags, hread .inlineBreak, hread .attributeQuotes,
    hread .maxRepeat, hread .markupSnippets, hread .stylesheetSnippets, hread .intUnit,
    hread .floatUnit, hread .unitAliases, hread .unitless, hread .keywords, hread .between,
    hread .after, hrejected⟩

/-! ## Settings, one after the other -/

/-- A setting that cannot be used: no option goes by its name, or the one that does refuses it. -/
inductive Unusable : String × Setting → Prop where
  | unknown {name : String} {s : Setting} (h : ∀ o : OptionName, o.name ≠ name) : Unusable (name, s)
  | refused {o : OptionName} {s : Setting} {complaint : Complaint}
      (h : o.validate s = .error complaint) : Unusable (o.name, s)

/-- Can a setting not be used? -/
def isUnusable (entry : String × Setting) : Bool :=
  match OptionName.ofName? entry.1 with
  | none => true
  | some o => !(o.validate entry.2).isOk

theorem isUnusable_iff (entry : String × Setting) : isUnusable entry = true ↔ Unusable entry := by
  obtain ⟨name, s⟩ := entry
  rw [isUnusable]
  constructor
  · intro h
    cases ho : OptionName.ofName? name with
    | none => exact .unknown (OptionName.ofName?_eq_none_iff.1 ho)
    | some o =>
      obtain rfl := OptionName.ofName?_eq_some_iff.1 ho
      cases hs : o.validate s with
      | ok value => simp [OptionName.ofName?_name, hs, Except.isOk, Except.toBool] at h
      | error complaint => exact .refused hs
  · rintro (⟨h⟩ | ⟨h⟩)
    · rw [OptionName.ofName?_eq_none_iff.2 h]
    · next o complaint => simp [OptionName.ofName?_name, h, Except.isOk, Except.toBool]

instance : DecidablePred Unusable := fun entry ↦ decidable_of_iff _ (isUnusable_iff entry)

theorem not_unusable_of_validate {o : OptionName} {s : Setting} {value : o.Target}
    (h : o.validate s = .ok value) : ¬ Unusable (o.name, s) := by
  rw [← isUnusable_iff, isUnusable, OptionName.ofName?_name]
  simp [h, Except.isOk, Except.toBool]

/-- What one setting does: it gives its option a value, or its name is put on the list. -/
theorem override_cases (c : Config) (name : String) (s : Setting) :
    (∃ (o : OptionName) (value : o.Target), o.name = name ∧ o.validate s = .ok value ∧
        c.override name s = o.apply value c) ∨
      (Unusable (name, s) ∧ c.override name s = { c with rejected := c.rejected ++ [name] }) := by
  rw [override]
  cases ho : OptionName.ofName? name with
  | none => exact .inr ⟨.unknown (OptionName.ofName?_eq_none_iff.1 ho), rfl⟩
  | some o =>
    obtain rfl := OptionName.ofName?_eq_some_iff.1 ho
    cases hs : o.validate s with
    | ok value => exact .inl ⟨o, value, rfl, hs, by simp only [hs]⟩
    | error complaint => exact .inr ⟨.refused hs, by simp only [hs]⟩

/-- A configuration with settings taken into account, one after the other. -/
def overrideAll (c : Config) (settings : Table Setting) : Config :=
  settings.foldl (fun c setting ↦ c.override setting.1 setting.2) c

theorem overrideAll_cons (c : Config) (entry : String × Setting) (settings : Table Setting) :
    c.overrideAll (entry :: settings) = (c.override entry.1 entry.2).overrideAll settings := rfl

theorem grammar_overrideAll (settings : Table Setting) (c : Config) :
    (c.overrideAll settings).grammar = c.grammar := by
  induction settings generalizing c with
  | nil => rfl
  | cons entry settings ih =>
    rw [overrideAll_cons, ih]
    obtain ⟨o, value, -, -, heq⟩ | ⟨-, heq⟩ := c.override_cases entry.1 entry.2
    · rw [heq, o.grammar_apply]
    · rw [heq]

/-- The unusable names are listed, in the order of the settings. -/
theorem rejected_overrideAll (settings : Table Setting) (c : Config) :
    (c.overrideAll settings).rejected
      = c.rejected ++ Table.names (settings.filter (Unusable ·)) := by
  induction settings generalizing c with
  | nil => simp [overrideAll, Table.names]
  | cons entry settings ih =>
    rw [overrideAll_cons, ih]
    obtain ⟨o, value, hname, hvalue, heq⟩ | ⟨hunusable, heq⟩ := c.override_cases entry.1 entry.2
    · have husable : ¬ Unusable entry := by
        obtain ⟨name, s⟩ := entry
        obtain rfl : o.name = name := hname
        exact not_unusable_of_validate hvalue
      rw [heq, o.rejected_apply, List.filter_cons_of_neg (by simpa using husable)]
    · rw [heq, List.filter_cons_of_pos (by simpa using hunusable)]
      simp [Table.names]

theorem read_override_of_ne {o : OptionName} {name : String} (h : o.name ≠ name) (c : Config)
    (s : Setting) : o.read (c.override name s) = o.read c := by
  obtain ⟨p, value, hname, -, heq⟩ | ⟨-, heq⟩ := c.override_cases name s
  · rw [heq, OptionName.read_apply_of_ne]
    rintro rfl
    exact h hname
  · rw [heq, OptionName.read_reject]

/-- An option has the value of its setting; a refused setting leaves it as it was. -/
theorem read_override_self (o : OptionName) (c : Config) (s : Setting) :
    o.read (c.override o.name s) = (o.validate s).toOption.getD (o.read c) := by
  rw [override, OptionName.ofName?_name]
  cases hs : o.validate s with
  | ok value => simp only [hs, OptionName.read_apply_self]; rfl
  | error complaint => simp only [hs, OptionName.read_reject]; rfl

theorem read_overrideAll_of_not_mem {o : OptionName} {settings : Table Setting}
    (h : o.name ∉ settings.names) (c : Config) : o.read (c.overrideAll settings) = o.read c := by
  induction settings generalizing c with
  | nil => rfl
  | cons entry settings ih =>
    obtain ⟨hne, hmore⟩ := not_or.1 (mt List.mem_cons.2 h)
    rw [overrideAll_cons, ih hmore, read_override_of_ne hne]

/-- Where no name is there twice, an option has the value of the setting of its name. -/
theorem read_overrideAll_of_mem {o : OptionName} {s : Setting} {settings : Table Setting}
    (hnodup : settings.names.Nodup) (h : (o.name, s) ∈ settings) (c : Config) :
    o.read (c.overrideAll settings) = (o.validate s).toOption.getD (o.read c) := by
  induction settings generalizing c with
  | nil => cases h
  | cons entry settings ih =>
    obtain ⟨hfresh, hnodup⟩ := List.nodup_cons.1 hnodup
    rw [overrideAll_cons]
    rcases List.mem_cons.1 h with rfl | hmem
    · -- No later setting has this name again, so none takes the value back.
      rw [read_overrideAll_of_not_mem hfresh, read_override_self]
    · have hne : o.name ≠ entry.1 := by
        intro heq
        exact hfresh (List.mem_map.2 ⟨(o.name, s), hmem, heq⟩)
      rw [ih hnodup hmem, read_override_of_ne hne]

/-! ## Two tables of settings -/

/-- The settings give an option a value: there is a setting of its name that it takes. -/
def Gives (settings : Table Setting) (o : OptionName) (value : o.Target) : Prop :=
  ∃ s, (o.name, s) ∈ settings ∧ o.validate s = .ok value

theorem read_ofSettings_of_gives {grammar : Grammar} {settings : Table Setting}
    (hnodup : settings.names.Nodup) {o : OptionName} {value : o.Target}
    (h : Gives settings o value) : o.read (ofSettings grammar settings) = value := by
  obtain ⟨s, hs, hvalue⟩ := h
  have hread := read_overrideAll_of_mem hnodup hs { grammar }
  rw [hvalue] at hread
  exact hread

theorem read_default (o : OptionName) (grammar : Grammar) : o.read { grammar } = o.read {} := by
  cases o <;> rfl

theorem read_ofSettings_of_not_gives {grammar : Grammar} {settings : Table Setting}
    (hnodup : settings.names.Nodup) {o : OptionName} (h : ∀ value, ¬ Gives settings o value) :
    o.read (ofSettings grammar settings) = o.read {} := by
  rw [← read_default o grammar]
  by_cases hname : o.name ∈ settings.names
  · obtain ⟨⟨name, s⟩, hs, rfl : name = o.name⟩ := List.mem_map.1 hname
    have hread := read_overrideAll_of_mem hnodup hs { grammar }
    cases hvalue : o.validate s with
    | ok value => exact absurd ⟨s, hs, hvalue⟩ (h value)
    | error complaint =>
      rw [hvalue] at hread
      exact hread
  · exact read_overrideAll_of_not_mem hname { grammar }

/-- Settings that give the options the same values make the same configuration, but for the list of
names that could not be used. -/
theorem ofSettings_congr {grammar : Grammar} {settings others : Table Setting}
    (hnodup : settings.names.Nodup) (hnodup' : others.names.Nodup)
    (h : ∀ o value, Gives settings o value ↔ Gives others o value) :
    ofSettings grammar others
      = { ofSettings grammar settings with rejected := (ofSettings grammar others).rejected } := by
  refine eq_of_read ?_ (fun o ↦ ?_) rfl
  · exact (grammar_overrideAll others _).trans (grammar_overrideAll settings _).symm
  · refine Eq.trans ?_ (o.read_reject (ofSettings grammar settings) _).symm
    by_cases hgives : ∃ value, Gives settings o value
    · obtain ⟨value, hvalue⟩ := hgives
      rw [read_ofSettings_of_gives hnodup hvalue,
        read_ofSettings_of_gives hnodup' ((h o value).1 hvalue)]
    · have hnone : ∀ value, ¬ Gives settings o value := not_exists.1 hgives
      rw [read_ofSettings_of_not_gives hnodup hnone,
        read_ofSettings_of_not_gives hnodup' fun value ↦ mt (h o value).2 (hnone value)]

theorem rejected_ofSettings (grammar : Grammar) (settings : Table Setting) :
    (ofSettings grammar settings).rejected = Table.names (settings.filter (Unusable ·)) :=
  rejected_overrideAll settings { grammar }

/-- A name is listed exactly if its setting cannot be used. -/
theorem mem_rejected_iff {grammar : Grammar} {settings : Table Setting}
    (hnodup : settings.names.Nodup) {entry : String × Setting} (h : entry ∈ settings) :
    entry.1 ∈ (ofSettings grammar settings).rejected ↔ Unusable entry := by
  rw [rejected_ofSettings]
  constructor
  · intro hmem
    obtain ⟨other, hother, hname⟩ := List.mem_map.1 hmem
    obtain ⟨hother, hunusable⟩ := List.mem_filter.1 hother
    rw [← List.inj_on_of_nodup_map hnodup hother h hname]
    simpa using hunusable
  · intro hunusable
    exact List.mem_map.2 ⟨entry, List.mem_filter.2 ⟨h, by simpa using hunusable⟩, rfl⟩

theorem gives_usable_iff {grammar : Grammar} {settings : Table Setting}
    (hnodup : settings.names.Nodup) (o : OptionName) (value : o.Target) :
    Gives settings o value ↔
      Gives (settings.filter (·.1 ∉ (ofSettings grammar settings).rejected)) o value := by
  constructor
  · rintro ⟨s, hs, hvalue⟩
    refine ⟨s, List.mem_filter.2 ⟨hs, ?_⟩, hvalue⟩
    simpa using mt (mem_rejected_iff hnodup hs).1 (not_unusable_of_validate hvalue)
  · rintro ⟨s, hs, hvalue⟩
    exact ⟨s, (List.mem_filter.1 hs).1, hvalue⟩

/-- Of the settings that are not listed, none is listed when they are used alone. -/
theorem rejected_ofSettings_usable {grammar : Grammar} {settings : Table Setting}
    (hnodup : settings.names.Nodup) :
    (ofSettings grammar
      (settings.filter (·.1 ∉ (ofSettings grammar settings).rejected))).rejected = [] := by
  have hnone : (settings.filter (·.1 ∉ (ofSettings grammar settings).rejected)).filter
      (Unusable ·) = [] := by
    refine List.filter_eq_nil_iff.2 fun entry hentry ↦ ?_
    obtain ⟨hs, hlisted⟩ := List.mem_filter.1 hentry
    simpa using mt (mem_rejected_iff hnodup hs).2 (by simpa using hlisted)
  rw [rejected_ofSettings grammar (settings.filter _), hnone]
  rfl

/-! ## What is known of a configuration -/

/-- What is known of the configuration that settings make. -/
structure AccountsFor (c : Config) (grammar : Grammar) (settings : Table Setting) : Prop where
  grammar_eq : c.grammar = grammar
  /-- The names of the settings that cannot be used are listed, in the order of the settings. -/
  rejected_eq : c.rejected = Table.names (settings.filter (Unusable ·))
  /-- Every other option has the value that it makes of its setting, which is one that it takes. -/
  taken : ∀ (o : OptionName) (s : Setting), (o.name, s) ∈ settings → o.name ∉ c.rejected →
    o.validate s = .ok (o.read c) ∧ o.Takes s (o.read c)
  /-- An option without a setting, or with one that is refused, has its default. -/
  kept : ∀ o : OptionName, o.name ∉ settings.names ∨ o.name ∈ c.rejected → o.read c = o.read {}
  /-- The settings that cannot be used might as well not be there. -/
  without :
    resolve grammar.name (settings.filter (·.1 ∉ c.rejected)) = .ok { c with rejected := [] }
  /-- The order of the settings decides on the order of the list only. -/
  reordered : ∀ others : Table Setting, List.Perm settings others →
    ∃ d, resolve grammar.name others = .ok d ∧ d.rejected.Perm c.rejected ∧
      d = { c with rejected := d.rejected }

theorem resolve_name (grammar : Grammar) (settings : Table Setting) :
    resolve grammar.name settings = .ok (ofSettings grammar settings) := by
  rw [resolve, Grammar.ofName?_name]

/-- **A setting that cannot be used affects no other option.**  Settings in which no name is there
twice always make a configuration, and it accounts for them. -/
theorem resolve_accounts (grammar : Grammar) (settings : Table Setting)
    (h : settings.names.Nodup) :
    ∃ c, resolve grammar.name settings = .ok c ∧ c.AccountsFor grammar settings := by
  refine ⟨ofSettings grammar settings, resolve_name grammar settings, ?_⟩
  constructor
  case grammar_eq => exact grammar_overrideAll settings _
  case rejected_eq => exact rejected_ofSettings grammar settings
  case taken =>
    intro o s hs hlisted
    cases hvalue : o.validate s with
    | ok value =>
      rw [read_ofSettings_of_gives h ⟨s, hs, hvalue⟩]
      exact ⟨rfl, (o.validate_eq_ok_iff s value).1 hvalue⟩
    | error complaint => exact absurd ((mem_rejected_iff h hs).2 (.refused hvalue)) hlisted
  case kept =>
    intro o ho
    refine read_ofSettings_of_not_gives h ?_
    rintro value ⟨s, hs, hvalue⟩
    rcases ho with habsent | hlisted
    · exact habsent (List.mem_map.2 ⟨(o.name, s), hs, rfl⟩)
    · exact not_unusable_of_validate hvalue ((mem_rejected_iff h hs).1 hlisted)
  case without =>
    have hnodup : Table.names (settings.filter (·.1 ∉ (ofSettings grammar settings).rejected))
        |>.Nodup :=
      (List.filter_sublist.map _).nodup h
    rw [resolve_name, ofSettings_congr h hnodup (gives_usable_iff h),
      rejected_ofSettings_usable h]
  case reordered =>
    intro others hperm
    have hnodup : others.names.Nodup := (hperm.map _).nodup_iff.1 h
    refine ⟨ofSettings grammar others, resolve_name grammar others, ?_, ?_⟩
    · rw [rejected_ofSettings, rejected_ofSettings]
      exact ((hperm.filter _).map _).symm
    · exact ofSettings_congr h hnodup fun o value ↦
        exists_congr fun s ↦ and_congr_left' hperm.mem_iff

/-- Two settings that can be used, a truth value for a number, and a name that no option goes by. -/
def mixedSettings : Table Setting := [
  ("output.indent", .ofText "  "),
  ("output.inlineBreak", .json (.bool true)),
  ("output.colour", .ofText "red"),
  ("markup.maxRepeat", .ofCount 5)]

theorem resolve_accounts_mixed :
    mixedSettings.names.Nodup ∧
      ∃ c, resolve Grammar.markup.name mixedSettings = .ok c ∧
        c.AccountsFor .markup mixedSettings ∧
        c.rejected = ["output.inlineBreak", "output.colour"] ∧
        c.indent = "  " ∧ c.maxRepeat = 5 ∧ c.inlineBreak = 3 := by
  have hnodup : mixedSettings.names.Nodup := by decide
  obtain ⟨c, hc, haccounts⟩ := resolve_accounts .markup mixedSettings hnodup
  have hrejected : c.rejected = ["output.inlineBreak", "output.colour"] :=
    haccounts.rejected_eq.trans (by decide)
  obtain ⟨hindent, -⟩ := haccounts.taken .indent (.ofText "  ")
    (by simp [mixedSettings, OptionName.name]) (by rw [hrejected]; decide)
  obtain ⟨hrepeat, -⟩ := haccounts.taken .maxRepeat (.ofCount 5)
    (by simp [mixedSettings, OptionName.name]) (by rw [hrejected]; decide)
  have hbreak : c.inlineBreak = 3 :=
    haccounts.kept .inlineBreak (.inr (by rw [hrejected]; decide))
  exact ⟨hnodup, c, hc, haccounts, hrejected, (Except.ok.inj hindent).symm,
    (Except.ok.inj hrepeat).symm, hbreak⟩

end Config

end Shorthand
