import Shorthand.Proofs.Filling
import Shorthand.Proofs.SnippetTexts

/-!
# Stylesheets as completions

Values of declarations are escaped for an editor, but properties are not: an unknown shorthand such
as `$a` is kept as a property, and an editor takes it for a variable.  If the texts of snippets have
active characters in fields only, then nothing else can go wrong unless a snippet is cut inside of a
field: a completion shows the plain output as soon as no property holds an active character.

* `Declaration.value_of_parse` : a value has no fields or is the template of a snippet.
* `Expansion.stylesheet_inserted_iff` : when a stylesheet completion shows the plain output.
* `Expansion.property_becomes_variable` : it need not.
-/

set_option autoImplicit false

namespace Shorthand

namespace Stylesheet

theorem fields_parseValue (v : Vocabulary) (property : String) (keywords : List String)
    (s : String) : (parseValue v property keywords s).fields = [] := by
  rw [parseValue]
  split <;> rfl

/-- A snippet that is found without a keyword was read from the table. -/
theorem exists_of_lookup {snippets : Table String} {v : Vocabulary} {name : String}
    {snippet : Snippet} (h : lookup snippets v name = some (snippet, none)) :
    ∃ key text, snippets.get? key = some text ∧ snippet = Snippet.parse text := by
  rw [lookup] at h
  split at h
  · next text htext =>
    cases h
    exact ⟨name, text, htext, rfl⟩
  · dsimp only at h
    split at h
    · next text htext =>
      cases h
      obtain ⟨cut, -, hcut⟩ := List.exists_of_findSome?_eq_some htext
      exact ⟨_, text, hcut, rfl⟩
    · obtain ⟨found, -, hfound⟩ := Option.map_eq_some_iff.1 h
      cases hfound

namespace Declaration

/-- A value has no fields, or it is the template of the snippet that the property is of. -/
def OfSnippet (snippets : Table String) (property : String) (value : Option Value) : Prop :=
  (value.getD []).fields = [] ∨ ∃ key text, snippets.get? key = some text ∧
    property = (Snippet.parse text).property ∧ value = (Snippet.parse text).template

theorem value_of_ofShorthand (snippets : Table String) (v : Vocabulary) (name : String)
    (explicit : List Char) : OfSnippet snippets (ofShorthand snippets v name explicit).1
      (ofShorthand snippets v name explicit).2 := by
  rw [ofShorthand]
  split
  · left
    dsimp only
    split
    · rfl
    · exact fields_parseValue ..
  · next snippet keyword hlookup =>
    dsimp only
    split
    · exact .inl (fields_parseValue ..)
    · split
      · exact .inl rfl
      · obtain ⟨key, text, htext, rfl⟩ := exists_of_lookup hlookup
        exact .inr ⟨key, text, htext, rfl, rfl⟩

theorem value_of_parse {snippets : Table String} {v : Vocabulary} {chunk : List Char}
    {offset : Nat} {d : Declaration} (h : parse snippets v chunk offset = .ok d) :
    OfSnippet snippets d.property d.value := by
  rw [parse] at h
  dsimp only at h
  generalize (if chunk.getLast? == some '!' then chunk.dropLast else chunk) = body at h
  split at h
  · cases h
  · split at h
    · next text htext =>
      cases h
      exact .inr ⟨_, text, htext, rfl, rfl⟩
    · split at h
      all_goals
        split at h
        · cases h
        · cases h
          exact value_of_ofShorthand ..

theorem value_of_parseChunks {snippets : Table String} {v : Vocabulary}
    {chunks : List (List Char)} {offset : Nat} {ds : List Declaration}
    (h : parseChunks snippets v chunks offset = .ok ds) :
    ∀ d ∈ ds, OfSnippet snippets d.property d.value := by
  induction chunks generalizing offset ds with
  | nil =>
    cases h
    simp
  | cons chunk chunks ih =>
    obtain ⟨first, hfirst, h⟩ := bind_eq_ok_iff.1 h
    obtain ⟨rest, hrest, h⟩ := bind_eq_ok_iff.1 h
    cases h
    exact List.forall_mem_cons.2 ⟨value_of_parse hfirst, ih hrest⟩

theorem value_of_parseAll {snippets : Table String} {v : Vocabulary} {abbreviation : String}
    {ds : List Declaration} (h : parseAll snippets v abbreviation = .ok ds) :
    ∀ d ∈ ds, OfSnippet snippets d.property d.value := by
  rw [parseAll, located_eq_ok_iff] at h
  split at h
  · cases h
  · exact value_of_parseChunks h

/-- The placeholders of the output are those of the values. -/
theorem placeholder_of_writeAll {F : String → Prop} (hempty : F "") {style : Style}
    {ds : List Declaration} (h : ∀ d ∈ ds, Value.Filled F (d.value.getD [])) {number : Nat}
    {placeholder : String} (hmem : .stop number placeholder ∈ writeAll style ds) :
    F placeholder := by
  rw [writeAll_eq_marks] at hmem
  refine Mark.filled_of_mem_segments hempty (fun f hf ↦ ?_) hmem
  have hplace : Place.field f ∈ placesFrom 0 ds := by
    rw [← places_marksFrom style]
    exact List.mem_filterMap.2 ⟨_, hf, rfl⟩
  clear hmem hf
  generalize 0 = scope at hplace
  induction ds generalizing scope with
  | nil => cases hplace
  | cons d ds ih =>
    obtain ⟨hd, hds⟩ := List.forall_mem_cons.1 h
    rcases List.mem_append.1 hplace with hplace | hplace
    · rw [places] at hplace
      split at hplace
      · simp at hplace
      · next v hv =>
        obtain ⟨g, hg, hgf⟩ := List.mem_map.1 hplace
        rw [← Place.field.inj hgf]
        exact hd g hg
    · exact ih hds (scope + 1) hplace

/-- The raw output of declarations besides their properties. -/
theorem raw_of_writeAll {P : String → Prop} {style : Style} (hnewline : P style.newline)
    (hbetween : P style.between) (himportant : P " !important") (hafter : P style.after)
    {ds : List Declaration} (h : ∀ d ∈ ds, P d.property) {output : String}
    (hmem : .raw output ∈ writeAll style ds) : P output := by
  rw [writeAll_eq_marks] at hmem
  replace hmem := Mark.raw_mem_segments hmem
  generalize 0 = scope at hmem
  induction ds generalizing scope with
  | nil => cases hmem
  | cons d ds ih =>
    obtain ⟨hd, hds⟩ := List.forall_mem_cons.1 h
    have hvalue : .raw output ∉ valueMarks scope d := by
      rw [valueMarks]
      split
      · simp
      · intro hmem
        obtain ⟨p, -, hp⟩ := List.mem_map.1 hmem
        cases p <;> cases hp
    rcases List.mem_append.1 hmem with hlead | hmem
    · split at hlead
      · cases hlead
      · obtain rfl : output = style.newline := by simpa using hlead
        exact hnewline
    · rcases List.mem_append.1 hmem with hown | hmem
      · rw [marks] at hown
        split at hown <;>
          simp only [List.mem_cons, List.mem_append, Mark.raw.injEq, hvalue, List.not_mem_nil,
            false_or, or_false] at hown
        · rcases hown with rfl | rfl | rfl | rfl <;> assumption
        · rcases hown with rfl | rfl | rfl <;> assumption
      · exact ih hds (scope + 1) hmem

end Declaration

end Stylesheet

namespace Expansion

open Editor Stylesheet

/-- The output for a stylesheet abbreviation is that of its declarations. -/
theorem segments_of_stylesheet {c : Config} (hstylesheet : c.grammar = .stylesheet) {s : String}
    {output : List Segment} (h : segments c s = .ok output) :
    ∃ ds, declarations c s = .ok ds ∧ output = Declaration.writeAll c.declarationStyle ds := by
  rw [segments, hstylesheet] at h
  obtain ⟨ds, hds, h⟩ := bind_eq_ok_iff.1 h
  cases h
  exact ⟨ds, hds, rfl⟩

/-- **When a stylesheet completion shows the plain output.**  If expansion gives a plain output, it
gives one for an editor; and what the editor inserts is the plain output exactly if every part of it
shows itself where it stands: raw output, such as a property, in front of what comes after it, and a
tab stop by itself.  That is so if no property holds an active character. -/
theorem stylesheet_inserted_iff (c : Config) (hstylesheet : c.grammar = .stylesheet)
    (hnewline : ∀ ch ∈ c.newline.toList, isActive ch = false)
    (hbetween : ∀ ch ∈ c.between.toList, isActive ch = false)
    (hafter : ∀ ch ∈ c.after.toList, isActive ch = false)
    (hsnippets : ∀ entry ∈ c.stylesheetSnippets, Snippet.FieldsOnly entry.2) (s p : String)
    (h : expand { c with formatters := {} } s = .ok p) :
    ∃ ds output q, declarations c s = .ok ds ∧ segments c s = .ok output ∧
      expand { c with formatters := formatters } s = .ok q ∧
      (inserted? q = some p ↔ ∀ segment after, segment :: after <:+ output → Shows segment after) ∧
      ((∀ d ∈ ds, ∀ ch ∈ d.property.toList, isActive ch = false) → inserted? q = some p) := by
  obtain ⟨output, houtput, rfl⟩ := map_eq_ok_iff.1 h
  obtain ⟨ds, hds, rfl⟩ := segments_of_stylesheet hstylesheet houtput
  have hvalues := Declaration.value_of_parseAll hds
  have hentry : ∀ {key text : String}, c.stylesheetSnippets.get? key = some text →
      Snippet.FieldsOnly text := by
    intro key text htext
    obtain ⟨before, after, heq, -⟩ := List.lookup_eq_some_iff.1 htext
    exact hsnippets (key, text) (by simp [heq])
  have hclosed : ∀ d ∈ ds, Value.Filled Closed (d.value.getD []) := by
    intro d hd f hf
    rcases hvalues d hd with hnone | ⟨key, text, htext, -, hvalue⟩
    · rw [hnone] at hf
      cases hf
    · rw [hvalue] at hf
      exact Snippet.closed_of_mem_template (hentry htext) hf
  have hstops : ∀ number placeholder,
      .stop number placeholder ∈ Declaration.writeAll c.declarationStyle ds → Closed placeholder :=
    fun _ _ hmem ↦ Declaration.placeholder_of_writeAll (F := Closed) (fun _ ↦ rfl) hclosed hmem
  have hiff := inserted?_render_iff hstops
  refine ⟨ds, _, _, hds, houtput, map_eq_ok_iff.2 ⟨_, houtput, rfl⟩, hiff, fun hproperty ↦ ?_⟩
  have hinactive : ∀ d ∈ ds, Value.Filled (fun s ↦ ∀ ch ∈ s.toList, isActive ch = false)
      (d.value.getD []) := by
    intro d hd f hf
    rcases hvalues d hd with hnone | ⟨key, text, htext, heq, hvalue⟩
    · rw [hnone] at hf
      cases hf
    · rw [hvalue] at hf
      exact Snippet.inactive_of_mem_template (hentry htext) (heq ▸ hproperty d hd) hf
  refine hiff.2 fun segment after hsuffix ↦ ?_
  have hmem := hsuffix.subset List.mem_cons_self
  cases segment with
  | raw raw =>
    exact shows_raw (Declaration.raw_of_writeAll (P := fun s ↦ ∀ ch ∈ s.toList, isActive ch = false)
      hnewline hbetween (by simp [isActive]) hafter hproperty hmem) after
  | text literal => trivial
  | stop number placeholder =>
    exact inserted?_tabStop (Declaration.placeholder_of_writeAll (by simp) hinactive hmem) number

/-- A configuration with one snippet, for borders. -/
def borderConfig : Config where
  grammar := .stylesheet
  stylesheetSnippets := [("bd", "border:$\x7b1:1px\x7d $\x7b2:solid\x7d")]

/-- A border, with its width and style as tab stops. -/
theorem border_inserted :
    expand { borderConfig with formatters := {} } "bd" = .ok "border: 1px solid;" ∧
      expand { borderConfig with formatters := formatters } "bd"
        = .ok "border: $\x7b1:1px\x7d $\x7b2:solid\x7d;" ∧
      inserted? "border: $\x7b1:1px\x7d $\x7b2:solid\x7d;" = some "border: 1px solid;" := by
  have h : expand { borderConfig with formatters := {} } "bd" = .ok "border: 1px solid;" := by
    decide +kernel
  have hq : expand { borderConfig with formatters := formatters } "bd"
      = .ok "border: $\x7b1:1px\x7d $\x7b2:solid\x7d;" := by decide +kernel
  have hproperty : (declarations borderConfig "bd").map (List.map (·.property))
      = .ok ["border"] := by decide +kernel
  obtain ⟨ds, output, q, hds, -, hq', -, hinserted⟩ :=
    stylesheet_inserted_iff borderConfig rfl (by simp [borderConfig, isActive])
      (by simp [borderConfig, isActive]) (by simp [borderConfig, isActive])
      (by decide +kernel) _ _ h
  obtain rfl := Except.ok.inj (hq'.symm.trans hq)
  rw [hds] at hproperty
  refine ⟨h, hq, hinserted fun d hd ↦ ?_⟩
  have hmem : d.property ∈ ["border"] :=
    Except.ok.inj hproperty ▸ List.mem_map_of_mem hd
  rw [List.mem_singleton.1 hmem]
  simp [isActive]

/-- **A property may become a variable**: it is not escaped. -/
theorem property_becomes_variable :
    expand { grammar := .stylesheet } "$a" = .ok "$a: ;" ∧
      expand { grammar := .stylesheet, formatters := formatters } "$a"
        = .ok "$a: $\x7b1\x7d;" ∧
      inserted? "$a: $\x7b1\x7d;" ≠ some "$a: ;" := by
  exact ⟨by decide +kernel, by decide +kernel, by decide +kernel⟩

end Expansion

end Shorthand
