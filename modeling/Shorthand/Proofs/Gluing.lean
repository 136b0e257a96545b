import Shorthand.Proofs.Chunks
import Shorthand.Proofs.ValueTokens

/-!
# Glued forms and colon forms

What comes after a shorthand may be glued to it or stand after a colon: `m10` is `m:10`, and `dib`
is `d:ib`.  The two forms are read in different ways.  A glued value is parted from the name where a
value begins; a glued keyword is found by trying the longest beginning of the name that is a key
first.  What stands after a colon is always read as a value.

* `Glues` : a name that is a key with a keyword glued to it; `lookup_glued_iff`.
* `Declaration.parse_split` : a text that is no key stands for what its two parts stand for.
* `Declaration.colon_forms_agree` : both forms stand for one declaration.
-/

set_option autoImplicit false

namespace Shorthand.Stylesheet

variable {snippets : Table String} {v : Vocabulary}

/-! ## Glued keywords -/

/-- The cuts of a name are the ways to part it. -/
theorem mem_cuts_iff {name : List Char} {cut : List Char × List Char} :
    cut ∈ cuts name ↔ cut.1 ≠ [] ∧ cut.2 ≠ [] ∧ cut.1 ++ cut.2 = name := by
  obtain ⟨p, r⟩ := cut
  simp only [cuts, List.mem_map, List.mem_reverse, List.mem_range'_1, Prod.mk.injEq]
  constructor
  · rintro ⟨i, hi, rfl, rfl⟩
    refine ⟨?_, ?_, List.take_append_drop i name⟩
    · rw [← List.length_pos_iff, List.length_take]
      omega
    · rw [← List.length_pos_iff, List.length_drop]
      omega
  · rintro ⟨hp, hr, rfl⟩
    have hp := List.length_pos_iff.2 hp
    have hr := List.length_pos_iff.2 hr
    refine ⟨p.length, ?_, List.take_left, List.drop_left⟩
    rw [List.length_append]
    omega

/-- The longest first part comes first. -/
theorem pairwise_cuts (name : List Char) :
    (cuts name).Pairwise fun cut later ↦ later.1.length < cut.1.length := by
  rw [cuts, List.pairwise_map, List.pairwise_reverse]
  refine List.Pairwise.imp_of_mem (fun {i j} hi hj hlt ↦ ?_) List.pairwise_lt_range'
  simp only [List.mem_range'_1] at hi hj
  simp only [List.length_take]
  omega

/-- To search the cuts of a name is to search for the longest first part. -/
theorem findSome?_cuts_eq_some_iff {α : Type} {f : List Char × List Char → Option α}
    {name : List Char} {a : α} :
    (cuts name).findSome? f = some a ↔ ∃ p r, p ≠ [] ∧ r ≠ [] ∧ p ++ r = name ∧
      f (p, r) = some a ∧
      ∀ q s, s ≠ [] → q ++ s = name → p.length < q.length → f (q, s) = none := by
  constructor
  · intro h
    obtain ⟨before, ⟨p, r⟩, after, hcuts, ha, hbefore⟩ := List.findSome?_eq_some_iff.1 h
    have hmem : (p, r) ∈ cuts name := by simp [hcuts]
    obtain ⟨hp, hr, hname⟩ := mem_cuts_iff.1 hmem
    refine ⟨p, r, hp, hr, hname, ha, fun q s hs hqs hlt ↦ hbefore (q, s) ?_⟩
    have hq : q ≠ [] := List.ne_nil_of_length_pos (Nat.zero_lt_of_lt hlt)
    have hlonger : (q, s) ∈ before ++ (p, r) :: after := hcuts ▸ mem_cuts_iff.2 ⟨hq, hs, hqs⟩
    rcases List.mem_append.1 hlonger with hq | hq
    · exact hq
    · -- what comes after the cut that was found has a shorter first part
      have hpairwise := hcuts ▸ pairwise_cuts name
      have hafter := (List.pairwise_cons.1 (List.pairwise_append.1 hpairwise).2.1).1
      rcases List.mem_cons.1 hq with heq | hq
      · rw [(Prod.mk.inj heq).1] at hlt
        exact absurd hlt (Nat.lt_irrefl _)
      · exact absurd hlt (Nat.lt_asymm (hafter (q, s) hq))
  · rintro ⟨p, r, hp, hr, hname, ha, hlongest⟩
    have hmem : (p, r) ∈ cuts name := mem_cuts_iff.2 ⟨hp, hr, hname⟩
    obtain ⟨before, after, hcuts⟩ := List.append_of_mem hmem
    refine List.findSome?_eq_some_iff.2 ⟨before, (p, r), after, hcuts, ha, fun cut hcut ↦ ?_⟩
    have hlonger : cut ∈ cuts name := by simp [hcuts, hcut]
    obtain ⟨-, hs, hqs⟩ := mem_cuts_iff.1 hlonger
    have hpairwise := hcuts ▸ pairwise_cuts name
    have hlt := (List.pairwise_append.1 hpairwise).2.2 cut hcut (p, r) List.mem_cons_self
    exact hlongest cut.1 cut.2 hs hqs hlt

theorem findSome?_cuts_eq_none_iff {α : Type} {f : List Char × List Char → Option α}
    {name : List Char} :
    (cuts name).findSome? f = none ↔ ∀ q s, q ≠ [] → s ≠ [] → q ++ s = name → f (q, s) = none := by
  rw [List.findSome?_eq_none_iff]
  exact ⟨fun h q s hq hs hqs ↦ h (q, s) (mem_cuts_iff.2 ⟨hq, hs, hqs⟩),
    fun h cut hcut ↦ have ⟨hq, hs, hqs⟩ := mem_cuts_iff.1 hcut
      h cut.1 cut.2 hq hs hqs⟩

/-- A key with a rest after it that shortens a keyword of its snippet, or else a keyword of all
properties. -/
def Fits (snippets : Table String) (v : Vocabulary) (p r : List Char) (snippet : Snippet)
    (keyword : String) : Prop :=
  (∃ text, snippets.get? (String.ofList p) = some text ∧ snippet = Snippet.parse text) ∧
    (Keyword.find? (String.ofList r) snippet.keywords).or
      (Keyword.find? (String.ofList r) v.keywords) = some keyword

theorem glued?_eq_some_iff {p r : List Char} {snippet : Snippet} {keyword : String} :
    glued? snippets v (p, r) = some (snippet, keyword) ↔ Fits snippets v p r snippet keyword := by
  rw [glued?, Fits]
  cases snippets.get? (String.ofList p) with
  | none => simp
  | some text =>
    have hsnippet : (∃ other, some text = some other ∧ snippet = Snippet.parse other)
        ↔ Snippet.parse text = snippet := by simp [eq_comm]
    rw [hsnippet]
    simp only [Option.bind_eq_bind, Option.bind_some, Option.bind_eq_some_iff, pure,
      Option.some.injEq, Prod.mk.injEq]
    constructor
    · rintro ⟨word, hword, rfl, rfl⟩
      exact ⟨rfl, hword⟩
    · rintro ⟨rfl, hword⟩
      exact ⟨keyword, hword, rfl, rfl⟩

/-- A name that stands for a snippet with a keyword because a key `p` has a rest `r` glued to it:
the name is no key, no colon makes it one, and no longer key fits. -/
structure Glues (snippets : Table String) (v : Vocabulary) (name p r : List Char)
    (snippet : Snippet) (keyword : String) : Prop where
  whole : p ++ r = name
  key_ne_nil : p ≠ []
  rest_ne_nil : r ≠ []
  fits : Fits snippets v p r snippet keyword
  not_key : snippets.get? (String.ofList name) = none
  no_colon_key : ∀ q s, q ≠ [] → s ≠ [] → q ++ s = name →
    snippets.get? (String.ofList (q ++ ':' :: s)) = none
  longest : ∀ q s, s ≠ [] → q ++ s = name → p.length < q.length →
    ∀ other word, ¬ Fits snippets v q s other word

/-- These are the names at which a keyword is found. -/
theorem lookup_glued_iff {name : List Char} {snippet : Snippet} {keyword : String} :
    lookup snippets v (String.ofList name) = some (snippet, some keyword) ↔
      ∃ p r, Glues snippets v name p r snippet keyword := by
  have hnone : ∀ q s, glued? snippets v (q, s) = none ↔
      ∀ other word, ¬ Fits snippets v q s other word := fun q s ↦ by
    simp only [Option.eq_none_iff_forall_ne_some, Prod.forall, ne_eq, glued?_eq_some_iff]
  rw [lookup, String.toList_ofList]
  cases hkey : snippets.get? (String.ofList name) with
  | some text =>
    refine iff_of_false (by simp) ?_
    rintro ⟨p, r, h⟩
    cases hkey.symm.trans h.not_key
  | none =>
    dsimp only
    cases hcolon : (cuts name).findSome?
        fun cut ↦ snippets.get? (String.ofList (cut.1 ++ ':' :: cut.2)) with
    | some text =>
      refine iff_of_false (by simp) ?_
      rintro ⟨p, r, h⟩
      cases hcolon.symm.trans (findSome?_cuts_eq_none_iff.2 h.no_colon_key)
    | none =>
      simp only [Option.map_eq_some_iff, Prod.exists, Prod.mk.injEq, Option.some.injEq,
        exists_eq_right_right, exists_eq_right]
      simp only [findSome?_cuts_eq_some_iff, hnone, glued?_eq_some_iff]
      constructor
      · rintro ⟨p, r, hp, hr, hname, hfits, hlongest⟩
        exact ⟨p, r, hname, hp, hr, hfits, hkey, findSome?_cuts_eq_none_iff.1 hcolon, hlongest⟩
      · rintro ⟨p, r, h⟩
        exact ⟨p, r, h.key_ne_nil, h.rest_ne_nil, h.whole, h.fits, h.longest⟩

/-! ## Both forms -/

/-- A keyword is a value: it stands for the one that it shortens. -/
theorem parseValue_keyword {r : List Char} (h : Keyword.IsKeyword r) (property : String)
    (keywords : List String) :
    parseValue v property keywords (String.ofList r)
      = [.text (((Keyword.find? (String.ofList r) keywords).or
          (Keyword.find? (String.ofList r) v.keywords)).getD (String.ofList r))] := by
  have htile : Text.tile (valueStep v property keywords) 0 (ValueToken.joined [.keyword r h])
      = [(ValueToken.keyword r h).meaning v property keywords] :=
    ValueToken.tile_joined (List.isChain_singleton _)
  have hjoined : ValueToken.joined [.keyword r h] = r := by
    simp [ValueToken.joined, ValueToken.text]
  rw [hjoined] at htile
  rw [parseValue, String.toList_ofList, htile]
  rfl

namespace Declaration

/-- An exclamation mark is put after a text. -/
theorem isMarked_append {cs mark : List Char} (hcs : cs.getLast? ≠ some '!')
    (hmark : mark = [] ∨ mark = ['!']) : isMarked (cs ++ mark) = !mark.isEmpty := by
  rcases hmark with rfl | rfl
  · simpa [isMarked] using hcs
  · simp [isMarked]

theorem body_append {cs mark : List Char} (hcs : cs.getLast? ≠ some '!')
    (hmark : mark = [] ∨ mark = ['!']) : body (cs ++ mark) = cs := by
  rw [body, isMarked_append hcs hmark]
  rcases hmark with rfl | rfl <;> simp

/-- A text that is no key stands for what its shorthand and its value stand for. -/
theorem parse_split {cs mark name explicit : List Char} (hcs : cs.getLast? ≠ some '!')
    (hmark : mark = [] ∨ mark = ['!']) (hkey : snippets.get? (String.ofList cs) = none)
    (hparts : parts cs = (name, explicit)) (hname : name ≠ []) (offset : Nat) :
    parse snippets v (cs ++ mark) offset =
      let found := ofShorthand snippets v (String.ofList name) explicit
      .ok ⟨found.1, found.2, !mark.isEmpty, offset⟩ := by
  have hne : cs ≠ [] := by
    rintro rfl
    exact hname (Prod.mk.inj hparts).1.symm
  rw [parse_eq, body_append hcs hmark, isMarked_append hcs hmark, hkey, hparts]
  simp only [List.isEmpty_iff, hne, hname, if_false]

/-- What ends a text still ends it when a colon is put into it. -/
theorem getLast?_colon {p r : List Char} (hr : r ≠ []) :
    (p ++ ':' :: r).getLast? = (p ++ r).getLast? := by
  rw [List.getLast?_append_of_ne_nil _ hr, List.getLast?_append_of_ne_nil _ (List.cons_ne_nil _ _),
    List.getLast?_cons_of_ne_nil hr]

/-- A value may be glued to a shorthand or stand after a colon. -/
theorem parse_value_colon {name value mark : List Char}
    (hcolon : ':' ∉ name ++ value) (hkey : snippets.get? (String.ofList (name ++ value)) = none)
    (hend : (name ++ value).getLast? ≠ some '!') (hmark : mark = [] ∨ mark = ['!'])
    (hsplit : splitValue (name ++ value) = (name, value)) (hname : name ≠ []) (hvalue : value ≠ [])
    (hcolonKey : snippets.get? (String.ofList (name ++ ':' :: value)) = none) (offset : Nat) :
    ∃ d, parse snippets v (name ++ value ++ mark) offset = .ok d ∧
      parse snippets v (name ++ ':' :: value ++ mark) offset = .ok d := by
  have hnocolon : ':' ∉ name := fun h ↦ hcolon (List.mem_append_left value h)
  have hglued : parts (name ++ value) = (name, value) := (parts_of_not_mem hcolon).trans hsplit
  have hparted : parts (name ++ ':' :: value) = (name, value) := parts_append hnocolon value
  exact ⟨_, parse_split hend hmark hkey hglued hname offset,
    parse_split (getLast?_colon hvalue ▸ hend) hmark hcolonKey hparted hname offset⟩

/-- A keyword may be glued to a key or stand after a colon.  In the second form it is read as a
value, and there it is one keyword. -/
theorem parse_keyword_colon {name p r mark : List Char} {snippet : Snippet} {keyword : String}
    (hcolon : ':' ∉ name) (hend : name.getLast? ≠ some '!') (hmark : mark = [] ∨ mark = ['!'])
    (hsplit : splitValue name = (name, [])) (h : Glues snippets v name p r snippet keyword)
    (hr : Keyword.IsKeyword r) (offset : Nat) :
    ∃ d, parse snippets v (name ++ mark) offset = .ok d ∧
      parse snippets v (p ++ ':' :: r ++ mark) offset = .ok d := by
  obtain ⟨⟨text, htext, hsnippet⟩, hkeyword⟩ := h.fits
  have hnocolon : ':' ∉ p := fun hp ↦ hcolon (h.whole ▸ List.mem_append_left r hp)
  have hname : name ≠ [] := h.whole ▸ List.append_ne_nil_of_left_ne_nil h.key_ne_nil r
  have hend' : (p ++ ':' :: r).getLast? ≠ some '!' := by
    rw [getLast?_colon h.rest_ne_nil, h.whole]
    exact hend
  have hkey : snippets.get? (String.ofList (p ++ ':' :: r)) = none :=
    h.no_colon_key p r h.key_ne_nil h.rest_ne_nil h.whole
  have hglued : ofShorthand snippets v (String.ofList name) []
      = (snippet.property, some [.text keyword]) := by
    rw [ofShorthand, lookup_glued_iff.2 ⟨p, r, h⟩]
    rfl
  have hparted : ofShorthand snippets v (String.ofList p) r
      = (snippet.property, some [.text keyword]) := by
    have hne : r.isEmpty = false := by simpa using h.rest_ne_nil
    rw [ofShorthand, lookup, htext]
    simp only [← hsnippet, hne, Bool.not_false, if_true, parseValue_keyword hr, hkeyword,
      Option.getD_some]
  have hfirst := parse_split (v := v) hend hmark h.not_key ((parts_of_not_mem hcolon).trans hsplit)
    hname offset
  have hsecond := parse_split (v := v) hend' hmark hkey (parts_append hnocolon r) h.key_ne_nil
    offset
  rw [hglued] at hfirst
  rw [hparted] at hsecond
  exact ⟨_, hfirst, hsecond⟩

/-- **Glued and colon forms agree.**  Let a text without a colon be no key and not end in an
exclamation mark, and be parted where a value begins.  If it has both a name and a value, then it
may be typed with a colon between them, unless that is a key.  If it has no value and a keyword is
glued to a key in it, then it may be typed with a colon between these two.  Either way it stands for
the same declaration, with an exclamation mark after it or without. -/
theorem colon_forms_agree (snippets : Table String) (v : Vocabulary)
    {typed name value mark : List Char} (offset : Nat) (hcolon : ':' ∉ typed)
    (hkey : snippets.get? (String.ofList typed) = none) (hend : typed.getLast? ≠ some '!')
    (hmark : mark = [] ∨ mark = ['!']) (hsplit : splitValue typed = (name, value)) :
    (name ≠ [] → value ≠ [] → snippets.get? (String.ofList (name ++ ':' :: value)) = none →
      ∃ d, parse snippets v (name ++ value ++ mark) offset = .ok d ∧
        parse snippets v (name ++ ':' :: value ++ mark) offset = .ok d) ∧
    (value = [] → ∀ p r snippet keyword, Glues snippets v name p r snippet keyword →
      Keyword.IsKeyword r →
      ∃ d, parse snippets v (name ++ mark) offset = .ok d ∧
        parse snippets v (p ++ ':' :: r ++ mark) offset = .ok d) := by
  have htyped : name ++ value = typed := by
    rw [← splitValue_append typed, hsplit]
  subst htyped
  refine ⟨fun hname hvalue hcolonKey ↦ ?_, ?_⟩
  · exact parse_value_colon hcolon hkey hend hmark hsplit hname hvalue hcolonKey offset
  · rintro rfl p r snippet keyword h hr
    rw [List.append_nil] at hcolon hend hsplit
    exact parse_keyword_colon hcolon hend hmark hsplit h hr offset

/-- A shorthand with keywords, and one without. -/
def displayAndMargin : Table String := [("d", "display:block|inline-block"), ("m", "margin:")]

theorem glues_display : Glues displayAndMargin ValueToken.pixels ['d', 'i', 'b'] ['d'] ['i', 'b']
    (Snippet.parse "display:block|inline-block") "inline-block" where
  whole := rfl
  key_ne_nil := List.cons_ne_nil _ _
  rest_ne_nil := List.cons_ne_nil _ _
  fits := ⟨⟨_, rfl, rfl⟩, by decide +kernel⟩
  not_key := by decide +kernel
  no_colon_key :=
    have hnone : ((cuts ['d', 'i', 'b']).findSome? fun cut ↦
        displayAndMargin.get? (String.ofList (cut.1 ++ ':' :: cut.2))) = none := by decide +kernel
    findSome?_cuts_eq_none_iff.1 hnone
  longest q s hs hqs hlt := by
    rintro other word ⟨⟨text, htext, -⟩, -⟩
    have hq : q ≠ [] := List.ne_nil_of_length_pos (Nat.zero_lt_of_lt hlt)
    have hcut : (q, s) ∈ cuts ['d', 'i', 'b'] := mem_cuts_iff.2 ⟨hq, hs, hqs⟩
    have hcuts : cuts ['d', 'i', 'b'] = [(['d', 'i'], ['b']), (['d'], ['i', 'b'])] := by decide
    rw [hcuts] at hcut
    rcases List.mem_pair.1 hcut with h | h
    · have hnone : displayAndMargin.get? (String.ofList ['d', 'i']) = none := by decide +kernel
      rw [(Prod.mk.inj h).1, hnone] at htext
      cases htext
    · rw [(Prod.mk.inj h).1] at hlt
      exact absurd hlt (Nat.lt_irrefl _)

/-- `m10!` is `m:10!`, and `dib` is `d:ib`. -/
theorem colon_forms_display_margin :
    (∃ d, parse displayAndMargin ValueToken.pixels ['m', '1', '0', '!'] 4 = .ok d ∧
      parse displayAndMargin ValueToken.pixels ['m', ':', '1', '0', '!'] 4 = .ok d) ∧
    ∃ d, parse displayAndMargin ValueToken.pixels ['d', 'i', 'b'] 0 = .ok d ∧
      parse displayAndMargin ValueToken.pixels ['d', ':', 'i', 'b'] 0 = .ok d := by
  have hib : Keyword.IsKeyword ['i', 'b'] := (Keyword.isKeyword_iff _).1 (by decide)
  have hsplit : splitValue ['m', '1', '0'] = (['m'], ['1', '0']) := by decide
  have hwhole : splitValue ['d', 'i', 'b'] = (['d', 'i', 'b'], []) := by decide
  have hmargin := colon_forms_agree displayAndMargin ValueToken.pixels 4 (by decide)
    (by decide +kernel) (by decide) (.inr rfl) hsplit
  have hdisplay := colon_forms_agree displayAndMargin ValueToken.pixels 0 (by decide)
    (by decide +kernel) (by decide) (.inl rfl) hwhole
  exact ⟨hmargin.1 (by simp) (by simp) (by decide +kernel),
    hdisplay.2 rfl _ _ _ _ glues_display hib⟩

end Declaration

end Shorthand.Stylesheet
