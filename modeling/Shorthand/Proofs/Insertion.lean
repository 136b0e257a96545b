import Shorthand.Editor.SnippetText
import Shorthand.Proofs.Success
import Shorthand.Text.Tiling
import Mathlib.Data.List.TakeWhile

/-!
# What an editor inserts

An editor reads a completion sign by sign.  A backslash takes the meaning from a backslash, a
dollar sign or a closing brace after it; `$1` and `${1}` are tab stops, `$name` and `${name}` are
variables, and `${1:` begins a placeholder, which is read in the same way and ends at its closing
brace.  Everything else is text: a dollar sign that begins nothing, a brace that closes nothing, and
the beginning of a placeholder that is never closed.

* `Editor.signs` : the signs of a text.
* `Editor.read` : what is shown of a text, with tab stops replaced by their placeholders.
* `Editor.inserted?` : the text that is inserted; none if a variable would have to be filled in.
* `Editor.signs_append_brace` : no sign goes over a closing brace.
-/

set_option autoImplicit false

namespace Shorthand.Editor

/-! ## Signs -/

/-- A sign of text with tab stops. -/
inductive Sign where
  | plain (c : Char)
  | escaped (c : Char)
  | stop (braced : Bool) (digits : List Char)
  | name (braced : Bool) (chars : List Char)
  | opening (digits : List Char)
  | closing
  deriving DecidableEq

namespace Sign

/-- How a sign is written. -/
def spelling : Sign → List Char
  | .plain c => [c]
  | .escaped c => ['\\', c]
  | .stop false digits => '$' :: digits
  | .stop true digits => '$' :: '\x7b' :: (digits ++ ['\x7d'])
  | .name false chars => '$' :: chars
  | .name true chars => '$' :: '\x7b' :: (chars ++ ['\x7d'])
  | .opening digits => '$' :: '\x7b' :: (digits ++ [':'])
  | .closing => ['\x7d']

/-- Can the name of a variable begin with this character? -/
def isNameStart (c : Char) : Bool := c.isAlpha || c == '_'

/-- Can the name of a variable go on with this character? -/
def isNameChar (c : Char) : Bool := c.isAlphanum || c == '_'

/-- The name that begins a text. -/
def nameOf : List Char → List Char
  | [] => []
  | c :: cs => if isNameStart c then c :: cs.takeWhile isNameChar else []

/-- The sign that a dollar sign and an opening brace begin, given what follows them. -/
def braced? (cs : List Char) : Option Sign :=
  let digits := cs.takeWhile Char.isDigit
  if digits.isEmpty then
    let chars := nameOf cs
    if !chars.isEmpty && (cs.drop chars.length).head? == some '\x7d' then some (.name true chars)
    else none
  else
    match (cs.drop digits.length).head? with
    | some '\x7d' => some (.stop true digits)
    | some ':' => some (.opening digits)
    | _ => none

/-- The sign that a dollar sign begins, given what follows it. -/
def dollar? (cs : List Char) : Option Sign :=
  match cs with
  | '\x7b' :: cs => braced? cs
  | cs =>
    let digits := cs.takeWhile Char.isDigit
    if !digits.isEmpty then some (.stop false digits)
    else
      let chars := nameOf cs
      if !chars.isEmpty then some (.name false chars) else none

/-- The sign that begins a text. -/
def first (c : Char) (cs : List Char) : Sign :=
  if c == '\\' then
    match cs with
    | d :: _ => if isActive d then .escaped d else .plain c
    | [] => .plain c
  else if c == '$' then (dollar? cs).getD (.plain c)
  else if c == '\x7d' then .closing
  else .plain c

/-- What holds of every sign that is read. -/
def WellFormed : Sign → Prop
  | .plain c => c ≠ '\x7d'
  | .escaped c => isActive c = true
  | .stop _ digits | .opening digits => digits ≠ [] ∧ ∀ c ∈ digits, c.isDigit = true
  | .name _ chars => chars ≠ [] ∧ ∀ c ∈ chars, isNameChar c = true
  | .closing => True

theorem spelling_ne_nil (s : Sign) : s.spelling ≠ [] := by
  rcases s with _ | _ | ⟨_ | _, _⟩ | ⟨_ | _, _⟩ | _ | _ <;> simp [spelling]

/-- A sign that is read at the beginning of a text is written there. -/
def Begins (s : Sign) (cs : List Char) : Prop := s.WellFormed ∧ s.spelling <+: cs

theorem nameOf_begins (cs : List Char) : nameOf cs <+: cs := by
  cases cs with
  | nil => exact List.prefix_refl []
  | cons c cs =>
    rw [nameOf]
    split
    · have htail : cs.takeWhile isNameChar <+: cs := List.takeWhile_prefix _
      exact (List.prefix_cons_inj c).2 htail
    · exact List.nil_prefix

theorem isNameChar_of_start {c : Char} (h : isNameStart c = true) : isNameChar c = true := by
  simp only [isNameStart, isNameChar, Char.isAlphanum, Bool.or_eq_true] at h ⊢
  exact h.imp_left .inl

theorem isNameChar_of_mem_nameOf {cs : List Char} {c : Char} (h : c ∈ nameOf cs) :
    isNameChar c = true := by
  cases cs with
  | nil => cases h
  | cons d cs =>
    rw [nameOf] at h
    split at h
    · next hd =>
      rcases List.mem_cons.1 h with rfl | h
      · exact isNameChar_of_start hd
      · exact List.mem_takeWhile_imp h
    · cases h

/-- A prefix with the character after it is a prefix. -/
theorem concat_begins {w cs : List Char} {c : Char} (h : w <+: cs)
    (hc : (cs.drop w.length).head? = some c) : w ++ [c] <+: cs := by
  obtain ⟨rest, rfl⟩ := h
  rw [List.drop_left] at hc
  obtain ⟨rest', rfl⟩ := List.head?_eq_some_iff.1 hc
  exact ⟨rest', by simp⟩

theorem begins_of_braced? {cs : List Char} {s : Sign} (h : braced? cs = some s) :
    s.Begins ('$' :: '\x7b' :: cs) := by
  have hdigits := List.takeWhile_prefix (p := Char.isDigit) (l := cs)
  have hall : ∀ c ∈ cs.takeWhile Char.isDigit, c.isDigit = true :=
    fun c hc ↦ List.mem_takeWhile_imp hc
  rw [braced?] at h
  dsimp only at h
  split at h
  · split at h
    · next hname =>
      obtain rfl := Option.some.inj h
      obtain ⟨hne, hbrace⟩ := Bool.and_eq_true_iff.1 hname
      refine ⟨⟨by simpa using hne, fun c ↦ isNameChar_of_mem_nameOf⟩, ?_⟩
      simpa [spelling] using concat_begins (nameOf_begins cs) (by simpa using hbrace)
    · cases h
  · next hne =>
    have hne : cs.takeWhile Char.isDigit ≠ [] := by simpa using hne
    split at h
    · next hbrace =>
      obtain rfl := Option.some.inj h
      exact ⟨⟨hne, hall⟩, by simpa [spelling] using concat_begins hdigits hbrace⟩
    · next hcolon =>
      obtain rfl := Option.some.inj h
      exact ⟨⟨hne, hall⟩, by simpa [spelling] using concat_begins hdigits hcolon⟩
    · cases h

theorem begins_of_dollar? {cs : List Char} {s : Sign} (h : dollar? cs = some s) :
    s.Begins ('$' :: cs) := by
  rw [dollar?.eq_def] at h
  split at h
  · exact begins_of_braced? h
  · dsimp only at h
    split at h
    · next hne =>
      obtain rfl := Option.some.inj h
      refine ⟨⟨by simpa using hne, fun c hc ↦ List.mem_takeWhile_imp hc⟩, ?_⟩
      simpa [spelling] using List.takeWhile_prefix _
    · split at h
      · next hne =>
        obtain rfl := Option.some.inj h
        refine ⟨⟨by simpa using hne, fun c ↦ isNameChar_of_mem_nameOf⟩, ?_⟩
        simpa [spelling] using nameOf_begins cs
      · cases h

/-- A text begins with its first sign. -/
theorem begins_first (c : Char) (cs : List Char) : (first c cs).Begins (c :: cs) := by
  have hplain : c ≠ '\x7d' → (Sign.plain c).Begins (c :: cs) := fun hc ↦
    ⟨hc, by simp [spelling]⟩
  rw [first.eq_def]
  split
  · next hc =>
    obtain rfl : c = '\\' := by simpa using hc
    split
    · split
      · next hd => exact ⟨hd, by simp [spelling]⟩
      · exact hplain (by decide)
    · exact hplain (by decide)
  · split
    · next hc =>
      obtain rfl : c = '$' := by simpa using hc
      cases hd : dollar? cs with
      | none => exact hplain (by decide)
      | some s => exact begins_of_dollar? hd
    · split
      · next hc =>
        obtain rfl : c = '\x7d' := by simpa using hc
        exact ⟨trivial, by simp [spelling]⟩
      · next hc => exact hplain (by simpa using hc)

end Sign

/-- The signs of a text. -/
def signs (cs : List Char) : List Sign :=
  Text.tile
    (fun
      | [] => ([], 1)
      | c :: cs => ([Sign.first c cs], (Sign.first c cs).spelling.length))
    0 cs

@[simp] theorem signs_nil : signs [] = [] := rfl

/-- The first sign of a text is read, and the rest from where it ends. -/
theorem signs_eq_cons {c : Char} {cs rest : List Char} {s : Sign} (hs : Sign.first c cs = s)
    (h : c :: cs = s.spelling ++ rest) : signs (c :: cs) = s :: signs rest := by
  obtain ⟨d, ds, hspelling⟩ := List.exists_cons_of_ne_nil s.spelling_ne_nil
  have hdrop : cs.drop (s.spelling.length - 1) = rest := by
    rw [hspelling, List.cons_append] at h
    rw [hspelling, (List.cons.inj h).2, List.length_cons, Nat.add_sub_cancel, List.drop_left]
  rw [signs, Text.tile_cons]
  dsimp only
  rw [hs, hdrop]
  rfl

/-- Every text is empty or begins with a sign. -/
theorem signs_cons (c : Char) (cs : List Char) :
    ∃ rest, c :: cs = (Sign.first c cs).spelling ++ rest ∧
      signs (c :: cs) = Sign.first c cs :: signs rest ∧ rest.length ≤ cs.length := by
  obtain ⟨rest, hrest⟩ := (Sign.begins_first c cs).2
  refine ⟨rest, hrest.symm, signs_eq_cons rfl hrest.symm, ?_⟩
  have hlength := congrArg List.length hrest
  have hpos := List.length_pos_iff.2 (Sign.first c cs).spelling_ne_nil
  rw [List.length_append, List.length_cons] at hlength
  omega

/-- To prove a property of all texts, take it from the text after the first sign. -/
theorem signs_induction {P : List Char → Prop} (nil : P [])
    (cons : ∀ c cs rest, c :: cs = (Sign.first c cs).spelling ++ rest →
      signs (c :: cs) = Sign.first c cs :: signs rest → P rest → P (c :: cs)) :
    ∀ cs, P cs
  | [] => nil
  | c :: cs => by
    obtain ⟨rest, hsplit, hsigns, hlength⟩ := signs_cons c cs
    exact cons c cs rest hsplit hsigns (signs_induction nil cons rest)
termination_by cs => cs.length

/-- A text is what its signs are written as. -/
theorem flatMap_spelling_signs (cs : List Char) : (signs cs).flatMap Sign.spelling = cs := by
  induction cs using signs_induction with
  | nil => rfl
  | cons c cs rest hsplit hsigns ih => rw [hsigns, List.flatMap_cons, ih, ← hsplit]

theorem wellFormed_of_mem_signs (cs : List Char) : ∀ s ∈ signs cs, s.WellFormed := by
  induction cs using signs_induction with
  | nil => simp
  | cons c cs rest hsplit hsigns ih =>
    rw [hsigns]
    exact List.forall_mem_cons.2 ⟨(Sign.begins_first c cs).1, ih⟩

/-! ## No sign goes over a closing brace -/

namespace Sign

theorem takeWhile_append_stop {p : Char → Bool} {d : Char} (hd : p d = false)
    (cs rest : List Char) : (cs ++ d :: rest).takeWhile p = cs.takeWhile p := by
  induction cs with
  | nil => simp [hd]
  | cons c cs ih => simp only [List.cons_append, List.takeWhile_cons, ih]

theorem nameOf_append_brace (cs rest : List Char) :
    nameOf (cs ++ '\x7d' :: rest) = nameOf cs := by
  cases cs with
  | nil => rfl
  | cons c cs => rw [List.cons_append, nameOf, nameOf, takeWhile_append_stop (by decide)]

theorem head?_drop_append_brace {w cs : List Char} (hw : w <+: cs) (rest : List Char) :
    ((cs ++ '\x7d' :: rest).drop w.length).head? = some ((cs.drop w.length).head?.getD '\x7d') := by
  rw [List.drop_append_of_le_length hw.length_le, List.head?_append]
  cases (cs.drop w.length).head? <;> rfl

theorem braced?_append_brace (cs rest : List Char) :
    braced? (cs ++ '\x7d' :: rest) = braced? (cs ++ ['\x7d']) := by
  have hdigits : cs.takeWhile Char.isDigit <+: cs := List.takeWhile_prefix _
  simp only [braced?, takeWhile_append_stop (p := Char.isDigit) (d := '\x7d') (by decide),
    nameOf_append_brace, head?_drop_append_brace (nameOf_begins cs),
    head?_drop_append_brace hdigits]

theorem dollar?_append_brace (cs rest : List Char) :
    dollar? (cs ++ '\x7d' :: rest) = dollar? (cs ++ ['\x7d']) := by
  cases cs with
  | nil => rfl
  | cons c cs =>
    by_cases hc : c = '\x7b'
    · subst hc
      exact braced?_append_brace cs rest
    · have hother : ∀ ds, dollar? (c :: ds)
          = if !((c :: ds).takeWhile Char.isDigit).isEmpty
              then some (.stop false ((c :: ds).takeWhile Char.isDigit))
            else if !(nameOf (c :: ds)).isEmpty then some (.name false (nameOf (c :: ds)))
            else none := by
        intro ds
        rw [dollar?.eq_def]
        split
        · next heq => exact absurd (List.cons.inj heq).1 hc
        · rfl
      rw [List.cons_append, List.cons_append, hother, hother, ← List.cons_append,
        ← List.cons_append]
      simp only [takeWhile_append_stop (p := Char.isDigit) (d := '\x7d') (by decide),
        nameOf_append_brace]

/-- What is after a closing brace has no part in the signs before it. -/
theorem first_append_brace (c : Char) (cs rest : List Char) :
    first c (cs ++ '\x7d' :: rest) = first c (cs ++ ['\x7d']) := by
  rw [first.eq_def, first.eq_def, dollar?_append_brace]
  cases cs <;> rfl

end Sign

/-- **No sign goes over a closing brace**: a text can be cut after it. -/
theorem signs_append_brace (cs rest : List Char) :
    signs (cs ++ '\x7d' :: rest) = signs (cs ++ ['\x7d']) ++ signs rest := by
  generalize htext : cs ++ ['\x7d'] = text
  induction text using signs_induction generalizing cs with
  | nil => simp at htext
  | cons c after text hsplit hsigns ih =>
    rw [hsigns]
    cases cs with
    | nil =>
      obtain ⟨rfl, rfl⟩ := List.cons.inj htext
      obtain rfl : text = [] := (List.cons.inj hsplit).2.symm
      exact signs_eq_cons rfl rfl
    | cons d cs =>
      rw [List.cons_append] at htext
      obtain ⟨rfl, rfl⟩ := List.cons.inj htext
      have hfirst := Sign.first_append_brace d cs rest
      rcases List.eq_nil_or_concat text with rfl | ⟨before, e, rfl⟩
      · -- The sign ends with the brace.
        have hrest : d :: (cs ++ '\x7d' :: rest)
            = (Sign.first d (cs ++ ['\x7d'])).spelling ++ rest := by
          rw [List.append_nil] at hsplit
          rw [← hsplit]
          simp
        rw [List.cons_append, signs_eq_cons hfirst hrest]
        rfl
      · rw [List.concat_eq_append] at hsplit ih ⊢
        rw [← List.cons_append, ← List.append_assoc] at hsplit
        obtain ⟨hcs, he⟩ := List.append_inj' hsplit rfl
        obtain rfl := List.singleton_inj.1 he
        have hrest : d :: (cs ++ '\x7d' :: rest)
            = (Sign.first d (cs ++ ['\x7d'])).spelling ++ (before ++ '\x7d' :: rest) := by
          rw [← List.append_assoc, ← hcs, List.cons_append]
        rw [List.cons_append, signs_eq_cons hfirst hrest, ih before rfl, List.cons_append]

/-! ## Reading -/

/-- What is shown of a text: characters, and variables that an editor would have to fill in. -/
inductive Glyph where
  | char (c : Char)
  | name (chars : List Char)
  deriving DecidableEq

/-- The character that is shown, unless it is a variable. -/
def Glyph.char? : Glyph → Option Char
  | .char c => some c
  | .name _ => none

/-- Is a placeholder closed that was opened just before?  In it `depth` others are open. -/
def closes : Nat → List Sign → Bool
  | _, [] => false
  | depth, .opening _ :: ss => closes (depth + 1) ss
  | 0, .closing :: _ => true
  | depth + 1, .closing :: ss => closes depth ss
  | depth, .plain _ :: ss | depth, .escaped _ :: ss | depth, .stop _ _ :: ss
  | depth, .name _ _ :: ss => closes depth ss

/-- What is shown of signs when `depth` placeholders are open. -/
def shown : Nat → List Sign → List Glyph
  | _, [] => []
  | depth, .plain c :: ss | depth, .escaped c :: ss => .char c :: shown depth ss
  | depth, .name _ chars :: ss => .name chars :: shown depth ss
  | depth, .stop _ _ :: ss => shown depth ss
  | depth, .opening digits :: ss =>
    if closes 0 ss then shown (depth + 1) ss
    else (Sign.opening digits).spelling.map .char ++ shown depth ss
  | 0, .closing :: ss => .char '\x7d' :: shown 0 ss
  | depth + 1, .closing :: ss => shown depth ss

/-- What is shown of a text. -/
def read (cs : List Char) : List Glyph := shown 0 (signs cs)

/-- The text that an editor inserts for a completion, with every tab stop replaced by its
placeholder; none if the completion holds a variable. -/
def inserted? (completion : String) : Option String :=
  ((read completion.toList).mapM Glyph.char?).map String.ofList

theorem char?_eq_some_iff (g : Glyph) (c : Char) : g.char? = some c ↔ g = .char c := by
  cases g <;> simp [Glyph.char?]

/-- A completion is inserted as a text exactly if it shows the characters of that text. -/
theorem inserted?_eq_some_iff {completion text : String} :
    inserted? completion = some text ↔ read completion.toList = text.toList.map .char := by
  rw [inserted?, Option.map_eq_some_iff, ← mapM_eq_some_iff char?_eq_some_iff]
  constructor
  · rintro ⟨cs, hcs, rfl⟩
    rwa [String.toList_ofList]
  · exact fun h ↦ ⟨_, h, String.ofList_toList⟩

/-! ### Plain text -/

theorem ne_of_inactive {c : Char} (h : isActive c = false) : c ≠ '\\' ∧ c ≠ '$' ∧ c ≠ '\x7d' := by
  simp only [isActive, Bool.or_eq_false_iff, beq_eq_false_iff_ne] at h
  exact ⟨h.1.1, h.1.2, h.2⟩

theorem signs_inactive {c : Char} (h : isActive c = false) (cs : List Char) :
    signs (c :: cs) = .plain c :: signs cs := by
  obtain ⟨h₁, h₂, h₃⟩ := ne_of_inactive h
  refine signs_eq_cons ?_ rfl
  simp [Sign.first, h₁, h₂, h₃]

theorem signs_brace (cs : List Char) : signs ('\x7d' :: cs) = .closing :: signs cs :=
  signs_eq_cons rfl rfl

/-- Text without active characters shows itself. -/
theorem read_inactive {w : List Char} (h : ∀ c ∈ w, isActive c = false) (cs : List Char) :
    read (w ++ cs) = w.map .char ++ read cs := by
  induction w with
  | nil => rfl
  | cons c w ih =>
    obtain ⟨hc, hw⟩ := List.forall_mem_cons.1 h
    rw [List.cons_append, read, signs_inactive hc, shown, ← read, ih hw]
    rfl

/-- A closing brace shows itself where no placeholder is open. -/
theorem read_brace (cs : List Char) : read ('\x7d' :: cs) = .char '\x7d' :: read cs := by
  rw [read, signs_brace, shown, ← read]

/-- Plain text is read back. -/
theorem read_escape (text : String) (cs : List Char) :
    read ((escape text).toList ++ cs) = text.toList.map .char ++ read cs := by
  have hchar : ∀ c (cs : List Char), read (escapeChar c ++ cs) = .char c :: read cs := by
    intro c cs
    rw [escapeChar]
    split
    · next hc =>
      have hfirst : Sign.first '\\' (c :: cs) = .escaped c := by simp [Sign.first, hc]
      exact congrArg (shown 0) (signs_eq_cons hfirst rfl)
    · next hc => exact read_inactive (w := [c]) (by simpa using hc) cs
  rw [escape, String.toList_ofList]
  generalize text.toList = w
  induction w with
  | nil => rfl
  | cons c w ih =>
    rw [List.flatMap_cons, List.append_assoc, hchar, ih]
    rfl

/-! ### Tab stops -/

theorem Sign.takeWhile_isDigit {digits : List Char} (h : ∀ c ∈ digits, c.isDigit = true) {d : Char}
    (hd : d.isDigit = false) (cs : List Char) :
    (digits ++ d :: cs).takeWhile Char.isDigit = digits := by
  rw [takeWhile_append_stop hd, List.takeWhile_eq_self_iff]
  exact h

theorem signs_stop {digits : List Char} (hne : digits ≠ [])
    (h : ∀ c ∈ digits, c.isDigit = true) (cs : List Char) :
    signs ('$' :: '\x7b' :: (digits ++ '\x7d' :: cs)) = .stop true digits :: signs cs := by
  refine signs_eq_cons ?_ (by simp [Sign.spelling])
  have hempty : digits.isEmpty = false := by simpa using hne
  simp [Sign.first, Sign.dollar?, Sign.braced?, Sign.takeWhile_isDigit h, hempty]

theorem signs_opening {digits : List Char} (hne : digits ≠ [])
    (h : ∀ c ∈ digits, c.isDigit = true) (cs : List Char) :
    signs ('$' :: '\x7b' :: (digits ++ ':' :: cs)) = .opening digits :: signs cs := by
  refine signs_eq_cons ?_ (by simp [Sign.spelling])
  have hempty : digits.isEmpty = false := by simpa using hne
  simp [Sign.first, Sign.dollar?, Sign.braced?, Sign.takeWhile_isDigit h, hempty]

theorem toList_toString_nat (n : Nat) :
    (toString n).toList ≠ [] ∧ ∀ c ∈ (toString n).toList, c.isDigit = true := by
  rw [Nat.toString_eq_ofList_toDigits, String.toList_ofList]
  exact ⟨Nat.toDigits_ne_nil, fun c hc ↦ Nat.isDigit_of_mem_toDigits (by decide) (by decide) hc⟩

/-- The signs of a tab stop and of what follows it; those of its placeholder end with the brace. -/
theorem signs_tabStop (number : Nat) (placeholder : String) (cs : List Char) :
    signs ((tabStop number placeholder).toList ++ cs)
      = (if placeholder.isEmpty then [.stop true (toString number).toList]
          else .opening (toString number).toList :: signs (placeholder.toList ++ ['\x7d']))
        ++ signs cs := by
  obtain ⟨hne, hdigits⟩ := toList_toString_nat number
  rw [tabStop]
  split
  · have htext : ("$\x7b" ++ toString number ++ "\x7d").toList ++ cs
        = '$' :: '\x7b' :: ((toString number).toList ++ '\x7d' :: cs) := by simp
    rw [htext, signs_stop hne hdigits]
    rfl
  · have htext : ("$\x7b" ++ toString number ++ ":" ++ placeholder ++ "\x7d").toList ++ cs
        = '$' :: '\x7b' :: ((toString number).toList ++ ':' ::
            (placeholder.toList ++ '\x7d' :: cs)) := by simp
    rw [htext, signs_opening hne hdigits, signs_append_brace]
    rfl

end Shorthand.Editor
