import Shorthand.Proofs.Distinct
import Shorthand.Proofs.Markers
import Shorthand.Proofs.Numeral

/-!
# Values printed and read again

Taking a text apart loses nothing but the way in which its field markers are written: the index may
be in the digits of any script and begin with zeros, and a colon may stand there for nothing.
Printing writes every marker in one way, and reading what was printed gives the same value.

What is to be shown is that printing neither makes a marker nor hides one.  A dollar sign that
begins no marker has the rest of the text behind it, and there markers may be written anew.  But
however a marker is written, it has its braces in pairs, so that the rest of the text closes what is
open exactly when its printed form does.

* `Field.PlainMarker` : a marker as printing writes it; `Field.Writes.marker_eq_iff`.
* `Piece.Spelled` : the pieces of a text, one by one.
* `Piece.Spelled.reprint` : what is printed is read as the same pieces.
* `Value.parse_print` : printing and reading again; which texts are printed as they are.
-/

set_option autoImplicit false

namespace Shorthand

/-! ## Markers as they are printed -/

/-- A marker as printing writes it: the index in plain digits without leading zeros, and a colon
only in front of a placeholder. -/
inductive Field.PlainMarker : List Char → Prop where
  | index {digits : List Char} (h : Text.IsNumeral digits) :
      Field.PlainMarker ('$' :: '\x7b' :: (digits ++ ['\x7d']))
  | placeholder {digits inner : List Char} (h : Text.IsNumeral digits) (hne : inner ≠ [])
      (hinner : braces 0 inner = some 0) :
      Field.PlainMarker ('$' :: '\x7b' :: (digits ++ ':' :: (inner ++ ['\x7d'])))

namespace Value

theorem toList_marker_index (n : Nat) :
    (marker ⟨n, "", 0⟩).toList = '$' :: '\x7b' :: (Nat.toDigits 10 n ++ ['\x7d']) := by
  simp [marker, String.toList_append]

theorem toList_marker_placeholder (n : Nat) {inner : List Char} (h : inner ≠ []) :
    (marker ⟨n, String.ofList inner, 0⟩).toList
      = '$' :: '\x7b' :: (Nat.toDigits 10 n ++ ':' :: (inner ++ ['\x7d'])) := by
  have hne : (String.ofList inner).isEmpty = false := by
    rw [← Bool.not_eq_true, String.isEmpty_iff]
    exact fun heq ↦ h (by simpa using congrArg String.toList heq)
  simp [marker, hne, String.toList_append]

end Value

theorem Text.IsNumeral.isDecimal {digits : List Char} (h : Text.IsNumeral digits) :
    ∀ c ∈ digits, Text.isDecimal c = true :=
  fun c hc ↦ Text.isDecimal_of_isDigit (h.plain c hc)

/-- A plain marker is one of some field, and it is the one that is printed for it. -/
theorem Field.PlainMarker.exists_writes {w : List Char} (h : Field.PlainMarker w) :
    ∃ f, Field.Writes w f ∧ (Value.marker f).toList = w := by
  cases h with
  | index h =>
    refine ⟨_, .index h.ne_nil h.isDecimal, ?_⟩
    rw [Value.toList_marker_index, Text.toDigits_numeral h]
  | placeholder h hne hinner =>
    refine ⟨_, .placeholder h.ne_nil h.isDecimal hinner, ?_⟩
    rw [Value.toList_marker_placeholder _ hne, Text.toDigits_numeral h]

namespace Field.Writes

variable {w : List Char} {f : Field}

theorem plain_marker (h : Field.Writes w f) : Field.PlainMarker (Value.marker f).toList := by
  cases h with
  | index =>
    rw [Value.toList_marker_index]
    exact .index (Text.isNumeral_toDigits _)
  | @placeholder digits inner _ _ hinner =>
    by_cases hne : inner = []
    · subst hne
      rw [String.ofList_nil, Value.toList_marker_index]
      exact .index (Text.isNumeral_toDigits _)
    · rw [Value.toList_marker_placeholder _ hne]
      exact .placeholder (Text.isNumeral_toDigits _) hne hinner

/-- Printing writes one of the markers of a field. -/
theorem marker (h : Field.Writes w f) : Field.Writes (Value.marker f).toList f := by
  have hdigits := fun n ↦ (Text.isNumeral_toDigits n)
  cases h with
  | @index digits =>
    have hindex := Field.Writes.index (hdigits _).ne_nil (hdigits (Text.numeral digits)).isDecimal
    rwa [Text.numeral_toDigits, ← Value.toList_marker_index] at hindex
  | @placeholder digits inner _ _ hinner =>
    by_cases hne : inner = []
    · subst hne
      have hindex := Field.Writes.index (hdigits _).ne_nil (hdigits (Text.numeral digits)).isDecimal
      rwa [Text.numeral_toDigits, ← Value.toList_marker_index] at hindex
    · have hplaceholder := Field.Writes.placeholder (hdigits _).ne_nil
        (hdigits (Text.numeral digits)).isDecimal hinner
      rwa [Text.numeral_toDigits, ← Value.toList_marker_placeholder _ hne] at hplaceholder

/-- A marker is printed as it was written exactly if it is plain. -/
theorem marker_eq_iff (h : Field.Writes w f) : (Value.marker f).toList = w ↔ PlainMarker w := by
  constructor
  · intro heq
    exact heq ▸ h.plain_marker
  · intro hplain
    obtain ⟨g, hg, heq⟩ := hplain.exists_writes
    have hself : w ++ [] = w ++ [] := rfl
    obtain ⟨rfl, -⟩ := h.unique hg hself
    exact heq

end Field.Writes

/-! ## The pieces of a text -/

/-- The marker that begins a text, as it is written there, if one does, and the number of characters
of what does begin it. -/
def Piece.written (cs : List Char) : List (List Char) × Nat :=
  match Piece.read cs with
  | ([.field _], size) => ([cs.take size], size)
  | (_, size) => ([], size)

/-- The markers of a text that are read as fields, as they are written there. -/
def Value.markers (s : String) : List (List Char) := Text.tile Piece.written 0 s.toList

/-- What a piece is printed as. -/
def Piece.text : Piece → List Char
  | .char c => [c]
  | .field f => (Value.marker f).toList

/-- A text is read as some pieces, with some markers for the fields among them. -/
inductive Piece.Spelled : List Char → List Piece → List (List Char) → Prop where
  | nil : Piece.Spelled [] [] []
  | last : Piece.Spelled ['\\'] [.char '\\'] []
  | pair (c : Char) {cs : List Char} {ps : List Piece} {ws : List (List Char)}
      (h : Piece.Spelled cs ps ws) :
      Piece.Spelled ('\\' :: c :: cs) (.char '\\' :: .char c :: ps) ws
  | char {c : Char} {cs : List Char} {ps : List Piece} {ws : List (List Char)} (hc : c ≠ '\\')
      (hf : Field.read? (c :: cs) = none) (h : Piece.Spelled cs ps ws) :
      Piece.Spelled (c :: cs) (.char c :: ps) ws
  | marker {w cs : List Char} {f : Field} {ps : List Piece} {ws : List (List Char)}
      (hw : Field.Writes w f) (h : Piece.Spelled cs ps ws) :
      Piece.Spelled (w ++ cs) (.field f :: ps) (w :: ws)

theorem Piece.exists_spelled (cs : List Char) : ∃ ps ws, Piece.Spelled cs ps ws := by
  induction h : cs.length using Nat.strongRecOn generalizing cs with
  | ind n ih =>
    match cs with
    | [] => exact ⟨_, _, .nil⟩
    | c :: cs =>
      by_cases hc : c = '\\'
      · subst hc
        match cs with
        | [] => exact ⟨_, _, .last⟩
        | d :: cs =>
          obtain ⟨ps, ws, hcs⟩ := ih cs.length (by simp at h; omega) cs rfl
          exact ⟨_, _, .pair d hcs⟩
      · cases hf : Field.read? (c :: cs) with
        | none =>
          obtain ⟨ps, ws, hcs⟩ := ih cs.length (by simp at h; omega) cs rfl
          exact ⟨_, _, .char hc hf hcs⟩
        | some found =>
          obtain ⟨w, rest, heq, hw, -⟩ := Field.read?_eq_some_iff.1 hf
          rw [heq] at h ⊢
          have hlt : rest.length < n := by
            have := List.length_pos_iff.2 hw.ne_nil
            rw [List.length_append] at h
            omega
          obtain ⟨ps, ws, hrest⟩ := ih rest.length hlt rest rfl
          exact ⟨_, _, .marker hw hrest⟩

namespace Piece.Spelled

variable {cs : List Char} {ps : List Piece} {ws : List (List Char)}

theorem tile_read (h : Piece.Spelled cs ps ws) : Text.tile Piece.read 0 cs = ps := by
  induction h with
  | nil => rfl
  | last => rfl
  | pair c _ ih => rw [Piece.tile_pair, ih]
  | char hc hf _ ih => rw [Piece.tile_char hc hf, ih]
  | marker hw _ ih =>
    rw [Text.tile_piece hw.ne_nil (hw.pieceRead _), ih]
    rfl

theorem tile_written (h : Piece.Spelled cs ps ws) : Text.tile Piece.written 0 cs = ws := by
  induction h with
  | nil => rfl
  | last => rfl
  | @pair c cs _ _ _ ih =>
    have hstep : Piece.written (['\\', c] ++ cs) = ([], 2) := rfl
    exact (Text.tile_piece (List.cons_ne_nil _ _) hstep).trans ih
  | @char c cs _ _ hc hf _ ih =>
    have hstep : Piece.written ([c] ++ cs) = ([], 1) := by
      rw [Piece.written, List.singleton_append, Piece.read_char hc hf]
    exact (Text.tile_piece (List.cons_ne_nil _ _) hstep).trans ih
  | @marker w cs _ _ _ hw _ ih =>
    have hstep : Piece.written (w ++ cs) = ([w], w.length) := by
      rw [Piece.written, hw.pieceRead]
      simp
    rw [Text.tile_piece hw.ne_nil hstep, ih]
    rfl

/-- Printing only changes how markers are written. -/
theorem alike (h : Piece.Spelled cs ps ws) : Field.Alike cs (ps.flatMap Piece.text) := by
  induction h with
  | nil => exact .nil
  | last => exact .char _ .nil
  | pair c _ ih => exact .char _ (.char c ih)
  | char _ _ _ ih => exact .char _ ih
  | marker hw _ ih => exact .part hw.neutral hw.marker.neutral ih

/-- What is printed is read as the same pieces. -/
theorem reprint (h : Piece.Spelled cs ps ws) :
    ∃ ws', Piece.Spelled (ps.flatMap Piece.text) ps ws' := by
  induction h with
  | nil => exact ⟨_, .nil⟩
  | last => exact ⟨_, .last⟩
  | pair c _ ih =>
    obtain ⟨ws', ih⟩ := ih
    exact ⟨ws', .pair c ih⟩
  | @char c cs ps ws hc hf h ih =>
    obtain ⟨ws', ih⟩ := ih
    refine ⟨ws', .char hc ?_ ih⟩
    by_cases hdollar : c = '$'
    · -- the markers behind it may be written in another way, but they close the same braces
      subst hdollar
      have hsome := h.alike.isSome_read?
      rw [hf] at hsome
      exact Option.isSome_eq_false_iff.1 hsome.symm |> Option.isNone_iff_eq_none.1
    · exact Field.read?_eq_none hdollar _
  | marker hw _ ih =>
    obtain ⟨ws', ih⟩ := ih
    exact ⟨_, .marker hw.marker ih⟩

/-- A text is printed as it is exactly if all its markers are plain. -/
theorem text_eq_iff (h : Piece.Spelled cs ps ws) :
    ps.flatMap Piece.text = cs ↔ ∀ w ∈ ws, Field.PlainMarker w := by
  induction h with
  | nil => simp
  | last => simp [Piece.text]
  | pair c _ ih => simpa [Piece.text] using ih
  | char _ _ _ ih => simpa [Piece.text] using ih
  | @marker w cs f ps ws hw _ ih =>
    rw [List.flatMap_cons, List.forall_mem_cons, ← hw.marker_eq_iff, ← ih]
    constructor
    · intro heq
      obtain ⟨-, hmarker⟩ := hw.marker.unique hw heq
      exact ⟨hmarker, List.append_cancel_left (hmarker ▸ heq)⟩
    · rintro ⟨hmarker, hrest⟩
      exact congrArg₂ _ hmarker hrest

/-- The markers of a text are written in it. -/
theorem isInfix (h : Piece.Spelled cs ps ws) : ∀ w ∈ ws, w <:+: cs ∧ ∃ f, Field.Writes w f := by
  have hlater : ∀ {cs ds : List Char} {ws : List (List Char)}, cs <:+ ds →
      (∀ w ∈ ws, w <:+: cs ∧ ∃ f, Field.Writes w f) →
      ∀ w ∈ ws, w <:+: ds ∧ ∃ f, Field.Writes w f :=
    fun hsuffix h w hw ↦ ⟨(h w hw).1.trans hsuffix.isInfix, (h w hw).2⟩
  induction h with
  | nil => simp
  | last => simp
  | pair c _ ih => exact hlater (List.suffix_append ['\\', c] _) ih
  | char _ _ _ ih => exact hlater (List.suffix_cons _ _) ih
  | marker hw _ ih =>
    refine List.forall_mem_cons.2 ⟨⟨(List.prefix_append _ _).isInfix, _, hw⟩, ?_⟩
    exact hlater (List.suffix_append _ _) ih

end Piece.Spelled

/-! ## Values -/

/-- Not both parts are literal text. -/
def Part.Apart : Part → Part → Prop
  | .text _, .text _ => False
  | _, _ => True

namespace Value

theorem toList_print_text (s : String) (v : Value) :
    (print (.text s :: v)).toList = s.toList ++ (print v).toList := by
  simp [print, String.join_cons, String.toList_append]

theorem toList_print_field (f : Field) (v : Value) :
    (print (.field f :: v)).toList = (marker f).toList ++ (print v).toList := by
  simp [print, String.join_cons, String.toList_append]

theorem toList_print_literal (cs : List Char) (v : Value) :
    (print (literal cs ++ v)).toList = cs ++ (print v).toList := by
  rw [literal]
  split
  · next hnil => rw [List.isEmpty_iff.1 hnil]; rfl
  · rw [List.singleton_append, toList_print_text, String.toList_ofList]

/-- A value is printed piece by piece. -/
theorem toList_print_ofPieces (ps : List Piece) :
    (print (ofPieces ps)).toList = ps.flatMap Piece.text := by
  suffices h : ∀ before, (print (ofPiecesFrom before ps)).toList
      = before.reverse ++ ps.flatMap Piece.text from h []
  induction ps with
  | nil =>
    intro before
    have hnil := toList_print_literal before.reverse []
    rwa [List.append_nil] at hnil
  | cons p ps ih =>
    intro before
    cases p with
    | char c =>
      rw [ofPiecesFrom, ih]
      simp [Piece.text]
    | field f =>
      rw [ofPiecesFrom, toList_print_literal, toList_print_field, ih]
      rfl

/-- Literal characters are joined as long as no field is between them. -/
theorem isChain_ofPieces (ps : List Piece) : (ofPieces ps).IsChain Part.Apart := by
  suffices h : ∀ before, (ofPiecesFrom before ps).IsChain Part.Apart from h []
  induction ps with
  | nil =>
    intro before
    rw [ofPiecesFrom, literal]
    split
    · exact .nil
    · exact .singleton _
  | cons p ps ih =>
    intro before
    cases p with
    | char c => exact ih _
    | field f =>
      have hfield : (Part.field f :: ofPiecesFrom [] ps).IsChain Part.Apart :=
        List.isChain_cons.2 ⟨fun q _ ↦ by cases q <;> trivial, ih []⟩
      rw [ofPiecesFrom, literal]
      split
      · exact hfield
      · exact .cons_cons trivial hfield

/-- A text without what printing changes: digits of other scripts, markers that are read with a zero
in front of their index, and markers with a colon and no placeholder. -/
structure PlainlyWritten (s : String) : Prop where
  digits : ∀ c ∈ s.toList, Text.isDecimal c = true → c.isDigit = true
  zeros : ∀ w ∈ markers s, ∀ d, d.isDigit = true → ¬ ['$', '\x7b', '0', d] <+: w
  colons : ∀ digits ≠ [], (∀ c ∈ digits, c.isDigit = true) →
    ¬ '$' :: '\x7b' :: (digits ++ [':', '\x7d']) <:+: s.toList

theorem PlainlyWritten.plain {s : String} (h : PlainlyWritten s) {w : List Char} {f : Field}
    (hmem : w ∈ markers s) (hinside : w <:+: s.toList) (hw : Field.Writes w f) :
    Field.PlainMarker w := by
  have hnumeral : ∀ {digits rest : List Char}, digits ≠ [] →
      (∀ c ∈ digits, Text.isDecimal c = true) → w = '$' :: '\x7b' :: (digits ++ rest) →
      Text.IsNumeral digits := by
    rintro digits rest hne hdecimal rfl
    have hplain : ∀ c ∈ digits, c.isDigit = true := fun c hc ↦
      h.digits c (hinside.subset (by simp [hc])) (hdecimal c hc)
    refine ⟨hne, hplain, fun hzero ↦ ?_⟩
    match digits with
    | [] => cases hzero
    | [c] => rw [Option.some.inj hzero]
    | c :: d :: digits =>
      obtain rfl : c = '0' := Option.some.inj hzero
      exact absurd ⟨digits ++ rest, by simp⟩ (h.zeros _ hmem d (hplain d (by simp)))
  cases hw with
  | index hne hdecimal => exact .index (hnumeral hne hdecimal rfl)
  | @placeholder digits inner hne hdecimal hinner =>
    have hdigits := hnumeral hne hdecimal rfl
    refine .placeholder hdigits (fun hnil ↦ ?_) hinner
    subst hnil
    exact h.colons digits hne hdigits.plain hinside

/-- **A text that is taken apart is printed as a text that is taken apart in the same way**, in
literal parts that are not empty and not next to each other, and fields whose placeholders have
their braces in pairs.  What is printed is the text itself exactly if all markers in it are written
as printing writes them. -/
theorem parse_print (s : String) :
    parse (print (parse s)) = parse s
    ∧ "" ∉ literals (parse s)
    ∧ (parse s).IsChain Part.Apart
    ∧ (∀ f ∈ (parse s).fields, braces 0 f.placeholder.toList = some 0)
    ∧ (print (parse s) = s ↔ ∀ w ∈ markers s, Field.PlainMarker w)
    ∧ (PlainlyWritten s → print (parse s) = s) := by
  obtain ⟨ps, ws, h⟩ := Piece.exists_spelled s.toList
  have hparse : parse s = ofPieces ps := by rw [parse, h.tile_read]
  have hmarkers : markers s = ws := h.tile_written
  have hprint : (print (parse s)).toList = ps.flatMap Piece.text := by
    rw [hparse, toList_print_ofPieces]
  have hiff : print (parse s) = s ↔ ∀ w ∈ markers s, Field.PlainMarker w := by
    rw [hmarkers, ← h.text_eq_iff, ← hprint, String.toList_inj]
  refine ⟨?_, Markup.Value.parse_ne_empty s, hparse ▸ isChain_ofPieces ps, fun f hf ↦ ?_, hiff,
    fun hplain ↦ ?_⟩
  · obtain ⟨ws', h'⟩ := h.reprint
    rw [parse, hprint, h'.tile_read, hparse]
  · obtain ⟨cs, size, -, hread⟩ := read?_of_mem_parse hf
    obtain ⟨w, -, -, hw, -⟩ := Field.read?_eq_some_iff.1 hread
    exact hw.braces_placeholder
  · refine hiff.2 fun w hw ↦ ?_
    obtain ⟨hinside, f, hf⟩ := h.isInfix w (hmarkers ▸ hw)
    exact hplain.plain hw hinside hf

/-- An open marker, an escaped one, and one that is read, with a pair of braces inside. -/
theorem parse_print_open_marker :
    let s := "$\x7b1:\x7b \\$\x7b2\x7d $\x7b10:a\x7bb\x7d\x7d$\\"
    parse s = [.text "$\x7b1:\x7b \\$\x7b2\x7d ", .field ⟨10, "a\x7bb\x7d", 0⟩, .text "$\\"]
    ∧ PlainlyWritten s ∧ print (parse s) = s := by
  intro s
  have hmarkers : markers s = ["$\x7b10:a\x7bb\x7d\x7d".toList] := by decide +kernel
  have hplainly : PlainlyWritten s := by
    refine ⟨fun c hc hdecimal ↦ ?_, fun w hw d _ hprefix ↦ ?_, fun digits _ _ hinside ↦ ?_⟩
    · have hall : (s.toList.all fun c ↦ !Text.isDecimal c || c.isDigit) = true := by decide +kernel
      simpa [hdecimal] using List.all_eq_true.1 hall c hc
    · rw [hmarkers, List.mem_singleton] at hw
      subst hw
      simp at hprefix
    · have hcolon : [':', '\x7d'] <:+: s.toList :=
        (List.suffix_append ('$' :: '\x7b' :: digits) _).isInfix.trans hinside
      revert hcolon
      decide +kernel
  exact ⟨by decide +kernel, hplainly, (parse_print s).2.2.2.2.2 hplainly⟩

end Value

end Shorthand
