import Mathlib.Data.List.TakeWhile
import Shorthand.Proofs.Composition

/-!
# Chunks without a name

A stylesheet abbreviation is cut at its plus signs, and every chunk is read as a declaration of its
own: a shorthand, perhaps with a value, and perhaps with an exclamation mark at the end.  An unknown
shorthand is the name of a property, and any text is a value.  So all that can go wrong with a chunk
is that nothing is left to be a name.

* `Declaration.body`, `Declaration.parts` : a chunk without its mark, and its name and value.
* `Declaration.Nameless` : chunks that name nothing.
* `Declaration.parseChunks_eq_error_iff` : a row of chunks is refused for the first nameless one.
* `Expansion.Refused` : what is wrong with an abbreviation, and where.
* `Expansion.declarations_refused_iff` : when abbreviations are refused, and what becomes of others.
-/

set_option autoImplicit false

namespace Shorthand

namespace Stylesheet

/-! ## Cutting at a colon -/

namespace Snippet

theorem splitColon_of_not_mem {cs : List Char} (h : ':' ∉ cs) : splitColon cs = (cs, none) := by
  have hdrop : cs.dropWhile (· != ':') = [] := by
    refine List.dropWhile_eq_nil_iff.2 fun c hc ↦ ?_
    have hne : c ≠ ':' := fun heq ↦ h (heq ▸ hc)
    simpa using hne
  rw [splitColon, hdrop]

/-- A text is cut at its first colon. -/
theorem splitColon_append {name : List Char} (h : ':' ∉ name) (rest : List Char) :
    splitColon (name ++ ':' :: rest) = (name, some rest) := by
  have hne : ∀ c ∈ name, (c != ':') = true := fun c hc ↦ by
    have hne : c ≠ ':' := fun heq ↦ h (heq ▸ hc)
    simpa using hne
  rw [splitColon, List.dropWhile_append_of_pos hne, List.takeWhile_append_of_pos hne]
  simp

end Snippet

/-! ## Where a value begins -/

/-- A value begins a text: its first character is a digit or `#`, or it is a point or a dash with a
digit or a point after it. -/
def StartsWithValue (cs : List Char) : Prop :=
  ∃ c rest, cs = c :: rest ∧ (Text.isDigit c = true ∨ c = '#' ∨
    (c = '.' ∨ c = '-') ∧ ∃ d more, rest = d :: more ∧ (Text.isDigit d = true ∨ d = '.'))

theorem beginsValue_iff (cs : List Char) : beginsValue cs = true ↔ StartsWithValue cs := by
  rcases cs with _ | ⟨c, _ | ⟨d, more⟩⟩ <;> simp [beginsValue, StartsWithValue, or_assoc]

/-- Nothing is left in front of a value that begins a text. -/
theorem splitValue_fst_eq_nil_iff {cs : List Char} (hne : cs ≠ []) :
    (splitValue cs).1 = [] ↔ StartsWithValue cs := by
  obtain ⟨c, rest, rfl⟩ := List.exists_cons_of_ne_nil hne
  rw [splitValue, ← beginsValue_iff]
  split
  · next h => exact iff_of_true rfl h
  · next h => exact iff_of_false (List.cons_ne_nil _ _) h

/-- The name and the value that is glued to it make up the text. -/
theorem splitValue_append (cs : List Char) : (splitValue cs).1 ++ (splitValue cs).2 = cs := by
  induction cs with
  | nil => rfl
  | cons c cs ih =>
    rw [splitValue]
    split
    · rfl
    · exact congrArg (c :: ·) ih

namespace Declaration

variable {snippets : Table String} {v : Vocabulary} {chunk : List Char} {offset : Nat}

/-! ## One chunk -/

/-- Does a chunk end in an exclamation mark? -/
def isMarked (chunk : List Char) : Bool := chunk.getLast? == some '!'

/-- A chunk without the exclamation mark at its end. -/
def body (chunk : List Char) : List Char := if isMarked chunk then chunk.dropLast else chunk

/-- The shorthand of a declaration, and its explicit value: what a colon or else the beginning of a
value parts. -/
def parts (body : List Char) : List Char × List Char :=
  match Snippet.splitColon body with
  | (name, some explicit) => (name, explicit)
  | (_, none) => splitValue body

theorem parts_of_not_mem {cs : List Char} (h : ':' ∉ cs) : parts cs = splitValue cs := by
  rw [parts, Snippet.splitColon_of_not_mem h]

theorem parts_append {name : List Char} (h : ':' ∉ name) (explicit : List Char) :
    parts (name ++ ':' :: explicit) = (name, explicit) := by
  rw [parts, Snippet.splitColon_append h]

/-- Nothing is left to be a shorthand if the text begins with its colon or, without a colon, with a
value. -/
theorem parts_fst_eq_nil_iff {cs : List Char} (hne : cs ≠ []) :
    (parts cs).1 = [] ↔ cs.head? = some ':' ∨ ':' ∉ cs ∧ StartsWithValue cs := by
  by_cases hcolon : ':' ∈ cs
  · obtain ⟨name, explicit, rfl, hname⟩ := List.eq_append_cons_of_mem hcolon
    rw [parts_append hname, or_iff_left fun h ↦ h.1 hcolon]
    cases name with
    | nil => simp
    | cons c name =>
      have hc : c ≠ ':' := fun heq ↦ hname (heq ▸ List.mem_cons_self)
      simpa using hc
  · have hhead : cs.head? ≠ some ':' := fun h ↦ hcolon (List.mem_of_head? h)
    rw [parts_of_not_mem hcolon, splitValue_fst_eq_nil_iff hne, or_iff_right hhead,
      and_iff_right hcolon]

/-- What a chunk stands for: a snippet if it is a key, else what its shorthand and its value stand
for. -/
theorem parse_eq (snippets : Table String) (v : Vocabulary) (chunk : List Char) (offset : Nat) :
    parse snippets v chunk offset =
      if (body chunk).isEmpty then .error (.malformed .emptyDeclaration offset)
      else
        match snippets.get? (String.ofList (body chunk)) with
        | some text =>
          .ok ⟨(Snippet.parse text).property, (Snippet.parse text).template, isMarked chunk, offset⟩
        | none =>
          if (parts (body chunk)).1.isEmpty then .error (.malformed .noProperty offset)
          else
            let found := ofShorthand snippets v (String.ofList (parts (body chunk)).1)
              (parts (body chunk)).2
            .ok ⟨found.1, found.2, isMarked chunk, offset⟩ := rfl

/-- Does a chunk name nothing?  It is empty but for its mark; or it is no key, and it begins with
its colon or, without a colon, with a value. -/
def Nameless (snippets : Table String) (chunk : List Char) : Prop :=
  body chunk = [] ∨ snippets.get? (String.ofList (body chunk)) = none ∧
    ((body chunk).head? = some ':' ∨ ':' ∉ body chunk ∧ StartsWithValue (body chunk))

/-- A chunk is refused if it names nothing, and for no other reason. -/
theorem parse_eq_error_iff {e : Fault} :
    parse snippets v chunk offset = .error e ↔ Nameless snippets chunk ∧
      e = .malformed (if body chunk = [] then .emptyDeclaration else .noProperty) offset := by
  simp only [parse_eq, Nameless, List.isEmpty_iff]
  by_cases hbody : body chunk = []
  · rw [if_pos hbody, if_pos hbody, and_iff_right (.inl hbody), Except.error.injEq, eq_comm]
  · rw [if_neg hbody, if_neg hbody, or_iff_right hbody, ← parts_fst_eq_nil_iff hbody]
    cases snippets.get? (String.ofList (body chunk)) with
    | some text => simp
    | none => by_cases hname : (parts (body chunk)).1 = [] <;> simp [hname, eq_comm]

theorem offset_of_parse {d : Declaration} (h : parse snippets v chunk offset = .ok d) :
    d.offset = offset := by
  rw [parse_eq] at h
  split at h
  · cases h
  · split at h
    · cases h
      rfl
    · split at h <;> cases h
      rfl

/-! ## A row of chunks -/

/-- A row of chunks is refused for the first one that names nothing. -/
theorem parseChunks_eq_error_iff {chunks : List (List Char)} {offset : Nat} {e : Fault} :
    parseChunks snippets v chunks offset = .error e ↔
      ∃ before chunk after, chunks = before ++ chunk :: after ∧
        (∀ earlier ∈ before, ¬ Nameless snippets earlier) ∧
        parse snippets v chunk (offset + width before) = .error e := by
  induction chunks generalizing offset with
  | nil => simp [parseChunks]
  | cons first chunks ih =>
    have hwidth : ∀ before, offset + first.length + 1 + width before
        = offset + width (first :: before) := fun before ↦ by
      rw [width]
      omega
    rw [parseChunks, bind_eq_error_iff]
    constructor
    · rintro (h | ⟨d, hd, h⟩)
      · exact ⟨[], first, chunks, rfl, by simp, h⟩
      · have hfirst : ¬ Nameless snippets first := fun hfirst ↦ by
          cases hd.symm.trans (parse_eq_error_iff.2 ⟨hfirst, rfl⟩)
        rcases bind_eq_error_iff.1 h with h | ⟨_, _, h⟩
        · obtain ⟨before, chunk, after, rfl, hbefore, h⟩ := ih.1 h
          rw [hwidth] at h
          exact ⟨first :: before, chunk, after, rfl, List.forall_mem_cons.2 ⟨hfirst, hbefore⟩, h⟩
        · cases h
    · rintro ⟨before, chunk, after, hchunks, hbefore, h⟩
      cases before with
      | nil =>
        cases hchunks
        exact .inl h
      | cons _ before =>
        cases hchunks
        obtain ⟨hfirst, hbefore⟩ := List.forall_mem_cons.1 hbefore
        rw [← hwidth] at h
        cases hd : parse snippets v first offset with
        | error fault => exact absurd (parse_eq_error_iff.1 hd).1 hfirst
        | ok d =>
          have hrest := ih.2 ⟨before, chunk, after, rfl, hbefore, h⟩
          exact .inr ⟨d, rfl, bind_eq_error_iff.2 (.inl hrest)⟩

theorem length_of_parseChunks {chunks : List (List Char)} {offset : Nat} {ds : List Declaration}
    (h : parseChunks snippets v chunks offset = .ok ds) : ds.length = chunks.length := by
  induction chunks generalizing offset ds with
  | nil =>
    cases h
    rfl
  | cons chunk chunks ih =>
    obtain ⟨d, -, h⟩ := bind_eq_ok_iff.1 h
    obtain ⟨rest, hrest, h⟩ := bind_eq_ok_iff.1 h
    cases h
    exact congrArg (· + 1) (ih hrest)

/-- The declaration of a chunk has the place of the chunk among the others, and it begins where the
chunk does. -/
theorem getElem?_of_parseChunks {before after : List (List Char)} {offset : Nat}
    {ds : List Declaration}
    (h : parseChunks snippets v (before ++ chunk :: after) offset = .ok ds) :
    ∃ d, ds[before.length]? = some d ∧
      parse snippets v chunk (offset + width before) = .ok d := by
  obtain ⟨first, _, hfirst, hsecond, rfl⟩ := parseChunks_append_iff.1 h
  obtain ⟨d, hd, hsecond⟩ := bind_eq_ok_iff.1 hsecond
  obtain ⟨rest, -, hsecond⟩ := bind_eq_ok_iff.1 hsecond
  cases hsecond
  refine ⟨d, ?_, hd⟩
  rw [← length_of_parseChunks hfirst]
  simp

end Declaration

end Stylesheet

namespace Expansion

open Stylesheet

/-- The chunks of a stylesheet abbreviation: what stands between its plus signs. -/
def chunks (abbreviation : String) : List (List Char) := abbreviation.toList.splitOn '+'

theorem nameless_nil (snippets : Table String) : Declaration.Nameless snippets [] := .inl rfl

/-- No chunk of an abbreviation that is read names nothing. -/
theorem not_nameless_of_declarations {c : Config} {s : String} {ds : List Declaration}
    (h : declarations c s = .ok ds) :
    ∀ chunk ∈ chunks s, ¬ Declaration.Nameless c.stylesheetSnippets chunk := by
  intro chunk hmem hnameless
  obtain ⟨before, after, hchunks⟩ := List.append_of_mem hmem
  rw [declarations, Declaration.parseAll_eq_ok_iff, ← chunks, hchunks] at h
  obtain ⟨d, -, hd⟩ := Declaration.getElem?_of_parseChunks h
  cases hd.symm.trans (Declaration.parse_eq_error_iff.2 ⟨hnameless, rfl⟩)

/-- What is wrong with a stylesheet abbreviation, and where: it is empty; or there is a first chunk
that names nothing, and this is where it begins. -/
def Refused (c : Config) (s : String) (cause : Cause) (offset : Nat) : Prop :=
  (s = "" ∧ cause = .emptyAbbreviation ∧ offset = 0) ∨
  (s ≠ "" ∧ ∃ before chunk after, chunks s = before ++ chunk :: after ∧
    (∀ earlier ∈ before, ¬ Declaration.Nameless c.stylesheetSnippets earlier) ∧
    Declaration.Nameless c.stylesheetSnippets chunk ∧
    cause = (if Declaration.body chunk = [] then .emptyDeclaration else .noProperty) ∧
    offset = Declaration.width before)

/-- An abbreviation is refused for the first thing that is wrong with it. -/
theorem declarations_eq_error_iff {c : Config} {s : String} {failure : Failure} :
    declarations c s = .error failure ↔
      ∃ cause offset, failure = .malformed ⟨cause, offset, s⟩ ∧ Refused c s cause offset := by
  rw [declarations, Declaration.parseAll, located_eq_error_iff]
  by_cases hempty : s = ""
  · subst hempty
    constructor
    · rintro ⟨_, ⟨⟩, rfl⟩
      exact ⟨_, _, rfl, .inl ⟨rfl, rfl, rfl⟩⟩
    · rintro ⟨_, _, rfl, ⟨-, rfl, rfl⟩ | ⟨hne, -⟩⟩
      · exact ⟨_, rfl, rfl⟩
      · exact absurd rfl hne
  · have hisEmpty : ¬ s.isEmpty = true := by simpa using hempty
    simp only [if_neg hisEmpty, Declaration.parseChunks_eq_error_iff,
      Declaration.parse_eq_error_iff, Nat.zero_add, Refused, hempty, false_and, false_or, ne_eq,
      not_false_eq_true, true_and]
    constructor
    · rintro ⟨_, ⟨before, chunk, after, hchunks, hbefore, hnameless, rfl⟩, rfl⟩
      exact ⟨_, _, rfl, before, chunk, after, hchunks, hbefore, hnameless, rfl, rfl⟩
    · rintro ⟨_, _, rfl, before, chunk, after, hchunks, hbefore, hnameless, rfl, rfl⟩
      exact ⟨_, ⟨before, chunk, after, hchunks, hbefore, hnameless, rfl⟩, rfl⟩

/-- **Stylesheet abbreviations are refused for chunks without a name.**  An abbreviation is refused
exactly if it is empty or a chunk of it names nothing.  It is refused as malformed, at its beginning
if it is empty and else where its first nameless chunk begins.  What is not refused has one
declaration for every chunk, in the order of the chunks, and each begins where its chunk does. -/
theorem declarations_refused_iff (c : Config) (s : String) :
    ((∃ failure, declarations c s = .error failure) ↔
      s = "" ∨ ∃ chunk ∈ chunks s, Declaration.Nameless c.stylesheetSnippets chunk) ∧
    (∀ failure, declarations c s = .error failure ↔
      ∃ cause offset, failure = .malformed ⟨cause, offset, s⟩ ∧ Refused c s cause offset) ∧
    ∀ ds, declarations c s = .ok ds → ds.length = (chunks s).length ∧
      ∀ before chunk after, chunks s = before ++ chunk :: after →
        ∃ d, ds[before.length]? = some d ∧ d.offset = Declaration.width before ∧
          Declaration.parse c.stylesheetSnippets c.vocabulary chunk (Declaration.width before)
            = .ok d := by
  refine ⟨⟨?_, fun h ↦ ?_⟩, fun failure ↦ declarations_eq_error_iff, fun ds hds ↦ ?_⟩
  · rintro ⟨failure, h⟩
    obtain ⟨_, _, -, ⟨hempty, -⟩ | ⟨-, before, chunk, after, hchunks, -, hnameless, -⟩⟩ :=
      declarations_eq_error_iff.1 h
    · exact .inl hempty
    · exact .inr ⟨chunk, hchunks ▸ by simp, hnameless⟩
  · cases hds : declarations c s with
    | error failure => exact ⟨failure, rfl⟩
    | ok ds =>
      rcases h with rfl | ⟨chunk, hmem, hnameless⟩
      · have hnil : [] ∈ chunks "" := List.mem_singleton.2 rfl
        exact absurd (nameless_nil _) (not_nameless_of_declarations hds [] hnil)
      · exact absurd hnameless (not_nameless_of_declarations hds chunk hmem)
  · rw [declarations, Declaration.parseAll_eq_ok_iff, ← chunks] at hds
    refine ⟨Declaration.length_of_parseChunks hds, fun before chunk after hchunks ↦ ?_⟩
    rw [hchunks] at hds
    obtain ⟨d, hmem, hd⟩ := Declaration.getElem?_of_parseChunks hds
    rw [Nat.zero_add] at hd
    exact ⟨d, hmem, Declaration.offset_of_parse hd, hd⟩

end Expansion

end Shorthand
