import Shorthand.Proofs.Expanding
import Shorthand.Proofs.Naming
import Shorthand.Proofs.Reading

/-!
# Distinct classes and attributes

Reading and merging drop a class that an element already has, and let an attribute take the place of
that with its name.  So the elements of a tree have each class and each attribute name once, and the
passes before the numbering keep it so.  Numbering rewrites classes and names one by one: two that
differ in their `$` signs may become one.

* `Element.Tidy` : an element that has each class and each attribute name once.
* `Expansion.tidy_of_expanded` : all elements are tidy when the snippets are expanded.
* `Expansion.tidy_iff_toldApart` : they stay so exactly if numbering tells apart what differs.
-/

set_option autoImplicit false

namespace Shorthand

namespace Markup

/-! ## Elements -/

/-- A value with something in it, and with no empty text. -/
def Value.Solid (v : Value) : Prop := v ≠ [] ∧ "" ∉ Value.literals v

/-- An element that has each class once, and no empty class. -/
structure Element.Neat (e : Element) : Prop where
  classes : e.classes.Nodup
  solid : ∀ v ∈ e.classes, Value.Solid v

/-- An element that has each class and each attribute name once, and no empty class. -/
structure Element.Tidy (e : Element) : Prop extends e.Neat where
  names : (e.attributes.map (·.name)).Nodup

theorem Value.literals_append (v w : Value) :
    Value.literals (v ++ w) = Value.literals v ++ Value.literals w :=
  List.filterMap_append

theorem Value.literal_ne_empty (cs : List Char) : "" ∉ Value.literals (Value.literal cs) := by
  rw [Value.literal]
  split
  · simp [Value.literals]
  · next h =>
    have hne : String.ofList cs ≠ "" := fun heq ↦ h (by simpa using congrArg String.toList heq)
    simpa [Value.literals] using hne.symm

/-- A text that is taken apart has no empty literal part. -/
theorem Value.parse_ne_empty (s : String) : "" ∉ Value.literals (Value.parse s) := by
  rw [Value.parse, Value.ofPieces]
  generalize Text.tile Piece.read 0 s.toList = ps
  suffices h : ∀ before, "" ∉ Value.literals (Value.ofPiecesFrom before ps) from h []
  induction ps with
  | nil => exact fun before ↦ literal_ne_empty _
  | cons p ps ih =>
    intro before
    cases p with
    | char c => exact ih _
    | field f =>
      rw [Value.ofPiecesFrom, Value.literals_append, List.mem_append, not_or]
      exact ⟨literal_ne_empty _, ih []⟩

theorem Text.wordsFrom_ne_nil (word cs : List Char) : [] ∉ Text.wordsFrom word cs := by
  induction cs generalizing word with
  | nil =>
    rw [Text.wordsFrom]
    split <;> simp_all
  | cons c cs ih =>
    rw [Text.wordsFrom]
    split
    · split
      · exact ih []
      · next h =>
        rw [List.mem_cons, not_or]
        exact ⟨fun heq ↦ h (List.isEmpty_iff.2 (List.reverse_eq_nil_iff.1 heq.symm)), ih []⟩
    · exact ih _

/-- The classes of an attribute have no empty text if its value has none. -/
theorem classesOf_ne_empty {v : Value} (h : "" ∉ Value.literals v) :
    ∀ w ∈ classesOf v, "" ∉ Value.literals w := by
  intro w hw
  rw [classesOf.eq_def] at hw
  split at hw
  · cases hw
  · next s =>
    obtain ⟨word, hword, rfl⟩ := List.mem_map.1 hw
    obtain ⟨cs, hcs, rfl⟩ := List.mem_map.1 hword
    have hne : cs ≠ [] := fun heq ↦ Text.wordsFrom_ne_nil [] s.toList (heq ▸ hcs)
    have hword : String.ofList cs ≠ "" := fun heq ↦ hne (by simpa using congrArg String.toList heq)
    simpa [Value.literals] using hword.symm
  · rw [List.mem_singleton.1 hw]
    exact h

namespace Element.Neat

variable {e : Element}

theorem of_classes {f : Element} (h : e.Neat) (hclasses : f.classes = e.classes) : f.Neat :=
  ⟨hclasses ▸ h.classes, hclasses ▸ h.solid⟩

/-- Adding a class keeps the classes distinct: an empty one and one that is there are dropped. -/
theorem addClass (h : e.Neat) {v : Value} (hv : "" ∉ Value.literals v) : (e.addClass v).Neat := by
  rw [Element.addClass]
  split
  · exact h
  · next hadd =>
    rw [Bool.or_eq_true, not_or] at hadd
    have hmem : v ∉ e.classes := fun hmem ↦ hadd.2 (List.contains_iff_mem.2 hmem)
    have hne : v ≠ [] := fun heq ↦ hadd.1 (by rw [heq]; rfl)
    refine ⟨List.concat_eq_append ▸ h.classes.concat hmem, fun w hw ↦ ?_⟩
    rcases List.mem_append.1 hw with hw | hw
    · exact h.solid w hw
    · rw [List.mem_singleton.1 hw]
      exact ⟨hne, hv⟩

theorem addClasses (h : e.Neat) {vs : List Value} (hvs : ∀ v ∈ vs, "" ∉ Value.literals v) :
    (vs.foldl Element.addClass e).Neat := by
  induction vs generalizing e with
  | nil => exact h
  | cons v vs ih =>
    obtain ⟨hv, hvs⟩ := List.forall_mem_cons.1 hvs
    exact ih (h.addClass hv) hvs

theorem fold (h : e.Neat) {a : Attribute} (ha : "" ∉ Value.literals a.value) : (e.fold a).Neat := by
  rw [Element.fold]
  split
  · exact h.of_classes rfl
  · split
    · exact h.addClasses (classesOf_ne_empty ha)
    · exact h.of_classes rfl

theorem foldAll (h : e.Neat) {as : List Attribute} (has : ∀ a ∈ as, "" ∉ Value.literals a.value) :
    (as.foldl Element.fold e).Neat := by
  induction as generalizing e with
  | nil => exact h
  | cons a as ih =>
    obtain ⟨ha, has⟩ := List.forall_mem_cons.1 has
    exact ih (h.fold ha) has

/-- What was typed adds its classes to those of the snippet. -/
theorem mergeTyped (h : e.Neat) {typed : Element} (htyped : typed.Neat) :
    (e.mergeTyped typed).Neat := by
  refine (h.addClasses fun v hv ↦ (htyped.solid v hv).2).of_classes ?_
  rw [Element.mergeTyped, Element.foldl_putAttribute]

theorem map {f : Value → Value} (h : e.Neat)
    (hinj : ∀ v ∈ e.classes, ∀ w ∈ e.classes, f v = f w → v = w)
    (hsolid : ∀ v ∈ e.classes, Value.Solid v → Value.Solid (f v)) {e' : Element}
    (he' : e'.classes = e.classes.map f) : e'.Neat := by
  refine ⟨?_, ?_⟩
  · rw [he']
    exact (List.nodup_map_iff_inj_on h.classes).2 hinj
  · rw [he', List.forall_mem_map]
    exact fun v hv ↦ hsolid v hv (h.solid v hv)

end Element.Neat

theorem Value.Solid.mapScope {v : Value} (h : Value.Solid v) (f : Nat → Nat) :
    Value.Solid (v.mapScope f) := by
  refine ⟨fun hnil ↦ h.1 (List.map_eq_nil_iff.1 hnil), ?_⟩
  rw [Value.literals_mapScope]
  exact h.2

/-! ## Reading -/

namespace Source

/-- A modifier keeps the classes of an element distinct. -/
theorem Modifier.neat_addTo {e : Element} (h : e.Neat) (modifier : Modifier) :
    (modifier.addTo e).Neat := by
  cases modifier with
  | id => exact h.of_classes rfl
  | className name => exact h.addClass (Value.parse_ne_empty name)
  | text => exact h.of_classes rfl
  | attributes inner place =>
    refine h.foldAll fun a ha ↦ ?_
    rw [attributesAt] at ha
    split at ha
    · next as hread =>
      obtain ⟨-, hvalue | ⟨s, hvalue⟩⟩ := AttributeSet.value_of_read hread a ha
      · rw [hvalue]
        simp [Value.literals]
      · rw [hvalue]
        exact Value.parse_ne_empty s
    · cases ha

theorem neat_nodeFrom {e : Element} (h : e.Neat) (modifiers : List Modifier) (tail : Tail) :
    ∀ p, (nodeFrom e modifiers tail).element? = some p → p.2.Neat := by
  have hmodifiers : (modifiers.foldl Modifier.addTo e).Neat := by
    induction modifiers generalizing e with
    | nil => exact h
    | cons modifier modifiers ih => exact ih (modifier.neat_addTo h)
  have htail : (tail.addTo (modifiers.foldl Modifier.addTo e)).Neat := by
    cases tail <;> exact hmodifiers.of_classes rfl
  intro p hp
  rw [nodeFrom, Tree.nodeOf] at hp
  split at hp
  · split at hp
    · cases hp
    · cases hp
      exact htail
  · cases hp
    exact htail

mutual

theorem Item.neat_heads : ∀ (item : Item), ∀ n ∈ item.heads, ∀ p, n.element? = some p → p.2.Neat
  | .element phrase => by
    have hempty : ∀ name offset, Element.Neat { name, offset } := fun _ _ ↦ ⟨.nil, by simp⟩
    rw [Item.heads, List.forall_mem_singleton]
    cases phrase <;> exact neat_nodeFrom (hempty _ _) _ _
  | .group opening row _ count => by
    rw [Item.heads, List.forall_mem_cons]
    exact ⟨nofun, row.neat_heads⟩

/-- The elements of a row have each class once. -/
theorem Row.neat_heads : ∀ (row : Row), ∀ n ∈ row.heads, ∀ p, n.element? = some p → p.2.Neat
  | .last item => item.neat_heads
  | .more item _ rest => List.forall_mem_append.2 ⟨item.neat_heads, rest.neat_heads⟩

end

end Source

/-- The elements of a tree that is read have each class once. -/
theorem Tree.neat_of_parse {s : String} {nodes : List Node} (h : Tree.parse s = .ok nodes) :
    Node.AllElements Element.Neat nodes := by
  obtain ⟨tokens, htokens, h⟩ := bind_eq_ok_iff.1 (located_eq_ok_iff.1 h)
  obtain ⟨row, rfl, hfits, -, rfl⟩ := Tree.ofTokens_eq_ok_iff.1 h
  intro p hp
  rw [Node.elements, Source.Row.allPreorder_tree hfits] at hp
  obtain ⟨n, hn, hp⟩ := List.mem_filterMap.1 hp
  exact row.neat_heads n hn p hp

/-! ## Expanding -/

namespace Snippet

/-- Values without scopes stay apart in a scope. -/
theorem mapScope_inj {scope : Nat} {v w : Value} (hv : Value.Unscoped v) (hw : Value.Unscoped w)
    (h : (v.mapScope fun _ ↦ scope) = w.mapScope fun _ ↦ scope) : v = w := by
  have hback : ∀ x : Value, Value.Unscoped x →
      ((x.mapScope fun _ ↦ scope).mapScope fun _ ↦ 0) = x := by
    intro x hx
    rw [Value.mapScope, Value.mapScope, List.map_map]
    refine (List.map_congr_left fun p hp ↦ ?_).trans (List.map_id x)
    cases p with
    | text => rfl
    | field f =>
      have hf : f.scope = 0 := hx f (Value.mem_fields.2 hp)
      obtain ⟨index, placeholder, _⟩ := f
      cases hf
      rfl
  rw [← hback v hv, ← hback w hw, h]

theorem neat_inScope {s : String} {nodes : List Node} (h : Tree.parse s = .ok nodes)
    (scope : Nat) : Node.AllElements Element.Neat (inScope scope nodes) := by
  rw [Node.AllElements, inScope_eq, Node.elements_rewriteAll, List.forall_mem_map]
  intro p hp
  have hvalues := ((Tree.typed_of_parse h).elements p hp).values
  simp only [Element.ownValues, List.forall_mem_append] at hvalues
  exact (Tree.neat_of_parse h p hp).map
    (fun v hv w hw ↦ mapScope_inj (hvalues.1.2 v hv) (hvalues.1.2 w hw))
    (fun v _ hsolid ↦ hsolid.mapScope _) rfl

theorem neat_mergeAll {typed : Element} {times : Option Multiplier} {tops : List Node}
    {progress : Progress} (htyped : typed.Neat) (htops : Node.AllElements Element.Neat tops) :
    Node.AllElements Element.Neat (Node.mergeAll typed times tops progress).1 := by
  have hclasses : ((typed.current progress.shown).shared tops progress.toSupply).1.classes
      = typed.classes := by
    unfold Element.shared
    split <;> rfl
  rw [Node.mergeAll]
  dsimp only
  generalize ((typed.current progress.shown).shared tops progress.toSupply).1 = shared at hclasses
  have hshared := htyped.of_classes hclasses
  clear hclasses htyped
  induction tops with
  | nil => exact Node.allElements_nil
  | cons n ns ih =>
    obtain ⟨hn, hbelow, hns⟩ := Node.allElements_cons.1 htops
    refine Node.allElements_cons.2 ⟨?_, ?_, ih hns⟩
    · cases n with
      | element e t children =>
        rintro _ ⟨⟩
        exact (hn (t, e) rfl).mergeTyped hshared
      | text | group => rintro _ ⟨⟩
    · rwa [Node.children_mergeTyped]

/-- What expansion gives out has elements with each class once. -/
theorem neat_of_expandTo {depth : Nat} {table : Table String} {nodes : List Node}
    {progress : Progress} {r : List Node × Progress} (hnodes : Node.AllElements Element.Neat nodes)
    (h : expandTo depth table nodes progress = .ok r) : Node.AllElements Element.Neat r.1 := by
  induction depth generalizing table nodes progress r with
  | zero =>
    cases h
    exact hnodes
  | succ depth ih =>
    have hlasting : Lasting (Node.AllElements Element.Neat) fun _ ↦ True :=
      ⟨Node.AllElements.nodewise, fun he htops _ ↦
        ⟨neat_mergeAll (Node.allElements_element.1 he).1 htops, trivial⟩⟩
    refine (hlasting.expandNodes (fun name _ key text progress r _ _ hr ↦ ?_) hnodes trivial h).1
    obtain ⟨parsed, hparsed, hr⟩ := bind_eq_ok_iff.1 hr
    exact ⟨ih (neat_inScope hparsed _) hr, trivial⟩

end Snippet

/-! ## Copies and names -/

theorem Value.mapScope_injective {f : Nat → Nat} (hf : f.Injective) :
    Function.Injective fun v : Value ↦ v.mapScope f := by
  refine List.map_injective_iff.2 fun p q h ↦ ?_
  cases p with
  | text s => cases q <;> simp_all
  | field g =>
    cases q with
    | text => simp at h
    | field k =>
      obtain ⟨hindex, hplaceholder, hscope⟩ := Field.mk.inj (Part.field.inj h)
      cases g
      cases k
      cases hindex
      cases hplaceholder
      cases hf hscope
      rfl

/-- An element of a copy is as tidy as the one that it copies. -/
theorem Element.Tidy.renamed {e e' : Element} (h : e.Tidy) {f : Nat → Nat} (hf : f.Injective)
    (hlike : e.Like (.renamed f) e') : e'.Tidy := by
  have hclasses : e'.classes = e.classes.map fun v ↦ v.mapScope f := by
    rw [← List.forall₂_eq_eq_eq, List.forall₂_map_right_iff]
    exact hlike.classes.flip
  have hnames : e.attributes.map (·.name) = e'.attributes.map (·.name) := by
    rw [← List.forall₂_eq_eq_eq, List.forall₂_map_left_iff, List.forall₂_map_right_iff]
    exact hlike.attributes
  exact ⟨h.toNeat.map (fun v _ w _ heq ↦ Value.mapScope_injective hf heq)
    (fun v _ hsolid ↦ hsolid.mapScope f) hclasses, hnames ▸ h.names⟩

namespace Copies

theorem tidy_copyOf {m n : Node} (h : m.CopyOf n) (hn : Node.AllElements Element.Tidy [n]) :
    Node.AllElements Element.Tidy [m] := by
  obtain ⟨f, hf, hlike⟩ := h.renamed
  intro p hp
  obtain ⟨q, hq, hqp⟩ := forall₂_mem_right (Node.AllLike.singleton hlike).elements hp
  exact (hn q hq).renamed hf hqp

mutual

theorem UnrollsTo.tidy : ∀ {inherited : Option Multiplier} {ns out : List Node},
    UnrollsTo inherited ns out → Node.AllElements Element.Tidy ns →
      Node.AllElements Element.Tidy out
  | _, _, _, .nil _, _ => Node.allElements_nil
  | _, _, _, .cons hn hns, h =>
    have h := Node.AllElements.nodewise.cons.1 h
    Node.allElements_append.2 ⟨hn.tidy h.1, hns.tidy h.2⟩

theorem CopiesTo.tidy : ∀ {inherited : Option Multiplier} {n : Node} {copies : List Nat}
    {out : List Node}, CopiesTo inherited n copies out → Node.AllElements Element.Tidy [n] →
      Node.AllElements Element.Tidy out
  | _, _, _, _, .nil _ _, _ => Node.allElements_nil
  | _, _, _, _, .cons hm hfirst hrest, h =>
    Node.allElements_append.2 ⟨hfirst.tidy (tidy_copyOf hm h), hrest.tidy h⟩

/-- Carrying out multipliers keeps all elements tidy. -/
theorem DissolvesTo.tidy : ∀ {times : Option Multiplier} {m : Node} {out : List Node},
    DissolvesTo times m out → Node.AllElements Element.Tidy [m] →
      Node.AllElements Element.Tidy out
  | _, _, _, .element h, hm =>
    have hm := Node.allElements_element.1 hm
    Node.allElements_element.2 ⟨hm.1, h.tidy hm.2⟩
  | _, _, _, .text times v _ offset, _ => Node.allElements_text v times offset
  | _, _, _, .group h, hm => h.tidy (Node.allElements_group.1 hm)

end

end Copies

/-- Naming keeps all elements tidy. -/
theorem Node.tidy_nameAll {ns : List Node} (h : AllElements Element.Tidy ns)
    (parent : Option String) : AllElements Element.Tidy (nameAll parent ns) := by
  induction ns using forest_induction generalizing parent with
  | nil => exact allElements_nil
  | cons n ns below rest =>
    obtain ⟨hn, hns⟩ := AllElements.nodewise.cons.1 h
    refine AllElements.nodewise.cons.2 ⟨?_, rest hns parent⟩
    cases n with
    | element e times children =>
      obtain ⟨he, hbelow⟩ := allElements_element.1 hn
      exact allElements_element.2 ⟨⟨he.toNeat.of_classes rfl, he.names⟩, below hbelow _⟩
    | text | group => exact hn

/-! ## Numbering -/

/-- A map tells the classes of an element apart, and the names of its attributes. -/
def Element.ToldApart (m : Mapper) (e : Element) : Prop :=
  (∀ v ∈ e.classes, ∀ w ∈ e.classes, m.value v = m.value w → v = w) ∧
    ∀ a ∈ e.attributes, ∀ b ∈ e.attributes, (m.attr a).name = (m.attr b).name → a = b

/-- An element stays tidy exactly if what is rewritten stays apart. -/
theorem Element.Tidy.rewrite_iff {m : Mapper} {e : Element} (h : e.Tidy)
    (hsolid : ∀ v, Value.Solid v → Value.Solid (m.value v)) :
    (e.rewrite m).Tidy ↔ e.ToldApart m := by
  have hnames : ((e.rewrite m).attributes.map (·.name))
      = e.attributes.map fun a ↦ (m.attr a).name := List.map_map
  have hnames_iff := List.nodup_map_iff_inj_on (f := fun a : Attribute ↦ (m.attr a).name)
    h.names.of_map
  constructor
  · intro htidy
    exact ⟨(List.nodup_map_iff_inj_on h.classes).1 htidy.classes,
      hnames_iff.1 (hnames ▸ htidy.names)⟩
  · rintro ⟨hclasses, hattributes⟩
    exact ⟨h.toNeat.map hclasses (fun v _ ↦ hsolid v) rfl, hnames ▸ hnames_iff.2 hattributes⟩

namespace Numbering

theorem solid_mapText {v : Value} (times : Option Multiplier) (h : Value.Solid v) :
    Value.Solid (v.mapText (textBy times)) := by
  refine ⟨fun hnil ↦ h.1 (List.map_eq_nil_iff.1 hnil), fun hempty ↦ ?_⟩
  obtain ⟨p, hp, hs⟩ := List.mem_filterMap.1 hempty
  obtain ⟨q, hq, rfl⟩ := List.mem_map.1 hp
  cases q with
  | field => cases hs
  | text s =>
    refine textBy_ne_empty times (fun heq ↦ h.2 ?_) (Option.some.inj hs)
    exact List.mem_filterMap.2 ⟨_, hq, congrArg some heq⟩

/-- Turns leave a name without dollar signs alone. -/
theorem name_inTurn {link : Nat} {name : String} (hname : '$' ∉ name.toList)
    {places : List (Option Multiplier × Attribute)}
    (h : ∀ p ∈ places, p.2.link = some link → p.2.name = name) {last : Option Attribute}
    (hlast : ∀ b, last = some b → b.name = name) (b : Attribute)
    (hb : inTurn numberer link places last = some b) : b.name = name := by
  induction places generalizing last with
  | nil => exact hlast b hb
  | cons p ps ih =>
    obtain ⟨hp, hps⟩ := List.forall_mem_cons.1 h
    rw [inTurn_cons] at hb
    refine ih hps ?_ hb
    split
    · next hl =>
      rintro _ ⟨⟩
      have hgetD : (last.getD p.2).name = name := by
        cases last with
        | none => exact hp hl
        | some a => exact hlast a rfl
      exact (congrArg (textBy p.1) hgetD).trans (textBy_of_no_dollar p.1 hname)
    · exact hlast

/-- What numbering does to elements that are tidy. -/
structure Merging (before nodes : List Node) : Prop where
  tidy_before : Node.AllElements Element.Tidy before
  /-- No class becomes empty. -/
  solid : Node.AllElements (fun e ↦ ∀ v ∈ e.classes, Value.Solid v) nodes
  /-- Elements stay tidy exactly if what differs in them is told apart. -/
  tidy_iff : Node.AllElements Element.Tidy nodes ↔
    ∀ p ∈ Node.elements before, p.2.ToldApart (turnTaker before p.1)
  /-- They do if no class and no attribute name has a dollar sign. -/
  tidy_of_no_dollar : Node.AllElements (fun e ↦
      (∀ v ∈ e.classes, ∀ t ∈ Value.literals v, '$' ∉ t.toList) ∧
        ∀ a ∈ e.attributes, '$' ∉ a.name.toList) before → Node.AllElements Element.Tidy nodes

/-- Without dollar signs numbering tells everything apart. -/
theorem toldApart_of_no_dollar {nodes : List Node} (hc : Node.Consistent nodes)
    {p : Option Multiplier × Element} (hp : p ∈ Node.elements nodes) (htidy : p.2.Tidy)
    (hclasses : ∀ v ∈ p.2.classes, ∀ s ∈ Value.literals v, '$' ∉ s.toList)
    (hnames : ∀ a ∈ p.2.attributes, '$' ∉ a.name.toList) :
    p.2.ToldApart (turnTaker nodes p.1) := by
  have hname : ∀ a ∈ p.2.attributes, ((turnTaker nodes p.1).attr a).name = a.name := by
    intro a ha
    cases hl : a.link with
    | none =>
      simp only [turnTaker, hl]
      exact textBy_of_no_dollar p.1 (hnames a ha)
    | some link =>
      simp only [turnTaker, hl]
      -- A shared attribute is numbered by several elements in turn, each time without effect.
      have hplace : (p.1, a) ∈ Node.allPlaces nodes := by
        rw [Node.allPlaces_eq]
        exact List.mem_flatMap.2 ⟨p, hp, List.mem_map_of_mem ha⟩
      cases hturn : inTurn numberer link (Node.allPlaces nodes) none with
      | none => rfl
      | some b =>
        refine name_inTurn (hnames a ha) (fun q hq hql ↦ ?_) (by simp) b hturn
        exact congrArg Attribute.name (hc q hq (p.1, a) hplace link hql hl)
  constructor
  · intro v hv w hw heq
    have hvalue : ∀ x ∈ p.2.classes, (turnTaker nodes p.1).value x = x := fun x hx ↦
      mapText_of_no_dollar p.1 (hclasses x hx)
    rwa [hvalue v hv, hvalue w hw] at heq
  · intro a ha b hb heq
    rw [hname a ha, hname b hb] at heq
    exact List.inj_on_of_nodup_map htidy.names ha hb heq

end Numbering

end Markup

namespace Expansion

open Markup

/-- All elements of a tree whose snippets are expanded are tidy. -/
theorem tidy_of_expanded {c : Config} {s : String} {tree : List Node}
    (h : expanded c s = .ok tree) : Node.AllElements Element.Tidy tree := by
  obtain ⟨next, hinstances⟩ := exists_instances_of_expanded h
  obtain ⟨raw, hparse, hexpand⟩ := bind_eq_ok_iff.1 h
  obtain ⟨p, hp⟩ := (Snippet.expandAll_eq_ok_iff (Tree.typed_of_parse hparse)).1 hexpand
  rw [← Snippet.expandTo_succ] at hp
  exact fun q hq ↦ ⟨Snippet.neat_of_expandTo (Tree.neat_of_parse hparse) hp q hq,
    (hinstances.regular.elements q hq).names⟩

/-- **Elements stay tidy exactly if numbering tells apart what differs.**  Before the numbering each
element has each class and each attribute name once. -/
theorem tidy_iff_toldApart {c : Config} {s : String} {nodes : List Node}
    (h : markupTree c s = .ok nodes) :
    ∃ before, unnumbered c s = .ok before ∧
      nodes = Node.rewriteAll (Numbering.turnTaker before) before ∧
      Numbering.Merging before nodes := by
  obtain ⟨tree, out, htree, hunroll, rfl⟩ := exists_unrolled_of_markupTree h
  obtain ⟨next, hinstances⟩ := exists_instances_of_expanded htree
  have hout := (Copies.unrollsTo_of_unroll hinstances.consistent hunroll).tidy
    (tidy_of_expanded htree)
  have hbefore := Node.tidy_nameAll hout none
  have hconsistent : Node.Consistent (Node.nameAll none out) := by
    intro p hp q hq
    rw [Node.allPlaces_nameAll] at hp hq
    exact (Copies.unroll_keeps hinstances.consistent hunroll).1 p hp q hq
  have hunnumbered : unnumbered c s = .ok (Node.nameAll none out) := by
    obtain ⟨raw, hparse, hexpand⟩ := bind_eq_ok_iff.1 htree
    exact bind_eq_ok_iff.2 ⟨raw, hparse, bind_eq_ok_iff.2 ⟨tree, hexpand,
      bind_eq_ok_iff.2 ⟨out, hunroll, rfl⟩⟩⟩
  generalize Node.nameAll none out = before at *
  have hiff : Node.AllElements Element.Tidy (Node.rewriteAll (Numbering.turnTaker before) before) ↔
      ∀ p ∈ Node.elements before, p.2.ToldApart (Numbering.turnTaker before p.1) := by
    rw [Node.AllElements, Node.elements_rewriteAll, List.forall_mem_map]
    exact forall₂_congr fun p hp ↦
      (hbefore p hp).rewrite_iff fun v hv ↦ Numbering.solid_mapText p.1 hv
  refine ⟨before, hunnumbered, rfl, hbefore, ?_, hiff, fun hdollar ↦ hiff.2 fun p hp ↦ ?_⟩
  · rw [Node.AllElements, Node.elements_rewriteAll, List.forall_mem_map]
    intro p hp v hv
    obtain ⟨w, hw, rfl⟩ := List.mem_map.1 hv
    exact Numbering.solid_mapText p.1 ((hbefore p hp).solid w hw)
  · exact Numbering.toldApart_of_no_dollar hconsistent hp (hbefore p hp) (hdollar p hp).1
      (hdollar p hp).2

/-- A paragraph with two classes and two attributes without values. -/
def crowded (first second firstName secondName : String) (times : Option Multiplier) : Node :=
  .element
    { name := some "p", classes := [[.text first], [.text second]]
      attributes := [{ name := firstName }, { name := secondName }] }
    times []

/-- Two copies in which numbering tells the classes and the attributes apart. -/
theorem tidy_iff_toldApart_twice :
    markupTree {} "p.a$.b$[x$ y]*2"
        = .ok [crowded "a1" "b1" "x1" "y" (some ⟨2, 1⟩), crowded "a2" "b2" "x2" "y" (some ⟨2, 2⟩)] ∧
      ∃ before, unnumbered {} "p.a$.b$[x$ y]*2" = .ok before ∧
        [crowded "a1" "b1" "x1" "y" (some ⟨2, 1⟩), crowded "a2" "b2" "x2" "y" (some ⟨2, 2⟩)]
          = Node.rewriteAll (Numbering.turnTaker before) before ∧
        Numbering.Merging before
          [crowded "a1" "b1" "x1" "y" (some ⟨2, 1⟩), crowded "a2" "b2" "x2" "y" (some ⟨2, 2⟩)] := by
  have h : markupTree {} "p.a$.b$[x$ y]*2"
      = .ok [crowded "a1" "b1" "x1" "y" (some ⟨2, 1⟩),
          crowded "a2" "b2" "x2" "y" (some ⟨2, 2⟩)] := by
    decide +kernel
  exact ⟨h, tidy_iff_toldApart h⟩

/-- Numbering makes two classes one, and two attributes. -/
theorem numbering_merges :
    ∃ nodes, markupTree {} "p.a$.a1[x$ x1]" = .ok nodes ∧ ¬ Node.AllElements Element.Tidy nodes ∧
      ¬ Node.AllElements (fun e ↦ e.classes.Nodup) nodes ∧
      ¬ Node.AllElements (fun e ↦ (e.attributes.map (·.name)).Nodup) nodes := by
  refine ⟨[crowded "a1" "a1" "x1" "x1" none], by decide +kernel, ?_, ?_, ?_⟩ <;>
    rw [crowded, Node.allElements_element]
  · exact fun h ↦ absurd h.1.classes (by decide)
  · exact fun h ↦ absurd h.1 (by decide)
  · exact fun h ↦ absurd h.1 (by decide)

end Expansion

end Shorthand
