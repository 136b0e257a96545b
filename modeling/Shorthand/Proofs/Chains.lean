import Mathlib.Data.List.Dedup
import Mathlib.Data.List.Perm.Subperm
import Shorthand.Proofs.Grafting
import Shorthand.Proofs.Reading

/-!
# Chains of snippets

The tree of a snippet may name other snippets, and these others again.  Along such a chain no key
comes twice, for inside a snippet its own key names nothing.  So a chain is no longer than there are
keys, cyclic as the table may be, and expansion is never cut short by its bound on depth.

Where every text can be read and the snippets have a rank that goes down along every chain, no key
that is met is one that names nothing.  Then expansion succeeds and leaves no element that names a
snippet.

* `Snippet.Chain` : keys that lead from a tree through the trees of snippets.
* `Snippet.expandTo_of_chains` : a depth that no chain exceeds is as good as any other.
* `Tree.name_ne_empty_of_parse` : no element that was read has an empty name.
* `Snippet.expansion_ends` : chains are short, and ranked tables are expanded completely.
-/

set_option autoImplicit false

namespace Shorthand

/-! ## Tables without a name -/

namespace Table

variable {α : Type}

theorem get?_remove (t : Table α) (key name : String) :
    (t.remove key).get? name = if name = key then none else t.get? name := by
  induction t with
  | nil => simp [remove]
  | cons entry t ih =>
    have hcons : remove (entry :: t) key
        = if entry.1 = key then remove t key else entry :: remove t key := by
      by_cases h : entry.1 = key <;> simp [remove, h]
    rw [hcons, get?_cons]
    by_cases hkey : entry.1 = key
    · rw [if_pos hkey, ih, hkey]
      by_cases hname : name = key <;> simp [hname]
    · rw [if_neg hkey, get?_cons, ih]
      by_cases hname : name = entry.1 <;> simp [hname, hkey]

/-- What is left in a table was in it before. -/
theorem get?_of_remove {t : Table α} {key name : String} {value : α}
    (h : (t.remove key).get? name = some value) : t.get? name = some value := by
  rw [get?_remove] at h
  split at h
  · cases h
  · exact h

theorem has_remove (t : Table α) (key name : String) :
    (t.remove key).has name = true ↔ name ≠ key ∧ t.has name = true := by
  rw [has, get?_remove]
  split <;> simp [has, *]

theorem mem_names_of_has {t : Table α} {name : String} (h : t.has name = true) :
    name ∈ t.names := by
  obtain ⟨value, hvalue⟩ := Option.isSome_iff_exists.1 h
  obtain ⟨before, after, rfl, -⟩ := List.lookup_eq_some_iff.1 hvalue
  simp [names]

end Table

namespace Markup

/-! ## Names of elements -/

namespace Node

/-- The names of a tree are those of its elements. -/
theorem allNames_eq (ns : List Node) : allNames ns = (elements ns).map (·.2.name) := by
  induction ns using forest_induction with
  | nil => rfl
  | cons n ns below rest =>
    rw [allNames, rest, elements_cons, List.map_append, List.map_append, ← below,
      ← List.append_assoc]
    cases n <;> rfl

/-- In reading order the names of pieces that are put together are those of one piece after the
other. -/
theorem Grafted.allNames_eq {pieces : List (List Node)} {ns out : List Node}
    (h : Grafted pieces ns out) : allNames out = pieces.flatMap allNames := by
  rw [Node.allNames_eq, elements, h.listing, List.filterMap_flatMap, List.map_flatMap]
  exact congrArg (fun f ↦ pieces.flatMap f) (funext fun piece ↦ (Node.allNames_eq piece).symm)

/-- A listing has the names of its tree. -/
theorem allNames_allPreorder (ns : List Node) : allNames (allPreorder ns) = allNames ns := by
  rw [allNames_eq, elements, allPreorder_allPreorder, ← elements, ← allNames_eq]

theorem allNames_inScope (scope : Nat) (ns : List Node) :
    allNames (Snippet.inScope scope ns) = allNames ns := by
  rw [Snippet.inScope_eq, allNames_rewriteAll fun _ _ ↦ rfl]

theorem allNames_settle (shown : Shown) (ns : List Node) :
    allNames (settle shown ns) = allNames ns := by
  rw [settle_eq_rewriteAll, allNames_rewriteAll fun _ _ ↦ rfl]

theorem name_mergeTyped (e typed : Element) : (e.mergeTyped typed).name = e.name := by
  rw [Element.mergeTyped, Element.foldl_putAttribute]
  exact congrArg Prod.fst (Source.origin_foldl Source.origin_addClass typed.classes e)

/-- Merging keeps the names. -/
theorem allNames_mergeAll (typed : Element) (times : Option Multiplier) (tops : List Node)
    (p : Progress) : allNames (mergeAll typed times tops p).1 = allNames tops := by
  rw [mergeAll]
  dsimp only
  generalize ((typed.current p.shown).shared tops p.toSupply).1 = shared
  induction tops with
  | nil => rfl
  | cons n ns ih =>
    rw [List.map_cons, allNames, allNames, ih]
    cases n with
    | element e t children => rw [mergeTyped, names, names, name_mergeTyped]
    | text | group => rfl

end Node

/-! ## Names that are read -/

theorem literalChars_ne_nil {c : Char} {cs : List Char} (hc : isLiteralChar c = true) :
    (literalChars (c :: cs)).1 ≠ [] := by
  cases cs with
  | nil => simp [literalChars, hc]
  | cons d cs =>
    rw [literalChars]
    split
    · by_cases hd : d = '$'
      · simp [hd]
      · simp [unescaped_of_ne hd]
    · simp

/-- A literal token is not empty. -/
theorem Token.literal_ne_empty {s name : String} {place : Nat} {tokens : List Token}
    (h : Token.ofText s = .ok tokens) (hmem : ⟨.literal name, place⟩ ∈ tokens) : name ≠ "" := by
  obtain ⟨pos, cs, r, hr, hmem⟩ := Text.mem_tileFrom h hmem
  rw [Token.scan.eq_def] at hr
  split at hr
  · cases hr
    cases hmem
  next c cs =>
    split at hr
    · next lexeme hsign =>
      cases hr
      obtain rfl : Lexeme.literal name = lexeme :=
        congrArg Token.lexeme (List.mem_singleton.1 hmem)
      unfold Lexeme.ofChar? at hsign
      split at hsign <;> cases hsign
    · repeat' split at hr
      all_goals cases hr
      all_goals cases List.mem_singleton.1 hmem
      next hc _ out size hliteral _ =>
      intro hempty
      have hnil : out = [] := by simpa using congrArg String.toList hempty
      have hsome := @literalChars_ne_nil c cs hc
      rw [hliteral] at hsome
      exact hsome hnil

namespace Source

theorem name_nodeFrom (e : Element) (modifiers : List Modifier) (tail : Tail) :
    ∀ p, (nodeFrom e modifiers tail).element? = some p → p.2.name = e.name := by
  intro p hp
  rw [nodeFrom, Tree.nodeOf] at hp
  repeat' split at hp
  all_goals cases hp
  all_goals exact congrArg Prod.fst (origin_addTo e modifiers tail)

mutual

theorem Item.name_heads : ∀ (item : Item), ∀ n ∈ item.heads, ∀ p, n.element? = some p →
    ∀ name, p.2.name = some name → ∃ place, ⟨.literal name, place⟩ ∈ item.tokens
  | .element phrase => by
    rw [Item.heads, List.forall_mem_singleton]
    intro p hp name hname
    cases phrase with
    | named own place modifiers tail =>
      rw [name_nodeFrom _ _ _ p hp] at hname
      cases hname
      exact ⟨place, List.mem_cons_self⟩
    | nameless first others tail =>
      rw [name_nodeFrom _ _ _ p hp] at hname
      cases hname
  | .group opening row _ count => by
    rw [Item.heads, List.forall_mem_cons]
    refine ⟨nofun, fun n hn p hp name hname ↦ ?_⟩
    obtain ⟨place, hplace⟩ := row.name_heads n hn p hp name hname
    exact ⟨place, List.mem_cons_of_mem _ (List.mem_append_left _ hplace)⟩

/-- The names in a row are among its tokens. -/
theorem Row.name_heads : ∀ (row : Row), ∀ n ∈ row.heads, ∀ p, n.element? = some p →
    ∀ name, p.2.name = some name → ∃ place, ⟨.literal name, place⟩ ∈ row.tokens
  | .last item => item.name_heads
  | .more item op rest => by
    rw [Row.heads, List.forall_mem_append, Row.tokens]
    refine ⟨fun n hn p hp name hname ↦ ?_, fun n hn p hp name hname ↦ ?_⟩
    · obtain ⟨place, hplace⟩ := item.name_heads n hn p hp name hname
      exact ⟨place, List.mem_append_left _ hplace⟩
    · obtain ⟨place, hplace⟩ := rest.name_heads n hn p hp name hname
      exact ⟨place, List.mem_append_right _ (List.mem_append_right _ hplace)⟩

end

end Source

/-- No element that was read has an empty name. -/
theorem Tree.name_ne_empty_of_parse {s : String} {nodes : List Node}
    (h : Tree.parse s = .ok nodes) : some "" ∉ Node.allNames nodes := by
  obtain ⟨tokens, htokens, h⟩ := bind_eq_ok_iff.1 (located_eq_ok_iff.1 h)
  obtain ⟨row, rfl, hfits, -, rfl⟩ := Tree.ofTokens_eq_ok_iff.1 h
  rw [Node.allNames_eq, Node.elements, Source.Row.allPreorder_tree hfits]
  intro hmem
  obtain ⟨p, hp, hname⟩ := List.mem_map.1 hmem
  obtain ⟨n, hn, hp⟩ := List.mem_filterMap.1 hp
  obtain ⟨place, hplace⟩ := row.name_heads n hn p hp "" hname
  exact Token.literal_ne_empty htokens hplace rfl

namespace Snippet

variable {table : Table String} {nodes : List Node} {p : Progress}

/-- An element names a snippet by a name that is not empty. -/
theorem find?_eq_some_iff {name : Option String} {key text : String} :
    find? table { name } = some (key, text) ↔
      name = some key ∧ key ≠ "" ∧ table.get? key = some text := by
  cases name with
  | none => simp [find?]
  | some name =>
    by_cases hname : name = ""
    · simp [find?, hname]
      rintro rfl
      simp
    · simp [find?, hname]
      grind

/-! ## Chains -/

/-- The tree of a text; a text that cannot be read has none. -/
def treeOf (text : String) : List Node :=
  match Tree.parse text with
  | .ok parsed => parsed
  | .error _ => []

/-- Keys of snippets, each named in the tree of the text of the one before it, the first of them in
a given tree.  After a key has come, it names nothing. -/
inductive Chain : Table String → List Node → List String → Prop where
  | nil {table : Table String} {nodes : List Node} : Chain table nodes []
  | cons {table : Table String} {nodes : List Node} {name : Option String} {key text : String}
      {keys : List String} (hname : name ∈ Node.allNames nodes)
      (hfind : find? table { name } = some (key, text))
      (h : Chain (table.remove key) (treeOf text) keys) : Chain table nodes (key :: keys)

namespace Chain

variable {keys : List String}

/-- The keys of a chain are different keys of the table. -/
theorem keys_of_table (h : Chain table nodes keys) :
    keys.Nodup ∧ ∀ key ∈ keys, table.has key = true := by
  induction h with
  | nil => exact ⟨.nil, by simp⟩
  | @cons table nodes name key text keys _ hfind _ ih =>
    obtain ⟨hnodup, hkeys⟩ := ih
    have hothers := fun k hk ↦ (Table.has_remove table key k).1 (hkeys k hk)
    refine ⟨List.nodup_cons.2 ⟨fun hmem ↦ (hothers key hmem).1 rfl, hnodup⟩, ?_⟩
    refine List.forall_mem_cons.2 ⟨?_, fun k hk ↦ (hothers k hk).2⟩
    rw [Table.has, (find?_eq_some_iff.1 hfind).2.2]
    rfl

/-- A chain is no longer than there are keys. -/
theorem length_le (h : Chain table nodes keys) : keys.length ≤ table.names.dedup.length := by
  obtain ⟨hnodup, hkeys⟩ := h.keys_of_table
  refine (List.subperm_of_subset hnodup fun key hkey ↦ ?_).length_le
  exact List.mem_dedup.2 (Table.mem_names_of_has (hkeys key hkey))

/-- Only names matter for chains. -/
theorem of_allNames {ns : List Node} (hnames : Node.allNames nodes = Node.allNames ns)
    (h : Chain table nodes keys) : Chain table ns keys := by
  cases h with
  | nil => exact .nil
  | cons hname hfind h => exact .cons (hnames ▸ hname) hfind h

end Chain

/-! ## Expansion ends -/

section Congr

variable {snippet snippet' : Expander}

mutual

theorem expandNode_congr : ∀ (n : Node) (p : Progress), (∀ name ∈ n.names, ∀ key text p,
    find? table { name } = some (key, text) → snippet key text p = snippet' key text p) →
      expandNode snippet table n p = expandNode snippet' table n p
  | .text _ _ _, _, _ => rfl
  | .group children _ _, p, h => by rw [expandNode, expandNodes_congr children p h, expandNode]
  | .element e times children, p, h => by
    have hfind : find? table e = find? table { name := e.name } := rfl
    obtain ⟨hname, hbelow⟩ := List.forall_mem_cons.1 h
    rw [expandNode, expandNode, hfind]
    cases hfound : find? table { name := e.name } with
    | none =>
      dsimp only
      rw [expandNodes_congr children p hbelow]
    | some found =>
      dsimp only
      rw [hname found.1 found.2 p hfound]
      refine congrArg _ (funext fun r ↦ ?_)
      rw [expandNodes_congr children _ hbelow]

/-- Expansion asks for the snippets that are named, and for no others. -/
theorem expandNodes_congr : ∀ (ns : List Node) (p : Progress), (∀ name ∈ Node.allNames ns,
    ∀ key text p, find? table { name } = some (key, text) →
      snippet key text p = snippet' key text p) →
      expandNodes snippet table ns p = expandNodes snippet' table ns p
  | [], _, _ => rfl
  | n :: ns, p, h => by
    obtain ⟨hhead, htail⟩ := List.forall_mem_append.1 h
    rw [expandNodes, expandNodes, expandNode_congr n p hhead]
    refine congrArg _ (funext fun r ↦ ?_)
    obtain ⟨first, q⟩ := r
    dsimp only
    rw [expandNodes_congr ns q htail]

end

mutual

theorem expandNode_of_unnamed : ∀ (n : Node) (p : Progress),
    (∀ name ∈ n.names, find? table { name } = none) →
      expandNode snippet table n p = .ok ([n], p)
  | .text _ _ _, _, _ => rfl
  | .group children _ _, p, h => by rw [expandNode, expandNodes_of_unnamed children p h]; rfl
  | .element e times children, p, h => by
    have hfind : find? table e = find? table { name := e.name } := rfl
    obtain ⟨hname, hbelow⟩ := List.forall_mem_cons.1 h
    rw [expandNode, hfind, hname]
    dsimp only
    rw [expandNodes_of_unnamed children p hbelow]
    rfl

/-- A tree that names no snippet is its own expansion. -/
theorem expandNodes_of_unnamed : ∀ (ns : List Node) (p : Progress),
    (∀ name ∈ Node.allNames ns, find? table { name } = none) →
      expandNodes snippet table ns p = .ok (ns, p)
  | [], _, _ => rfl
  | n :: ns, p, h => by
    obtain ⟨hhead, htail⟩ := List.forall_mem_append.1 h
    rw [expandNodes, expandNode_of_unnamed n p hhead]
    dsimp only [bind, Except.bind]
    rw [expandNodes_of_unnamed ns p htail]
    rfl

end

end Congr

/-- If no chain exceeds a depth, expansion to one level more does the same. -/
theorem expandTo_succ_of_chains {depth : Nat}
    (h : ∀ keys, Chain table nodes keys → keys.length ≤ depth) :
    expandTo (depth + 1) table nodes p = expandTo depth table nodes p := by
  induction depth generalizing table nodes p with
  | zero =>
    rw [expandTo_succ]
    refine expandNodes_of_unnamed nodes p fun name hname ↦ ?_
    cases hfind : find? table { name } with
    | none => rfl
    | some found => exact absurd (h [found.1] (.cons hname hfind .nil)) (Nat.not_succ_le_zero 0)
  | succ depth ih =>
    rw [expandTo_succ, expandTo_succ]
    refine expandNodes_congr nodes p fun name hname key text p hfind ↦ ?_
    unfold expander
    cases hparse : Tree.parse text with
    | error e => rfl
    | ok parsed =>
      refine ih fun keys hkeys ↦ ?_
      have htree : treeOf text = parsed := by rw [treeOf, hparse]
      have hchain : Chain (table.remove key) (treeOf text) keys :=
        htree ▸ hkeys.of_allNames (Node.allNames_inScope _ parsed)
      exact Nat.le_of_succ_le_succ (h (key :: keys) (.cons hname hfind hchain))

/-- **Expansion is never cut short.**  A depth that no chain exceeds is as good as any greater
one. -/
theorem expandTo_of_chains {depth : Nat}
    (h : ∀ keys, Chain table nodes keys → keys.length ≤ depth) {depth' : Nat}
    (hle : depth ≤ depth') :
    expandTo depth' table nodes p = expandTo depth table nodes p := by
  induction depth', hle using Nat.le_induction with
  | base => rfl
  | succ depth' hle ih =>
    rw [expandTo_succ_of_chains fun keys hkeys ↦ Nat.le_trans (h keys hkeys) hle, ih]

/-! ## Expansion is complete -/

/-- A chain of snippets leads to the text that it began with or to one of the table. -/
theorem Reaches.exists_get? {s t : String} (h : Reaches table s t) :
    t = s ∨ ∃ key, table.get? key = some t := by
  induction h with
  | here => exact .inl rfl
  | @through table s key text t nodes name _ _ hfind _ ih =>
    rcases ih with rfl | ⟨key', hkey'⟩
    · exact .inr ⟨key, (find?_eq_some_iff.1 hfind).2.2⟩
    · exact .inr ⟨key', Table.get?_of_remove hkey'⟩

/-- Where every text of the table can be read, expansion succeeds. -/
theorem exists_expandAll (hparse : ∀ key text, table.get? key = some text →
    ∃ parsed, Tree.parse text = .ok parsed) (nodes : List Node) :
    ∃ resolved, expandAll table nodes = .ok resolved := by
  have hread : failure? (expandAll table nodes) = none := by
    rw [expandAll, failure?_map, failure_expandTo, List.findSome?_eq_none_iff]
    intro t ht
    obtain ⟨name, -, key, text, hfind, hreaches⟩ :=
      (mem_textsBelow_iff (Nat.lt_succ_self _)).1 ht
    have hget : ∃ key, table.get? key = some t := by
      rcases hreaches.exists_get? with rfl | ⟨key', hkey'⟩
      · exact ⟨key, (find?_eq_some_iff.1 hfind).2.2⟩
      · exact ⟨key', Table.get?_of_remove hkey'⟩
    obtain ⟨key', hkey'⟩ := hget
    obtain ⟨parsed, hparsed⟩ := hparse key' t hkey'
    rw [refusal?, hparsed]
    rfl
  cases h : expandAll table nodes with
  | ok resolved => exact ⟨resolved, rfl⟩
  | error e =>
    rw [h] at hread
    cases hread

/-- A rank of keys that goes down from a snippet to those that its tree names. -/
def RankedBy {α : Type} [Preorder α] (rank : String → α) (table : Table String) : Prop :=
  ∀ key text parsed name, table.get? key = some text → Tree.parse text = .ok parsed →
    some name ∈ Node.allNames parsed → table.has name = true → rank name < rank key

section Ranked

variable {α : Type} [Preorder α] {rank : String → α} {full : Table String}

/-- All names in a tree have a lower rank than the keys that are in the full table and no longer in
the table that is left. -/
def Outranked (rank : String → α) (full table : Table String) (ns : List Node) : Prop :=
  ∀ name, some name ∈ Node.allNames ns → full.has name = true →
    ∀ key, full.has key = true → table.has key = false → rank name < rank key

namespace Outranked

variable {ns : List Node}

/-- A key that is met still names its snippet; it has no lower rank than itself. -/
theorem eq_empty_of_find? (h : Outranked rank full table ns) {name : String}
    (hname : some name ∈ Node.allNames ns) (hhas : full.has name = true)
    (hfind : find? table { name := some name } = none) : name = "" := by
  by_contra hne
  have hgone : table.has name = false := by
    cases hget : table.get? name with
    | none => rw [Table.has, hget]; rfl
    | some text =>
      rw [find?_eq_some_iff.2 ⟨rfl, hne, hget⟩] at hfind
      cases hfind
  exact lt_irrefl _ (h name hname hhas name hhas hgone)

/-- Inside the tree of a snippet its key is gone, too, and the names there have a lower rank. -/
theorem parsed (h : Outranked rank full table ns) (hrank : RankedBy rank full) {key text : String}
    {parsed : List Node} (hkey : some key ∈ Node.allNames ns) (hget : full.get? key = some text)
    (hparse : Tree.parse text = .ok parsed) : Outranked rank full (table.remove key) parsed := by
  intro name hname hhas other hother hgone
  have hlt := hrank key text parsed name hget hparse hname hhas
  have hhaskey : full.has key = true := by
    rw [Table.has, hget]
    rfl
  by_cases heq : other = key
  · rw [heq]
    exact hlt
  · refine lt_trans hlt (h key hkey hhaskey other hother ?_)
    cases hold : table.has other with
    | false => rfl
    | true =>
      rw [(Table.has_remove table key other).2 ⟨heq, hold⟩] at hgone
      cases hgone

end Outranked

/-- With a rank no name of a key is left.  The key of a name that is met has a lower rank than all
keys that name nothing, so it is none of them. -/
theorem Yields.name_of_has (hrank : RankedBy rank full) {p q : Progress} {ns : List Node}
    {pieces : List (List Node)} (h : Yields table p ns pieces q)
    (hbare : ∀ n ∈ ns, n.withChildren [] = n)
    (hsub : ∀ key text, table.get? key = some text → full.get? key = some text)
    (hlower : Outranked rank full table ns) :
    ∀ name, some name ∈ pieces.flatMap Node.allNames → full.has name = true →
      name = "" ∧ some "" ∈ Node.allNames ns := by
  induction h with
  | nil => simp
  | @keep table p q n ns pieces hname _ ih =>
    obtain ⟨hn, hns⟩ := List.forall_mem_cons.1 hbare
    have hrest : Outranked rank full table ns := fun name hname ↦
      hlower name (List.mem_append_right _ hname)
    intro name hmem hhas
    rw [List.flatMap_cons, List.mem_append] at hmem
    rcases hmem with hmem | hmem
    · rw [Node.allNames, Node.allNames, List.append_nil] at hmem
      have hmem' : some name ∈ Node.allNames (n :: ns) := List.mem_append_left _ hmem
      have hfind : find? table { name := some name } = none := by
        cases n with
        | text | group => rw [← hn] at hmem; cases hmem
        | element e times children =>
          rw [← hn] at hmem
          rw [List.mem_singleton.1 hmem]
          exact hname
      obtain rfl := hlower.eq_empty_of_find? hmem' hhas hfind
      exact ⟨rfl, hmem'⟩
    · obtain ⟨hempty, hmem⟩ := ih hns hsub hrest name hmem hhas
      exact ⟨hempty, List.mem_append_right _ hmem⟩
  | @stand table p mid q e times key text parsed tops ns own pieces hfind hparse _ htops _
      ihown ihrest =>
    obtain ⟨-, hns⟩ := List.forall_mem_cons.1 hbare
    have hrest : Outranked rank full table ns := fun name hname ↦
      hlower name (List.mem_append_right _ hname)
    obtain ⟨hname, -, hget⟩ :=
      find?_eq_some_iff.1 (show find? table { name := e.name } = _ from hfind)
    have hkey : some key ∈ Node.allNames (.element e times [] :: ns) := by
      rw [← hname]
      exact List.mem_cons_self
    have hnames : Node.allNames (Node.allPreorder (inScope p.scope parsed))
        = Node.allNames parsed := by
      rw [Node.allNames_allPreorder, Node.allNames_inScope]
    have hparsed : Outranked rank full (table.remove key)
        (Node.allPreorder (inScope p.scope parsed)) := by
      rw [Outranked, hnames]
      exact hlower.parsed hrank hkey (hsub key text hget) hparse
    intro name hmem hhas
    rw [List.flatMap_cons, List.mem_append, Node.allNames_mergeAll, htops.allNames_eq] at hmem
    rcases hmem with hmem | hmem
    · have hown := ihown (fun _ ↦ Node.withChildren_nil_of_mem)
        (fun key' text' hget' ↦ hsub key' text' (Table.get?_of_remove hget')) hparsed name hmem hhas
      rw [hnames] at hown
      exact absurd hown.2 (Tree.name_ne_empty_of_parse hparse)
    · obtain ⟨hempty, hmem⟩ := ihrest hns hsub hrest name hmem hhas
      exact ⟨hempty, List.mem_append_right _ hmem⟩

end Ranked

/-- **Expansion ends, and ranked snippets are expanded completely.**  Whatever the table, no chain
of snippets has a key twice, so that none is longer than there are keys; and expansion that may go
as deep as the longest chain does what it does without a bound.  If every text of the table can be
read and keys have a rank that goes down from each snippet to those that its tree names, then
expansion succeeds, and no element of the expanded tree is named by a key.  (Only an element with an
empty name stays, which no tree that was read has.) -/
theorem expansion_ends (table : Table String) (nodes : List Node) :
    (∀ keys, Chain table nodes keys → keys.Nodup ∧ (∀ key ∈ keys, table.has key = true) ∧
      keys.length ≤ table.names.dedup.length) ∧
    (∀ depth p, (∀ keys, Chain table nodes keys → keys.length ≤ depth) →
      expandTo depth table nodes p = expandTo (table.length + 1) table nodes p) ∧
    ∀ {α : Type} [Preorder α] (rank : String → α),
      (∀ key text, table.get? key = some text → ∃ parsed, Tree.parse text = .ok parsed) →
      RankedBy rank table →
      ∃ resolved, expandAll table nodes = .ok resolved ∧
        ∀ name, some name ∈ Node.allNames resolved → table.has name = true →
          name = "" ∧ some "" ∈ Node.allNames nodes ∧ ∀ s, Tree.parse s ≠ .ok nodes := by
  have hkeys : table.names.dedup.length ≤ table.length + 1 :=
    Nat.le_succ_of_le ((List.dedup_sublist _).length_le.trans (Nat.le_of_eq (List.length_map _)))
  have hchains : ∀ keys, Chain table nodes keys → keys.length ≤ table.names.dedup.length :=
    fun keys h ↦ h.length_le
  refine ⟨fun keys h ↦ ⟨h.keys_of_table.1, h.keys_of_table.2, h.length_le⟩, fun depth p hdepth ↦ ?_,
    fun rank hparse hrank ↦ ?_⟩
  · rw [← expandTo_of_chains hdepth (Nat.le_max_left depth (table.length + 1)),
      ← expandTo_of_chains (fun keys h ↦ (hchains keys h).trans hkeys)
        (Nat.le_max_right depth (table.length + 1))]
  · obtain ⟨resolved, hresolved⟩ := exists_expandAll hparse nodes
    refine ⟨resolved, hresolved, fun name hname hhas ↦ ?_⟩
    obtain ⟨out, q, ⟨pieces, hyields, hgrafted⟩, rfl⟩ := expandAll_eq_ok_iff_expands.1 hresolved
    rw [Node.allNames_settle, hgrafted.allNames_eq] at hname
    obtain ⟨hempty, hmem⟩ := hyields.name_of_has hrank (fun _ ↦ Node.withChildren_nil_of_mem)
      (fun _ _ h ↦ h) (fun _ _ _ key hkey hnot ↦ by rw [hkey] at hnot; cases hnot) name hname hhas
    rw [Node.allNames_allPreorder] at hmem
    exact ⟨hempty, hmem, fun s hs ↦ Tree.name_ne_empty_of_parse hs hmem⟩

/-- Snippets that name one another, but not in a circle. -/
def rankedTable : Table String := [("a", "b.x>(c+d)"), ("b", "c>d"), ("c", "p*2"), ("d", "q")]

/-- How far the snippets of `rankedTable` are from the end. -/
def keyRank (name : String) : Nat :=
  if name = "a" then 2 else if name = "b" then 1 else 0

/-- `a>b`: a snippet under another. -/
def rankedTyped : List Node :=
  [.element (plainElement "a" 0) none [.element (plainElement "b" 2) none []]]

/-- Nothing is left of four snippets when `a>b` is expanded. -/
theorem expansion_ends_ranked :
    (∀ key text, rankedTable.get? key = some text → ∃ parsed, Tree.parse text = .ok parsed) ∧
      RankedBy keyRank rankedTable ∧ Tree.parse "a>b" = .ok rankedTyped ∧
      ∃ resolved, expandAll rankedTable rankedTyped = .ok resolved ∧
        ∀ name, some name ∈ Node.allNames resolved → rankedTable.has name = true →
          name = "" ∧ some "" ∈ Node.allNames rankedTyped ∧
            ∀ s, Tree.parse s ≠ .ok rankedTyped := by
  have hentries : ∀ key text, rankedTable.get? key = some text →
      (key, text) = ("a", "b.x>(c+d)") ∨ (key, text) = ("b", "c>d") ∨ (key, text) = ("c", "p*2") ∨
        (key, text) = ("d", "q") := by
    intro key text hget
    obtain ⟨before, after, htable, -⟩ := List.lookup_eq_some_iff.1 hget
    have hmem : (key, text) ∈ rankedTable := by simp [htable]
    simpa [rankedTable] using hmem
  have ha : (Tree.parse "b.x>(c+d)").map Node.allNames
      = .ok [some "b", some "c", some "d"] := by decide +kernel
  have hb : (Tree.parse "c>d").map Node.allNames = .ok [some "c", some "d"] := by decide +kernel
  have hc : (Tree.parse "p*2").map Node.allNames = .ok [some "p"] := by decide +kernel
  have hd : (Tree.parse "q").map Node.allNames = .ok [some "q"] := by decide +kernel
  have hparse : ∀ key text, rankedTable.get? key = some text →
      ∃ parsed, Tree.parse text = .ok parsed := by
    intro key text hget
    rcases hentries key text hget with h | h | h | h <;> cases h
    · exact (map_eq_ok_iff.1 ha).imp fun _ h ↦ h.1
    · exact (map_eq_ok_iff.1 hb).imp fun _ h ↦ h.1
    · exact (map_eq_ok_iff.1 hc).imp fun _ h ↦ h.1
    · exact (map_eq_ok_iff.1 hd).imp fun _ h ↦ h.1
  have hrank : RankedBy keyRank rankedTable := by
    intro key text parsed name hget hparsed hname hhas
    have hnames : ∀ {text names}, (Tree.parse text).map Node.allNames = .ok names →
        Tree.parse text = .ok parsed → some name ∈ names := by
      intro text names h hparsed
      rw [hparsed] at h
      exact Except.ok.inj h ▸ hname
    rcases hentries key text hget with h | h | h | h <;> cases h
    · have hmem := hnames ha hparsed
      simp only [List.mem_cons, Option.some.injEq, List.not_mem_nil, or_false] at hmem
      rcases hmem with rfl | rfl | rfl <;> decide
    · have hmem := hnames hb hparsed
      simp only [List.mem_cons, Option.some.injEq, List.not_mem_nil, or_false] at hmem
      rcases hmem with rfl | rfl <;> decide
    · have hmem := hnames hc hparsed
      simp only [List.mem_singleton, Option.some.injEq] at hmem
      subst hmem
      cases hhas
    · have hmem := hnames hd hparsed
      simp only [List.mem_singleton, Option.some.injEq] at hmem
      subst hmem
      cases hhas
  exact ⟨hparse, hrank, by decide +kernel,
    (expansion_ends rankedTable rankedTyped).2.2 keyRank hparse hrank⟩

end Snippet

end Markup

end Shorthand
