import Shorthand.Proofs.LaidOut
import Shorthand.Proofs.WrittenOut
import Shorthand.Proofs.Refusing

/-!
# The limit on copies

The multipliers on the way to a node ask together for as many copies of it as their product.  A
tree is refused exactly if this is above the limit somewhere, and the first such node is blamed.
Else all the copies are made, so a tree grows by no more than the limit.

* `Copies.Capped` : what the limit does to a tree.
* `Copies.capped_of_consistent` : it does so to every tree whose linked attributes are one.
* `Expansion.expanded_capped` : in particular to every tree whose snippets are expanded.
-/

set_option autoImplicit false

namespace Shorthand

namespace Markup.Copies

/-- What a limit does to a tree. -/
structure Capped (limit : Nat) (abbreviation : String) (nodes : List Node) : Prop where
  /-- Carrying out multipliers fails exactly if more copies of a node are asked for. -/
  fails_iff : (∃ failure, unroll limit abbreviation nodes = .error failure) ↔
    ∃ r ∈ Node.routes nodes, limit < Route.product r
  /-- The first such node in reading order is blamed. -/
  blamed : ∀ failure, unroll limit abbreviation nodes = .error failure → ∃ r n,
    (Node.routes nodes).find? (fun r ↦ limit < Route.product r) = some r ∧
      Route.target r = some n ∧ failure = .malformed ⟨.tooManyCopies, n.offset, abbreviation⟩ ∧
      failure.kind = "ParseError" ∧ failure.message = "Repeat count too large"
  /-- Else there are as many copies of an element or a text as are asked for. -/
  copies : ∀ out, unroll limit abbreviation nodes = .ok out → ∃ trails, LaidOut nodes out trails ∧
    ∀ r ∈ Node.routes nodes, ∀ n, Route.target r = some n → n.isGroup = false →
      Node.following r trails = Route.product r
  bounded : ∀ out, unroll limit abbreviation nodes = .ok out →
    (Node.allPreorder out).length ≤ limit * (Node.allPreorder nodes).length

/-- The first node with too many copies is at the end of the first route that asks for them. -/
theorem tooMany?_eq (limit : Nat) (nodes : List Node) :
    (tooMany? limit (Node.allDemands 1 nodes)).map (fun d ↦ (some d.1, d.2))
      = ((Node.routes nodes).find? fun r ↦ limit < Route.product r).map fun r ↦
          ((Route.target r).map Node.offset, Route.product r) := by
  have hdemands := Node.demands_eq_routes nodes 0 1
  simp only [Nat.one_mul] at hdemands
  have hfind := congrArg (List.find? fun d ↦ decide (limit < d.2)) hdemands
  rw [List.find?_map, List.find?_map] at hfind
  exact hfind

theorem unroll_eq_error_iff {limit : Nat} {abbreviation : String} {nodes : List Node}
    {failure : Failure} : unroll limit abbreviation nodes = .error failure ↔ ∃ r n,
      (Node.routes nodes).find? (fun r ↦ limit < Route.product r) = some r ∧
        Route.target r = some n ∧
        failure = .malformed ⟨.tooManyCopies, n.offset, abbreviation⟩ := by
  have htoo := tooMany?_eq limit nodes
  rw [← failure?_eq_some_iff, failure_unroll, Option.map_eq_some_iff]
  constructor
  · rintro ⟨d, hd, rfl⟩
    rw [hd] at htoo
    obtain ⟨r, hr, heq⟩ := Option.map_eq_some_iff.1 htoo.symm
    obtain ⟨n, hn, hoffset⟩ := Option.map_eq_some_iff.1 (Prod.mk.inj heq).1
    exact ⟨r, n, hr, hn, by rw [hoffset]⟩
  · rintro ⟨r, n, hr, hn, rfl⟩
    rw [hr, Option.map_some, hn] at htoo
    obtain ⟨d, hd, heq⟩ := Option.map_eq_some_iff.1 htoo
    have hoffset : d.1 = n.offset := Option.some.inj (Prod.mk.inj heq).1
    exact ⟨d, hd, by rw [hoffset]⟩

/-- What the limit does to a tree whose linked attributes are one. -/
theorem capped_of_consistent {nodes : List Node} (hc : Node.Consistent nodes) (limit : Nat)
    (abbreviation : String) : Capped limit abbreviation nodes := by
  have hfails : (∃ failure, unroll limit abbreviation nodes = .error failure) ↔
      ∃ r ∈ Node.routes nodes, limit < Route.product r := by
    constructor
    · rintro ⟨failure, h⟩
      obtain ⟨r, n, hr, -, -⟩ := unroll_eq_error_iff.1 h
      exact ⟨r, List.mem_of_find?_eq_some hr, by simpa using List.find?_some hr⟩
    · rintro ⟨r, hr, hlt⟩
      have hfound : ((Node.routes nodes).find? fun r ↦ limit < Route.product r).isSome :=
        List.find?_isSome.2 ⟨r, hr, by simpa using hlt⟩
      obtain ⟨u, hu⟩ := Option.isSome_iff_exists.1 hfound
      have hne := Node.ne_nil_of_mem_routes (List.mem_of_find?_eq_some hu)
      obtain ⟨n, hn⟩ := Route.exists_target hne
      exact ⟨_, unroll_eq_error_iff.2 ⟨u, n, hu, hn, rfl⟩⟩
  refine ⟨hfails, fun failure h ↦ ?_, fun out h ↦ ?_, fun out h ↦ ?_⟩
  · obtain ⟨r, n, hr, hn, rfl⟩ := unroll_eq_error_iff.1 h
    exact ⟨r, n, hr, hn, rfl, rfl, rfl⟩
  · exact ⟨_, laidOut_of_unroll hc h, fun r hr n hn hgroup ↦
      Node.following_trails nodes 0 hr hn hgroup⟩
  · have hcap : ∀ r ∈ Node.routes nodes, 1 * Route.product r ≤ limit := by
      intro r hr
      rw [Nat.one_mul]
      refine Nat.le_of_not_lt fun hlt ↦ ?_
      obtain ⟨failure, herror⟩ := hfails.2 ⟨r, hr, hlt⟩
      rw [h] at herror
      cases herror
    have hlength := Node.length_trails_le nodes 0 hcap
    rw [Nat.one_mul, Node.length_routes] at hlength
    rw [← Node.length_routes out 0]
    exact (laidOut_of_unroll hc h).copies.length_eq ▸ hlength

end Markup.Copies

namespace Expansion

open Markup

/-- Linked attributes of a tree whose snippets are expanded are one attribute, no attribute name
stands twice on an element, and every multiplier asks for a copy. -/
theorem exists_instances_of_expanded {c : Config} {s : String} {nodes : List Node}
    (h : expanded c s = .ok nodes) : ∃ next : Supply, Instances ⟨1, 0⟩ next nodes := by
  obtain ⟨raw, hparse, hexpand⟩ := bind_eq_ok_iff.1 h
  have htyped := Tree.typed_of_parse hparse
  obtain ⟨p, hp⟩ := (Snippet.expandAll_eq_ok_iff htyped).1 hexpand
  exact ⟨_, (gives_of_typed htyped hp).instances⟩

/-- **The limit on copies is exact.**  A tree whose snippets are expanded is refused exactly if more
copies of a node are asked for, and the first such node is blamed; else all copies are made. -/
theorem expanded_capped {c : Config} {s : String} {nodes : List Node}
    (h : expanded c s = .ok nodes) (limit : Nat) (abbreviation : String) :
    Copies.Capped limit abbreviation nodes := by
  obtain ⟨next, hinstances⟩ := exists_instances_of_expanded h
  exact Copies.capped_of_consistent hinstances.consistent limit abbreviation

/-- Four copies are asked for of an item in a list in a repeated group, and three allowed. -/
theorem expanded_capped_nested :
    ∃ nodes, expanded {} "(ul>li*2)*2" = .ok nodes ∧ Copies.Capped 3 "(ul>li*2)*2" nodes ∧
      Copies.unroll 3 "(ul>li*2)*2" nodes
        = .error (.malformed ⟨.tooManyCopies, 4, "(ul>li*2)*2"⟩) := by
  have h : expanded {} "(ul>li*2)*2"
      = .ok [.group [.element { name := some "ul", offset := 1 } none
          [.element { name := some "li", offset := 4 } (some { count := 2 }) []]]
          (some { count := 2 }) 0] := by
    decide +kernel
  exact ⟨_, h, expanded_capped h 3 _, by decide +kernel⟩

end Expansion

end Shorthand
