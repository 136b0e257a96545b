import Shorthand.Proofs.Nodewise
import Shorthand.Proofs.TextsRead

/-!
# What expansion keeps

Expanding a tree puts the top nodes of a snippet in the place of an element that names it, and hangs
what is below the element from them.  So a property that is asked of every node by itself lasts, if
what a snippet gives out has it and merging an element into top nodes keeps it.

* `Snippet.Lasting` : a property of trees that merging keeps.
* `Snippet.Lasting.expandNodes` : it lasts while a tree is expanded.
-/

set_option autoImplicit false

namespace Shorthand.Markup.Snippet

/-- A property of trees and one of what was rewritten on the way to them, which merging keeps. -/
structure Lasting (C : List Node → Prop) (I : Progress → Prop) : Prop where
  nodewise : Node.Nodewise C
  mergeAll : ∀ {e : Element} {times : Option Multiplier} {tops : List Node} {progress : Progress},
    C [.element e times []] → C tops → I progress →
      C (Node.mergeAll e times tops progress).1 ∧ I (Node.mergeAll e times tops progress).2

namespace Lasting

variable {C : List Node → Prop} {I : Progress → Prop} {snippet : Expander} {table : Table String}

mutual

theorem expandNode (h : Lasting C I) : ∀ {n : Node} {progress : Progress}
    {r : List Node × Progress}, (∀ name ∈ n.names, ∀ key text progress r,
      find? table { name } = some (key, text) → I progress →
        snippet key text progress = .ok r → C r.1 ∧ I r.2) →
      C [n] → I progress → Snippet.expandNode snippet table n progress = .ok r → C r.1 ∧ I r.2
  | .text _ _ _, _, _, _, hn, hprogress, hr => by
    cases hr
    exact ⟨hn, hprogress⟩
  | .group children _ _, _, _, hsnippet, hn, hprogress, hr => by
    obtain ⟨below, hbelow, hr⟩ := bind_eq_ok_iff.1 hr
    cases hr
    obtain ⟨hnodes, hbelow⟩ := expandNodes h hsnippet (h.nodewise.children hn) hprogress hbelow
    exact ⟨h.nodewise.withChildren hn hnodes, hbelow⟩
  | .element e times children, _, _, hsnippet, hn, hprogress, hr => by
    obtain ⟨hname, hsnippet⟩ := List.forall_mem_cons.1 hsnippet
    have hchildren := h.nodewise.children hn
    rw [Snippet.expandNode] at hr
    split at hr
    · obtain ⟨below, hbelow, hr⟩ := bind_eq_ok_iff.1 hr
      cases hr
      obtain ⟨hnodes, hbelow⟩ := expandNodes h hsnippet hchildren hprogress hbelow
      exact ⟨h.nodewise.withChildren hn hnodes, hbelow⟩
    next key text hfind =>
      obtain ⟨tops, htops, hr⟩ := bind_eq_ok_iff.1 hr
      obtain ⟨below, hbelow, hr⟩ := bind_eq_ok_iff.1 hr
      cases hr
      obtain ⟨hgiven, hprogress⟩ := hname key text _ _ hfind hprogress htops
      -- Merging looks at the element alone; what is below it is expanded afterwards.
      have hempty : C [] := (h.nodewise.append.1 (List.append_nil [_] ▸ hn)).2
      obtain ⟨hmerged, hprogress⟩ :=
        h.mergeAll (h.nodewise.withChildren hn hempty) hgiven hprogress
      obtain ⟨hnodes, hbelow⟩ := expandNodes h hsnippet hchildren hprogress hbelow
      exact ⟨h.nodewise.adoptLast hnodes hmerged, hbelow⟩

/-- What snippets give out and merging keeps lasts while a tree is expanded. -/
theorem expandNodes (h : Lasting C I) : ∀ {ns : List Node} {progress : Progress}
    {r : List Node × Progress}, (∀ name ∈ Node.allNames ns, ∀ key text progress r,
      find? table { name } = some (key, text) → I progress →
        snippet key text progress = .ok r → C r.1 ∧ I r.2) →
      C ns → I progress → Snippet.expandNodes snippet table ns progress = .ok r → C r.1 ∧ I r.2
  | [], _, _, _, hns, hprogress, hr => by
    cases hr
    exact ⟨hns, hprogress⟩
  | n :: ns, _, _, hsnippet, hns, hprogress, hr => by
    obtain ⟨hn, hns⟩ := h.nodewise.cons.1 hns
    obtain ⟨hhead, htail⟩ := List.forall_mem_append.1 hsnippet
    obtain ⟨first, hfirst, hr⟩ := bind_eq_ok_iff.1 hr
    obtain ⟨rest, hrest, hr⟩ := bind_eq_ok_iff.1 hr
    cases hr
    obtain ⟨hfirst, hprogress⟩ := expandNode h hhead hn hprogress hfirst
    obtain ⟨hrest, hprogress⟩ := expandNodes h htail hns hprogress hrest
    exact ⟨h.nodewise.append.2 ⟨hfirst, hrest⟩, hprogress⟩

end

end Lasting

end Shorthand.Markup.Snippet
