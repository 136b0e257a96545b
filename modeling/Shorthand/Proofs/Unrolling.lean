import Shorthand.Proofs.Fields
import Shorthand.Proofs.Success

/-!
# One step of carrying out multipliers

Unrolling takes the nodes of a list one after the other, and for each node its copies one after the
other.  The two steps have names here, so that what a step does can be said once.

* `Copies.unrollTo_succ` : unrolling a list is unrolling its nodes in turn (`unrollNode`), and a
  node its copies in turn (`unrollCopy`).
* `Copies.unroll_text` : the copies of a text.
-/

set_option autoImplicit false

namespace Shorthand.Markup.Copies

/-- Gathering never fails where no item does; the state does not matter to what is gathered. -/
theorem gather_eq_ok {α β σ ε : Type} {f : α → σ → Except ε (List β × σ)} {g : α → List β}
    {as : List α} (h : ∀ a ∈ as, ∀ s, ∃ s', f a s = .ok (g a, s')) (s : σ) :
    ∃ s', gather f as s = .ok (as.flatMap g, s') := by
  induction as generalizing s with
  | nil => exact ⟨s, rfl⟩
  | cons a as ih =>
    obtain ⟨s₁, h₁⟩ := h a List.mem_cons_self s
    obtain ⟨s₂, h₂⟩ := ih (fun b hb ↦ h b (List.mem_cons_of_mem a hb)) s₁
    refine ⟨s₂, ?_⟩
    rw [gather, h₁]
    simp only [bind, Except.bind, h₂, pure, Except.pure, List.flatMap_cons]

/-- Gathering succeeds when it does for the first item and, from there, for the others. -/
theorem gather_cons_eq_ok_iff {α β σ ε : Type} {f : α → σ → Except ε (List β × σ)} {a : α}
    {as : List α} {s s' : σ} {out : List β} :
    gather f (a :: as) s = .ok (out, s') ↔
      ∃ first s₁ rest, f a s = .ok (first, s₁) ∧ gather f as s₁ = .ok (rest, s') ∧
        out = first ++ rest := by
  constructor
  · intro h
    obtain ⟨⟨first, s₁⟩, h₁, h⟩ := bind_eq_ok_iff.1 h
    obtain ⟨⟨rest, s₂⟩, h₂, h⟩ := bind_eq_ok_iff.1 h
    cases h
    exact ⟨first, s₁, rest, h₁, h₂, rfl⟩
  · rintro ⟨first, s₁, rest, h₁, h₂, rfl⟩
    exact bind_eq_ok_iff.2 ⟨_, h₁, bind_eq_ok_iff.2 ⟨_, h₂, rfl⟩⟩

/-- A text without snippet fields is copied as it is. -/
theorem copy_text {v : Value} (h : ∀ f ∈ v.fields, f.scope = 0) (times : Option Multiplier)
    (offset index : Nat) (supply : Supply) :
    (Node.text v times offset).copy index supply = ([.text v times offset], supply) := by
  by_cases h1 : index = 1 <;>
    simp [Node.copy, Node.relink, Node.rescope, Node.visitAll, Node.visit, h1,
      Renaming.moveValue_of_unscoped h]

/-- Copy number `index` of a node, unrolled; `below` unrolls what is below it. -/
def unrollCopy (below : Option Multiplier → List Node → Supply → Except Fault (List Node × Supply))
    (inherited : Option Multiplier) (n : Node) (index : Nat) (supply : Supply) :
    Except Fault (List Node × Supply) :=
  let (copies, supply) := if 1 < countOf n.times then n.copy index supply else ([n], supply)
  let times := multiplierOf n.times inherited index
  gather (dissolve (below times) times) copies supply

/-- All copies of a node, unrolled; `below` unrolls what is below them. -/
def unrollNode (limit : Nat)
    (below : Option Multiplier → Nat → List Node → Supply → Except Fault (List Node × Supply))
    (inherited : Option Multiplier) (total : Nat) (n : Node) (supply : Supply) :
    Except Fault (List Node × Supply) :=
  if limit < total * countOf n.times then .error (.malformed .tooManyCopies n.offset)
  else
    gather (unrollCopy (fun times ↦ below times (total * countOf n.times)) inherited n)
      (List.range' 1 (countOf n.times)) supply

/-- Unrolling takes the nodes one after the other. -/
theorem unrollTo_succ (limit height : Nat) (inherited : Option Multiplier) (total : Nat)
    (nodes : List Node) (supply : Supply) :
    unrollTo limit (height + 1) inherited total nodes supply
      = gather (unrollNode limit (unrollTo limit height) inherited total) nodes supply := rfl

/-- A text with a multiplier and without snippet fields stands for its copies, each numbered. -/
theorem unroll_text {v : Value} (h : ∀ f ∈ v.fields, f.scope = 0) {limit count : Nat}
    (hc : count ≤ limit) (abbreviation : String) (offset : Nat) :
    unroll limit abbreviation [.text v (some { count }) offset]
      = .ok ((List.range' 1 count).map fun index ↦ .text v (some ⟨count, index⟩) offset) := by
  have hcopy : ∀ index ∈ List.range' 1 count, ∀ supply, ∃ supply',
      unrollCopy (fun times ↦ unrollTo limit 1 times (1 * count)) none
          (.text v (some { count }) offset) index supply
        = .ok ([.text v (some ⟨count, index⟩) offset], supply') := by
    intro index _ supply
    refine ⟨supply, ?_⟩
    rw [unrollCopy, copy_text h, ite_self]
    rfl
  obtain ⟨supply', hgather⟩ := gather_eq_ok hcopy (supplyFor [.text v (some { count }) offset])
  have hlimit : ¬ limit < 1 * count := by omega
  have hheight : Node.heights [.text v (some { count }) offset] = 1 := rfl
  have hnode : unrollNode limit (unrollTo limit 1) none 1 (.text v (some { count }) offset)
      (supplyFor [.text v (some { count }) offset])
      = .ok ((List.range' 1 count).flatMap fun index ↦
          [.text v (some ⟨count, index⟩) offset], supply') := by
    rw [unrollNode]
    simp only [Node.times, countOf, if_neg hlimit, hgather]
  rw [unroll, hheight, unrollTo_succ, gather, hnode, located_eq_ok_iff]
  simp [gather, Except.map, bind, Except.bind, pure, Except.pure, List.map_eq_flatMap]

end Shorthand.Markup.Copies
