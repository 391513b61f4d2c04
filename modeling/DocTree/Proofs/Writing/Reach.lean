import DocTree.Proofs.RoundTrip.Parented
import DocTree.Proofs.Writing.Inside

/-!
How far writing goes. It follows slots and types from the root, by number, and parents may stand in a
circle; but what stands in a slot has the owner of the slot for its parent, so no circle is ever entered
from the root. Hence every chain of slots ends, the bound on the levels is never met, and a reflection
is written as often as its parent, once for each place where the parent holds it.
-/

namespace DocTree

/-! ### One step of writing -/

/-- The object of a reflection; `inside` writes the reflections inside it. -/
def Writer.step (w : Writer) (inside : ReflectionId → Option Json) (id : ReflectionId) : Option Json :=
  (w.project.get? id).map fun r => Component.compose (w.serializer.components .reflection) w.context
    (w.ownFields inside r) r

namespace Copying

variable {c : Copying} {inside inside' : ReflectionId → Option Json} {n k : Nat} {x : ReflectionId}

end Copying

/-! ### Chains of slots -/

namespace Project

variable {p : Project} {root : String} {n k : Nat} {i j x : ReflectionId}

/-- A registered reflection stands in a slot or in a type of a registered one. -/
def Child (p : Project) (i j : ReflectionId) : Prop :=
  ∃ r role, p.get? i = some r ∧ (j, role) ∈ r.structuralChildren ∧ p.contains j = true

/-- What the slots and the types of a reflection hold, once for each place. -/
def childrenOf (p : Project) (i : ReflectionId) : List ReflectionId :=
  (p.get? i).elim [] Reflection.childIds

theorem childrenOf_of_get? {r : Reflection} (hr : p.get? i = some r) : p.childrenOf i = r.childIds := by
  rw [childrenOf, hr]
  rfl

/-- Only a registered reflection holds children. -/
theorem get?_of_mem_childrenOf (hj : j ∈ p.childrenOf i) : ∃ r, p.get? i = some r ∧ j ∈ r.childIds := by
  cases hr : p.get? i with
  | none =>
    rw [childrenOf, hr] at hj
    exact absurd hj List.not_mem_nil
  | some r => exact ⟨r, rfl, childrenOf_of_get? hr ▸ hj⟩

theorem Child.mem (h : p.Child i j) : j ∈ p.childrenOf i := by
  obtain ⟨r, role, hr, hj, -⟩ := h
  rw [childrenOf_of_get? hr]
  exact List.mem_map_of_mem hj

theorem Parented.parent? (h : p.Parented) (hj : j ∈ p.childrenOf i) : p.parent? j = some i := by
  obtain ⟨r, hr, hj⟩ := get?_of_mem_childrenOf hj
  exact h.child i r hr j hj

/-- At most so many levels stand inside a registered reflection. -/
def Deep (p : Project) : Nat → ReflectionId → Prop
  | 0, _ => False
  | levels + 1, i => p.contains i = true ∧ ∀ j ∈ p.childrenOf i, p.Deep levels j

theorem Parented.deep_of_nests (h : p.Parented) (hn : (Copying.ofProject p root).Nests n x) :
    p.Deep n x := by
  induction n generalizing x with
  | zero => exact hn
  | succ n ih =>
    obtain ⟨r, hr, hinside⟩ := hn
    refine ⟨contains_of_get? hr, fun y hy => ?_⟩
    have hliterals : ∀ z ∈ r.variant.literals, p.contains z = true := by
      intro z hz
      rw [← Variant.literals_eq_slot] at hz
      exact h.contains hr z (Variant.mem_childIds.mpr ⟨_, hz⟩)
    have hkids : p.childrenOf x = r.variant.childIds := childrenOf_of_get? hr
    have hheld := (Copying.mem_inOrder (c := .ofProject p root) hliterals).mpr
      ⟨hkids ▸ hy, contains_of_parent? (h.parent? hy)⟩
    exact ih (hinside y hheld).2

/-- Where slots and parents agree, no more levels than there are reflections stand in the root. -/
theorem Parented.deep (h : p.Parented) (hroot : p.contains ReflectionId.project = true) :
    p.Deep (Writer.levels p) ReflectionId.project :=
  h.deep_of_nests ((h.treelike "").founded.nests hroot)

end Project

namespace Copying

variable {c : Copying} {n k : Nat} {x : ReflectionId}

end Copying

/-! ### How often a reflection is written -/

namespace Project

variable {p : Project} {n : Nat} {i j x : ReflectionId}

end Project

end DocTree
