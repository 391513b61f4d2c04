import DocTree.Proofs.Registry.Removed

/-!
What a removal cannot reach. `Closed` says what goes with a removed reflection; `Sheltered` is the same
seen from the other side, and says of a set that nothing goes from it as long as nothing is removed
from it.
-/

namespace DocTree.Project

variable {p q : Project} {x i : ReflectionId} {S : ReflectionId → Prop}

/-- With each reflection, the set holds what that depends on. -/
structure Sheltered (p : Project) (S : ReflectionId → Prop) : Prop where
  parents : ∀ c a, p.parent? c = some a → S c → S a
  targets : ∀ c t, p.targetOf? c = some t → S c → S t
  /-- Of the types of its parent that own a declaration, one mentions nothing outside of the set. -/
  literals : ∀ d a r, p.parent? d = some a → p.get? a = some r →
    (∃ t ∈ r.types, d ∈ t.declarations) → S d →
    ∃ t ∈ r.types, d ∈ t.declarations ∧ ∀ m ∈ t.declarations, S m

theorem Sheltered.closed (h : p.Sheltered S) (hx : ¬ S x) : p.Closed x fun i => ¬ S i where
  self := hx
  children c a hc ha hS := ha (h.parents c a hc hS)
  references c t hc ht hS := ht (h.targets c t hc hS)
  literals d a r hd hr hmem hall hS := by
    obtain ⟨t, ht, hdt, hin⟩ := h.literals d a r hd hr hmem hS
    obtain ⟨m, hm, hout⟩ := hall t ht hdt
    exact hout (hin m hm)

theorem Closed.sheltered (h : p.Closed x S) : p.Sheltered fun i => ¬ S i where
  parents c a hc hS ha := hS (h.children c a hc ha)
  targets c t hc hS ht := hS (h.references c t hc ht)
  literals d a r hd hr hmem hS := by
    refine Classical.byContradiction fun hnone => hS (h.literals d a r hd hr hmem fun t ht hdt => ?_)
    refine Classical.byContradiction fun hin => hnone ⟨t, ht, hdt, fun m hm hSm => hin ⟨m, hm, hSm⟩⟩

namespace Removed

theorem targetOf? (h : Removed p x q) {t : ReflectionId} (hi : q.targetOf? i = some t) :
    p.targetOf? i = some t := by
  obtain ⟨r, hr, -⟩ := isReference_of_targetOf? hi
  rw [Project.targetOf?, Option.filter_eq_some_iff, h.target i (contains_of_get? hr)] at hi
  exact Option.filter_eq_some_iff.mpr ⟨hi.1, h.contains_of hi.2⟩

/-- Nothing goes from a sheltered set that does not hold what is removed. -/
theorem not_gone (h : Removed p x q) (hown : p.OwnSlots) (hS : p.Sheltered S) (hx : ¬ S x)
    (hi : S i) : gone p q i = false :=
  Bool.eq_false_iff.mpr fun hgone => h.doomed i hgone hown _ (hS.closed hx) hi

theorem contains_of_sheltered (h : Removed p x q) (hown : p.OwnSlots) (hS : p.Sheltered S)
    (hx : ¬ S x) (hi : S i) (hc : p.contains i = true) : q.contains i = true := by
  rw [h.contains, hc, h.not_gone hown hS hx hi]
  rfl

/-- What is left over after a removal depends on nothing that went. -/
theorem sheltered_not_gone (h : Removed p x q) (hown : p.OwnSlots) :
    p.Sheltered fun i => ¬ gone p q i = true :=
  (h.closed hown).sheltered

theorem sheltered (h : Removed p x q) (hown : p.OwnSlots) (hS : p.Sheltered S) (hx : ¬ S x) :
    q.Sheltered S where
  parents c a hc := hS.parents c a ((h.parent? (contains_of_parent? hc)).symm.trans hc)
  targets c t hc := hS.targets c t (h.targetOf? hc)
  literals d a r' hd hr' hmem hSd := by
    obtain ⟨r, hr, -⟩ := h.held a r' hr'
    have htypes := h.types hown hr hr'
    have hdp := (h.parent? (contains_of_parent? hd)).symm.trans hd
    obtain ⟨t', ht', hdt'⟩ := hmem
    rw [htypes] at ht'
    obtain ⟨t, ht, rfl⟩ := List.mem_map.mp ht'
    have hdt := (Variant.mem_declarations_clear.mp hdt').1
    obtain ⟨u, hu, hdu, hin⟩ := hS.literals d a r hdp hr ⟨t, ht, hdt⟩ hSd
    -- The type that keeps the declaration mentions nothing that went, so it is left as it is.
    have hkept : u.clear (gone p q) = u :=
      Variant.clear_of_not_mem fun m hm => h.not_gone hown hS hx (hin m hm)
    exact ⟨u, htypes ▸ List.mem_map.mpr ⟨u, hu, hkept⟩, hdu, hin⟩

end Removed

end DocTree.Project
