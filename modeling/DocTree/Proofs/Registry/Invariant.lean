import DocTree.Proofs.Registry.Reference
import DocTree.Proofs.Registry.Slot

/-!
What holds of a registry at all times. `Numbered` is about numbers, parents and the table of children
and holds whatever the slots say; `OwnSlots` and `Linked` are about the slots. What goes with a
removed reflection is said by `Closed`, without reference to how removal works.
-/

namespace DocTree.Project

/-- Numbers, parents and the table of children agree. -/
structure Numbered (p : Project) : Prop where
  id : ∀ i r, p.get? i = some r → r.id = i
  root : ∃ r, p.get? ReflectionId.project = some r ∧ r.isProject = true ∧ r.parent = none
  below : ∀ i r, p.get? i = some r → i ≠ ReflectionId.project →
    r.isProject = false ∧ ∃ q, r.parent = some q ∧ p.contains q = true
  listed : ∀ q i, i ∈ p.registeredChildren q ↔ p.parent? i = some q
  nodup : ∀ q, (p.registeredChildren q).Nodup

/-- A registered reflection stands in slots of its parent alone, and under one role. -/
def OwnSlots (p : Project) : Prop :=
  ∀ i r role c, p.get? i = some r → c ∈ r.variant.slot role → p.contains c = true →
    p.parent? c = some i ∧ ∀ other, c ∈ r.variant.slot other → other = role

/-- Whatever stands in a slot is registered as a child, and under one role. -/
def Linked (p : Project) : Prop :=
  ∀ i r role c, p.get? i = some r → c ∈ r.variant.slot role →
    p.parent? c = some i ∧ ∀ other, c ∈ r.variant.slot other → other = role

/-- With each reflection in the set, the set holds all that exists only because of it. -/
structure Closed (p : Project) (x : ReflectionId) (S : ReflectionId → Prop) : Prop where
  self : S x
  children : ∀ c q, p.parent? c = some q → S q → S c
  references : ∀ c t, p.targetOf? c = some t → S t → S c
  /-- A declaration that types of its parent own, when each of these types mentions something in the
  set. -/
  literals : ∀ d q r, p.parent? d = some q → p.get? q = some r →
    (∃ t ∈ r.types, d ∈ t.declarations) →
    (∀ t ∈ r.types, d ∈ t.declarations → ∃ m ∈ t.declarations, S m) → S d

variable {p : Project} {i c q : ReflectionId}

theorem Linked.ownSlots (h : p.Linked) : p.OwnSlots := fun i r role c hr hc _ => h i r role c hr hc

theorem Numbered.contains_root (h : p.Numbered) : p.contains ReflectionId.project = true := by
  obtain ⟨r, hr, -⟩ := h.root
  exact contains_of_get? hr

theorem Numbered.ne_root_of_parent? (h : p.Numbered) (hc : p.parent? c = some q) :
    c ≠ ReflectionId.project := by
  rintro rfl
  obtain ⟨r, hr, -, hparent⟩ := h.root
  rw [parent?_of_get? hr, hparent] at hc
  cases hc

theorem Numbered.parent?_of_ne_root (h : p.Numbered) (hi : p.contains i = true)
    (hne : i ≠ ReflectionId.project) : ∃ q, p.parent? i = some q ∧ p.contains q = true := by
  obtain ⟨r, hr⟩ := contains_iff.mp hi
  obtain ⟨-, q, hq, hc⟩ := h.below i r hr hne
  exact ⟨q, (parent?_of_get? hr).trans hq, hc⟩

theorem Numbered.contains_parent (h : p.Numbered) (hc : p.parent? c = some q) :
    p.contains q = true := by
  obtain ⟨q', hq', hcq⟩ := h.parent?_of_ne_root (contains_of_parent? hc) (h.ne_root_of_parent? hc)
  rw [hc] at hq'
  exact Option.some.inj hq' ▸ hcq

/-- A reflection that leads somewhere is a reference. -/
theorem isReference_of_targetOf? (h : p.targetOf? c = some q) :
    ∃ r, p.get? c = some r ∧ r.isReference = true := by
  obtain ⟨t, ht, -⟩ := Option.bind_eq_some_iff.mp (Option.filter_eq_some_iff.mp h).1
  obtain ⟨u, hu, -⟩ := Option.map_eq_some_iff.mp ht
  obtain ⟨r, hr, hru⟩ := Option.bind_eq_some_iff.mp hu
  exact ⟨r, hr, Reflection.isReference_iff.mpr ⟨u, hru⟩⟩

theorem Numbered.ne_root_of_targetOf? (h : p.Numbered) (hc : p.targetOf? c = some q) :
    c ≠ ReflectionId.project := by
  rintro rfl
  obtain ⟨r, hr, hproject, -⟩ := h.root
  obtain ⟨s, hs, href⟩ := isReference_of_targetOf? hc
  rw [hr] at hs
  obtain rfl := Option.some.inj hs
  simp only [Reflection.isProject, Reflection.isReference, decide_eq_true_eq] at hproject href
  rw [hproject] at href
  cases href

/-! ### Nothing to look up -/

/-- When every reference was looked up, its target is what it holds. -/
theorem AllSettled.settled? (h : p.AllSettled) (i : ReflectionId) :
    p.settled? i = (p.get? i).bind (·.target?) := by
  rw [Project.settled?]
  cases ht : (p.get? i).bind (·.target?) with
  | none => rfl
  | some t =>
    obtain ⟨r, hr, hrt⟩ := Option.bind_eq_some_iff.mp ht
    rw [Option.map_some, ReferenceTarget.settle_of_outcome? (h i r t hr hrt)]

end DocTree.Project
