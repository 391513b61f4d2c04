import DocTree.Proofs.Registry.Removal

/-!
What a whole removal does to a project: which reflections go, and what is left of the others. The
invariants of a registry survive it.
-/

namespace DocTree.Project

variable {p : Project} {x : ReflectionId}

/-- A project after a reflection was removed with all that depends on it. -/
def removed (p : Project) (x : ReflectionId) : Project :=
  (removeWithin (p.size + 1) x ⟨p, []⟩).project

theorem remove_eq (p : Project) (hne : x ≠ ReflectionId.project) :
    p.remove x = .ok (p.removed x) := by
  rw [remove, if_neg (by simpa [ReflectionId.isProject] using hne)]
  rfl

/-- What the removal of a reflection does to a project. -/
structure Removed (p : Project) (x : ReflectionId) (q : Project) : Prop where
  size : q.arena.size = p.arena.size
  held : ∀ i r', q.get? i = some r' → ∃ r, p.get? i = some r ∧ r'.outline = r.outline
  self : gone p q x = true
  root : gone p q ReflectionId.project = false
  children : ∀ c i, p.parent? c = some i → gone p q i = true → gone p q c = true
  references : ∀ c t, p.targetOf? c = some t → gone p q t = true → gone p q c = true
  doomed : ∀ i, gone p q i = true → p.Doomed x i
  target : ∀ i, q.contains i = true → q.settled? i = p.settled? i
  graph : q.GraphFits
  table : ∀ i, gone p q i = false →
    q.registeredChildren i = (p.registeredChildren i).filter fun c => !gone p q c
  struck : ∀ i, gone p q i = true → q.registeredChildren i = []
  shape : p.OwnSlots → ∀ i r r', p.get? i = some r → q.get? i = some r' →
    r'.variant.frame = (r.variant.prune (gone p q)).frame
  literals : p.OwnSlots → ∀ i r r' d, p.get? i = some r → q.get? i = some r' →
    p.parent? d = some i → d ∈ r.literals → d ∉ r'.literals → gone p q d = true
  grouped : ∀ i r r', p.get? i = some r → q.get? i = some r' →
    Reflection.Regrouped (goneFrom p q i) r r'
  symbols : ∀ i, q.symbols.lookup i = if gone p q i = true then none else p.symbols.lookup i

/-- Before anything has begun, nothing is gone. -/
theorem cascade_nil (hp : p.Numbered) (hg : p.GraphFits) (x : ReflectionId) :
    Cascade p x [] ⟨p, []⟩ := by
  have hnone (i : ReflectionId) : gone p p i = false := by simp [gone]
  have hlost {i : ReflectionId} (hi : p.contains i = true) (hn : p.get? i = none) : False :=
    not_contains_iff.mpr hn hi
  exact
    { size := rfl
      held := fun i r hr => ⟨r, hr, rfl⟩
      lost := fun i hi hn => (hlost hi hn).elim
      known := fun i hi => absurd hi List.not_mem_nil
      doomed := fun i hi => absurd hi List.not_mem_nil
      named := .inl rfl
      target := fun i _ => rfl
      graph := hg
      table := fun q _ => (List.filter_eq_self.mpr fun c _ => by simp [hnone]).symm
      struck := fun q hq => absurd hq List.not_mem_nil
      children := fun c q hc hn => (hlost (hp.contains_parent hc) hn).elim
      references := fun c t hc hn =>
        (hlost (Option.filter_eq_some_iff.mp hc).2 hn).elim
      shape := fun _ i r r' hr hr' => by
        obtain rfl := Option.some.inj (hr.symm.trans hr')
        rw [Variant.prune_of_not_mem fun _ c _ => hnone c]
      literals := fun _ i r r' d hr hr' _ hmem hnot => by
        obtain rfl := Option.some.inj (hr.symm.trans hr')
        exact absurd hmem hnot
      grouped := fun i r r' hr hr' => by
        obtain rfl := Option.some.inj (hr.symm.trans hr')
        refine ⟨fun _ => rfl, fun hc => ?_⟩
        simp [goneFrom, hnone] at hc
      symbols := fun i => by simp [hnone] }

theorem removed_spec (hp : p.Numbered) (hg : p.GraphFits) (hx : p.contains x = true)
    (hne : x ≠ ReflectionId.project) : Removed p x (p.removed x) := by
  obtain ⟨h, k, hbegun⟩ := handles_removeWithin hp (p.size + 1) [] ⟨p, []⟩ x (cascade_nil hp hg x)
    hx hne (fun _ S hS => hS.self) (Nat.le_succ_of_le (Nat.le_of_eq p.todo_nil))
  rw [removed]
  generalize removeWithin (p.size + 1) x ⟨p, []⟩ = s at h k hbegun
  -- At the end nothing is busy: those begun are exactly those gone.
  have hgone (i : ReflectionId) : gone p s.project i = true ↔ i ∈ s.begun := by
    rw [gone_iff]
    exact ⟨fun ⟨hc, hn⟩ => h.lost i hc hn, fun hi => ⟨(h.known i hi).1,
      (k.finished i hi).resolve_left List.not_mem_nil⟩⟩
  have hnot (i : ReflectionId) : gone p s.project i = false ↔ i ∉ s.begun := by
    rw [← hgone, Bool.not_eq_true]
  exact
    { size := h.size
      held := h.held
      self := (hgone x).mpr (hbegun x List.mem_cons_self)
      root := (hnot _).mpr fun hi => (h.known _ hi).2 rfl
      children := fun c i hc hi => (hgone c).mpr (h.children c i hc (gone_iff.mp hi).2)
      references := fun c t hc ht => (hgone c).mpr (h.references c t hc (gone_iff.mp ht).2)
      doomed := fun i hi => h.doomed i ((hgone i).mp hi)
      target := h.target
      graph := h.graph
      table := fun i hi => h.table i ((hnot i).mp hi)
      struck := fun i hi => h.struck i ((hgone i).mp hi)
      shape := h.shape
      literals := fun hown i r r' d hr hr' hd hmem hn => (hgone d).mpr
        ((h.literals hown i r r' d hr hr' hd hmem hn).resolve_right List.not_mem_nil)
      grouped := h.grouped
      symbols := h.symbols }

namespace Removed

variable {q : Project} {i : ReflectionId}

theorem contains (h : Removed p x q) : q.contains i = (p.contains i && !gone p q i) := by
  rw [gone]
  cases hq : q.contains i with
  | false => cases p.contains i <;> rfl
  | true =>
    obtain ⟨r', hr'⟩ := contains_iff.mp hq
    obtain ⟨r, hr, -⟩ := h.held i r' hr'
    rw [contains_of_get? hr]
    rfl

theorem contains_of (h : Removed p x q) (hi : q.contains i = true) : p.contains i = true := by
  rw [h.contains, Bool.and_eq_true] at hi
  exact hi.1

theorem parent? (h : Removed p x q) (hi : q.contains i = true) : q.parent? i = p.parent? i := by
  obtain ⟨r', hr'⟩ := contains_iff.mp hi
  obtain ⟨r, hr, hout⟩ := h.held i r' hr'
  rw [parent?_of_get? hr', parent?_of_get? hr, Reflection.parent_of_outline hout]

/-- A type that mentions something gone is given up. -/
theorem types (h : Removed p x q) (hown : p.OwnSlots) {r r' : Reflection} (hr : p.get? i = some r)
    (hr' : q.get? i = some r') : r'.types = r.types.map (Ty.clear (gone p q)) := by
  rw [Reflection.types, Variant.types_of_frame (h.shape hown i r r' hr hr'), Variant.types_prune]
  rfl

/-- All that exists only because of the reflection goes with it. -/
theorem closed (h : Removed p x q) (hown : p.OwnSlots) :
    p.Closed x fun i => gone p q i = true where
  self := h.self
  children := h.children
  references := h.references
  literals d i r hd hr := by
    rintro ⟨t, ht, hdt⟩ hall
    by_cases hi : gone p q i = true
    · exact h.children d i hd hi
    have hqi : q.contains i = true := by
      rw [h.contains, contains_of_get? hr, Bool.true_and]
      simpa using hi
    obtain ⟨r', hr'⟩ := contains_iff.mp hqi
    refine h.literals hown i r r' d hr hr' hd (Variant.mem_literals.mpr ⟨t, ht, hdt⟩) fun hmem => ?_
    rw [Reflection.literals, Variant.literals_of_frame (h.shape hown i r r' hr hr'),
      Variant.mem_literals_prune] at hmem
    obtain ⟨u, hu, hdu, hany⟩ := hmem
    obtain ⟨m, hm, hgone⟩ := hall u hu hdu
    exact List.any_eq_false.mp hany m hm hgone

theorem numbered (h : Removed p x q) (hp : p.Numbered) : q.Numbered where
  id i r' hr' := by
    obtain ⟨r, hr, hout⟩ := h.held i r' hr'
    exact (Reflection.id_of_outline hout).trans (hp.id i r hr)
  root := by
    have hc : q.contains ReflectionId.project = true := by
      rw [h.contains, hp.contains_root, h.root]
      rfl
    obtain ⟨r', hr'⟩ := contains_iff.mp hc
    obtain ⟨r, hr, hout⟩ := h.held _ r' hr'
    obtain ⟨r₀, hr₀, hproject, hparent⟩ := hp.root
    obtain rfl := Option.some.inj (hr.symm.trans hr₀)
    exact ⟨r', hr', (Reflection.isProject_of_outline hout).trans hproject,
      (Reflection.parent_of_outline hout).trans hparent⟩
  below i r' hr' hi := by
    obtain ⟨r, hr, hout⟩ := h.held i r' hr'
    obtain ⟨hproject, a, ha, hca⟩ := hp.below i r hr hi
    refine ⟨(Reflection.isProject_of_outline hout).trans hproject, a,
      (Reflection.parent_of_outline hout).trans ha, ?_⟩
    rw [h.contains, hca, Bool.true_and, Bool.not_eq_true']
    refine Bool.eq_false_iff.mpr fun hgone => ?_
    have hlost := h.children i a ((parent?_of_get? hr).trans ha) hgone
    exact nomatch hr'.symm.trans (gone_iff.mp hlost).2
  listed a i := by
    by_cases ha : gone p q a = true
    · rw [h.struck a ha]
      refine ⟨fun hi => absurd hi List.not_mem_nil, fun hi => ?_⟩
      have hqi := contains_of_parent? hi
      have hgone := h.children i a ((h.parent? hqi).symm.trans hi) ha
      exact absurd hqi (not_contains_iff.mpr (gone_iff.mp hgone).2)
    · rw [h.table a (Bool.not_eq_true _ ▸ ha), List.mem_filter, hp.listed]
      constructor
      · rintro ⟨hi, hgone⟩
        have hqi : q.contains i = true := by
          rw [h.contains, contains_of_parent? hi, hgone]
          rfl
        rw [h.parent? hqi, hi]
      · intro hi
        have hqi := contains_of_parent? hi
        rw [h.contains, Bool.and_eq_true] at hqi
        exact ⟨(h.parent? (contains_of_parent? hi)).symm.trans hi, hqi.2⟩
  nodup a := by
    by_cases ha : gone p q a = true
    · rw [h.struck a ha]
      exact List.nodup_nil
    · rw [h.table a (Bool.not_eq_true _ ▸ ha)]
      exact (hp.nodup a).filter _

/-- What is left in the slots was left there by the removal. -/
theorem linked (h : Removed p x q) (hl : p.Linked) : q.Linked := by
  intro i r' role c hr' hc
  obtain ⟨r, hr, -⟩ := h.held i r' hr'
  have hshape := h.shape hl.ownSlots i r r' hr hr'
  have hslot {other : Role} (ho : c ∈ r'.variant.slot other) :
      c ∈ r.variant.slot other ∧ gone p q c = false :=
    Variant.mem_slot_prune (Variant.slot_of_frame hshape other ▸ ho)
  obtain ⟨hparent, hrole⟩ := hl i r role c hr (hslot hc).1
  have hqc : q.contains c = true := by
    rw [h.contains, contains_of_parent? hparent, (hslot hc).2]
    rfl
  exact ⟨(h.parent? hqc).trans hparent, fun other ho => hrole other (hslot ho).1⟩

end Removed

end DocTree.Project
