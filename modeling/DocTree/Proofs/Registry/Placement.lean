import DocTree.Proofs.Registry.Removed

/-!
Adding and moving. Both put one child under a parent in a registry in which that child is nowhere:
a new one because it is not registered, a moved one because it was taken out before. `Loose` is such
a registry, `Placed` is what putting the child in its place does.
-/

namespace DocTree

namespace Project

variable {p q : Project} {id parent old : ReflectionId} {role : Role} {r : Reflection}

/-! ### Changes that keep outlines -/

theorem Numbered.of_outline (h : p.Numbered) (hout : q.outline = p.outline)
    (htable : ∀ i, q.registeredChildren i = p.registeredChildren i) : q.Numbered where
  id i r hr := by
    obtain ⟨s, hs, hsr⟩ := get?_of_outline hout hr
    exact (Reflection.id_of_outline hsr).symm.trans (h.id i s hs)
  root := by
    obtain ⟨s, hs, hproject, hparent⟩ := h.root
    obtain ⟨r, hr, hrs⟩ := get?_of_outline hout.symm hs
    exact ⟨r, hr, (Reflection.isProject_of_outline hrs).trans hproject,
      (Reflection.parent_of_outline hrs).trans hparent⟩
  below i r hr hi := by
    obtain ⟨s, hs, hsr⟩ := get?_of_outline hout hr
    obtain ⟨hproject, a, ha, hca⟩ := h.below i s hs hi
    exact ⟨(Reflection.isProject_of_outline hsr).symm.trans hproject, a,
      (Reflection.parent_of_outline hsr).symm.trans ha, (contains_of_outline hout a).trans hca⟩
  listed a i := by rw [htable, h.listed, parent?_of_outline hout]
  nodup a := htable a ▸ h.nodup a

/-- Slots may lose children as long as nothing else changes. -/
theorem Linked.of_outline (h : p.Linked) (hout : q.outline = p.outline)
    (hslot : ∀ i r role c, q.get? i = some r → c ∈ r.variant.slot role →
      ∃ s, p.get? i = some s ∧ c ∈ s.variant.slot role) : q.Linked := by
  intro i r role c hr hc
  obtain ⟨s, hs, hcs⟩ := hslot i r role c hr hc
  obtain ⟨hparent, hrole⟩ := h i s role c hs hcs
  refine ⟨(parent?_of_outline hout c).trans hparent, fun other ho => ?_⟩
  obtain ⟨t, ht, hct⟩ := hslot i r other c hr ho
  obtain rfl := Option.some.inj (hs.symm.trans ht)
  exact hrole other hct

/-! ### A registry without one child -/

/-- Numbers, parents and the table of children agree but for one child, which the table does not
list. -/
structure Loose (p : Project) (child : ReflectionId) : Prop where
  id : ∀ i r, p.get? i = some r → r.id = i
  ne : child ≠ ReflectionId.project
  root : ∃ r, p.get? ReflectionId.project = some r ∧ r.isProject = true ∧ r.parent = none
  below : ∀ i r, p.get? i = some r → i ≠ ReflectionId.project → i ≠ child →
    r.isProject = false ∧ ∃ q, r.parent = some q ∧ p.contains q = true
  listed : ∀ q i, i ∈ p.registeredChildren q ↔ i ≠ child ∧ p.parent? i = some q
  nodup : ∀ q, (p.registeredChildren q).Nodup

/-- Whatever stands in a slot is registered as a child, under one role, and is not the one child. -/
def LooseSlots (p : Project) (child : ReflectionId) : Prop :=
  ∀ i r role c, p.get? i = some r → c ∈ r.variant.slot role →
    c ≠ child ∧ p.parent? c = some i ∧ ∀ other, c ∈ r.variant.slot other → other = role

/-- The child put under a parent. -/
structure Placed (p q : Project) (child parent : ReflectionId) : Prop where
  entry : ∃ r, q.get? child = some r ∧ r.id = child ∧ r.isProject = false ∧ r.parent = some parent
  contains : ∀ i, i ≠ child → q.contains i = p.contains i
  held : ∀ i r', i ≠ child → q.get? i = some r' → ∃ r, p.get? i = some r ∧ r'.outline = r.outline
  there : q.contains parent = true
  table : ∀ i, q.registeredChildren i =
    if i = parent then p.registeredChildren parent ++ [child] else p.registeredChildren i

/-- No slot gained anything but the child, and that under one role of the parent. -/
def PlacedSlots (p q : Project) (child parent : ReflectionId) (role : Role) : Prop :=
  ∀ i r' other c, q.get? i = some r' → c ∈ r'.variant.slot other →
    (∃ r, p.get? i = some r ∧ c ∈ r.variant.slot other) ∨ (c = child ∧ i = parent ∧ other = role)

theorem Numbered.loose_of_not_contains (h : p.Numbered) (hid : p.get? id = none) : p.Loose id where
  id := h.id
  ne := by
    rintro rfl
    exact not_contains_iff.mpr hid h.contains_root
  root := h.root
  below i r hr hi _ := h.below i r hr hi
  listed q i := by
    rw [h.listed]
    refine ⟨fun hi => ⟨?_, hi⟩, And.right⟩
    rintro rfl
    exact not_contains_iff.mpr hid (contains_of_parent? hi)
  nodup := h.nodup

theorem Linked.looseSlots_of_not_contains (h : p.Linked) (hid : p.get? id = none) :
    p.LooseSlots id := by
  intro i r role c hr hc
  refine ⟨?_, h i r role c hr hc⟩
  rintro rfl
  exact not_contains_iff.mpr hid (contains_of_parent? (h i r role c hr hc).1)

namespace Placed

variable {i : ReflectionId}

theorem parent?_self (h : Placed p q id parent) : q.parent? id = some parent := by
  obtain ⟨r, hr, -, -, hparent⟩ := h.entry
  exact (parent?_of_get? hr).trans hparent

theorem parent?_of_ne (h : Placed p q id parent) (hi : i ≠ id) : q.parent? i = p.parent? i := by
  cases hr : q.get? i with
  | none =>
    have hp : p.get? i = none := by
      rw [← not_contains_iff, ← h.contains i hi]
      exact not_contains_iff.mpr hr
    rw [Project.parent?, Project.parent?, hr, hp]
  | some r' =>
    obtain ⟨r, hri, hout⟩ := h.held i r' hi hr
    rw [parent?_of_get? hr, parent?_of_get? hri, Reflection.parent_of_outline hout]

theorem numbered (h : Placed p q id parent) (hl : p.Loose id) : q.Numbered where
  id i r' hr' := by
    by_cases hi : i = id
    · subst hi
      obtain ⟨s, hs, hid, -⟩ := h.entry
      exact Option.some.inj (hr'.symm.trans hs) ▸ hid
    · obtain ⟨r, hr, hout⟩ := h.held i r' hi hr'
      exact (Reflection.id_of_outline hout).trans (hl.id i r hr)
  root := by
    obtain ⟨r, hr, hproject, hparent⟩ := hl.root
    have hc : q.contains ReflectionId.project = true := by
      rw [h.contains _ (Ne.symm hl.ne)]
      exact contains_of_get? hr
    obtain ⟨r', hr'⟩ := contains_iff.mp hc
    obtain ⟨s, hs, hout⟩ := h.held _ r' (Ne.symm hl.ne) hr'
    obtain rfl := Option.some.inj (hs.symm.trans hr)
    exact ⟨r', hr', (Reflection.isProject_of_outline hout).trans hproject,
      (Reflection.parent_of_outline hout).trans hparent⟩
  below i r' hr' hi := by
    by_cases hid : i = id
    · subst hid
      obtain ⟨s, hs, -, hproject, hparent⟩ := h.entry
      obtain rfl := Option.some.inj (hr'.symm.trans hs)
      exact ⟨hproject, parent, hparent, h.there⟩
    · obtain ⟨r, hr, hout⟩ := h.held i r' hid hr'
      obtain ⟨hproject, a, ha, hca⟩ := hl.below i r hr hi hid
      refine ⟨(Reflection.isProject_of_outline hout).trans hproject, a,
        (Reflection.parent_of_outline hout).trans ha, ?_⟩
      by_cases haid : a = id
      · obtain ⟨s, hs, -⟩ := h.entry
        exact haid ▸ contains_of_get? hs
      · rw [h.contains a haid, hca]
  listed a i := by
    rw [h.table]
    by_cases hi : i = id
    · subst hi
      have hnot (b : ReflectionId) : i ∉ p.registeredChildren b := fun hb =>
        ((hl.listed b i).mp hb).1 rfl
      rw [h.parent?_self, Option.some.injEq]
      by_cases ha : a = parent
      · simp [ha]
      · simp [ha, hnot, Ne.symm ha]
    · rw [h.parent?_of_ne hi]
      by_cases ha : a = parent
      · simp [ha, hl.listed, hi]
      · simp [ha, hl.listed, hi]
  nodup a := by
    rw [h.table]
    split
    · refine List.nodup_append.mpr ⟨hl.nodup parent, by simp, fun b hb c hc => ?_⟩
      obtain rfl := List.mem_singleton.mp hc
      exact ((hl.listed parent b).mp hb).1
    · exact hl.nodup a

theorem linked (h : Placed p q id parent) (hl : p.LooseSlots id)
    (hs : PlacedSlots p q id parent role) : q.Linked := by
  intro i r' other c hr' hc
  rcases hs i r' other c hr' hc with ⟨r, hr, hcr⟩ | ⟨rfl, rfl, rfl⟩
  · obtain ⟨hne, hparent, hrole⟩ := hl i r other c hr hcr
    refine ⟨(h.parent?_of_ne hne).trans hparent, fun other' ho => ?_⟩
    rcases hs i r' other' c hr' ho with ⟨s, hs', hcs⟩ | ⟨hid, -⟩
    · obtain rfl := Option.some.inj (hr.symm.trans hs')
      exact hrole other' hcs
    · exact absurd hid hne
  · refine ⟨h.parent?_self, fun other' ho => ?_⟩
    rcases hs i r' other' c hr' ho with ⟨s, hs', hcs⟩ | ⟨-, -, ho⟩
    · exact absurd rfl (hl i s other' c hs' hcs).1
    · exact ho

end Placed

/-! ### Adding -/

/-- Putting a child into a slot changes the parent alone. -/
theorem attach_eq_ok (h : p.attach parent id role = .ok q) : ∃ rp v, p.get? parent = some rp ∧
    rp.variant.attach? id role = some v ∧ q = p.put parent (some { rp with variant := v }) := by
  rw [attach] at h
  cases hr : p.get? parent with
  | none =>
    rw [hr] at h
    cases h
  | some rp =>
    rw [hr] at h
    cases hv : rp.variant.attach? id role with
    | none =>
      simp only [hv] at h
      cases h
    | some v =>
      simp only [hv] at h
      cases h
      exact ⟨rp, v, rfl, hv, rfl⟩

theorem add_eq_ok (h : p.add parent role r = .ok (q, id)) : id = p.arena.size ∧
    r.isProject = false ∧ ∃ rp v, p.get? parent = some rp ∧
      rp.variant.attach? id role = some v ∧
      (∀ i, q.get? i = if i = id then some { r with id := id, parent := some parent }
        else if parent = i then some { rp with variant := v } else p.get? i) ∧
      q.arena.size = p.arena.size + 1 ∧ q.graph = none ∧
      ∀ i, q.registeredChildren i =
        if i = parent then p.registeredChildren parent ++ [id] else p.registeredChildren i := by
  rw [add] at h
  cases hproject : r.isProject with
  | true =>
    rw [hproject] at h
    cases h
  | false =>
    simp only [hproject, Bool.false_eq_true, if_false, supply, IdSupply.take] at h
    cases hattach : p.attach parent p.arena.size role with
    | error e =>
      rw [hattach] at h
      cases h
    | ok p₁ =>
      rw [hattach] at h
      obtain ⟨rp, v, hrp, hv, rfl⟩ := attach_eq_ok hattach
      cases h
      refine ⟨rfl, rfl, rp, v, hrp, hv, fun i => ?_, ?_, rfl, fun i => ?_⟩
      · rw [get?]
        show ((p.put parent _).arena.push _)[i]?.join = _
        rw [Array.getElem?_push, size_put]
        split
        · rfl
        · rw [← get?_put_of_lt (lt_size_of_get? hrp)]
          rfl
      · show ((p.put parent _).arena.push _).size = _
        rw [Array.size_push, size_put]
      · exact registeredChildren_enterChild (p := p.put parent _) parent p.arena.size

theorem graph_add (h : p.add parent role r = .ok (q, id)) : q.graph = none := by
  obtain ⟨-, -, rp, v, -, -, -, -, hgraph, -⟩ := add_eq_ok h
  exact hgraph

theorem placed_add (h : p.add parent role r = .ok (q, id)) : Placed p q id parent := by
  obtain ⟨rfl, hproject, rp, v, hrp, hv, hget, -, -, htable⟩ := add_eq_ok h
  refine ⟨⟨_, (hget _).trans (if_pos rfl), rfl, hproject, rfl⟩, fun i hi => ?_, fun i r' hi hr' => ?_,
    ?_, htable⟩
  · rw [contains, contains, hget, if_neg hi]
    split
    · rename_i hpi
      rw [← hpi, hrp]
      rfl
    · rfl
  · rw [hget, if_neg hi] at hr'
    split at hr'
    · rename_i hpi
      obtain rfl := Option.some.inj hr'
      exact ⟨rp, hpi ▸ hrp, Reflection.outline_mk _ (Variant.tag_attach? hv)⟩
    · exact ⟨r', hr', rfl⟩
  · have hne : parent ≠ p.arena.size := Nat.ne_of_lt (lt_size_of_get? hrp)
    exact contains_of_get? ((hget parent).trans (by rw [if_neg hne, if_pos rfl]))

theorem Numbered.add (h : p.Numbered) (hadd : p.add parent role r = .ok (q, id)) : q.Numbered := by
  have hid : id = p.arena.size := (add_eq_ok hadd).1
  have hnone : p.get? id = none := get?_eq_none_of_size_le (Nat.le_of_eq hid.symm)
  exact (placed_add hadd).numbered (h.loose_of_not_contains hnone)

/-- A new reflection has nothing in its slots. -/
theorem Linked.add (h : p.Linked) (hadd : p.add parent role r = .ok (q, id))
    (hnew : r.structuralChildren = []) : q.Linked := by
  obtain ⟨hid, -, rp, v, hrp, hv, hget, -⟩ := add_eq_ok hadd
  have hnone : p.get? id = none := get?_eq_none_of_size_le (Nat.le_of_eq hid.symm)
  have hloose : p.LooseSlots id := h.looseSlots_of_not_contains hnone
  suffices hslots : PlacedSlots p q id parent role from (placed_add hadd).linked hloose hslots
  intro i r' other c hr' hc
  rw [hget] at hr'
  split at hr'
  · obtain rfl := Option.some.inj hr'
    have hmem : (c, other) ∈ r.structuralChildren := Variant.mem_structuralChildren.mpr hc
    rw [hnew] at hmem
    exact absurd hmem List.not_mem_nil
  · split at hr'
    · rename_i hpi
      subst hpi
      obtain rfl := Option.some.inj hr'
      exact (Variant.mem_slot_attach? hv hc).imp (fun hc => ⟨rp, hrp, hc⟩)
        fun ⟨hc, ho⟩ => ⟨hc, rfl, ho⟩
    · exact .inl ⟨r', hr', hc⟩

/-! ### Moving -/

/-- A child taken out of its parent and of the table, still registered. -/
def takeOut (p : Project) (old id : ReflectionId) : Project :=
  ((p.roleInParent? id).elim p fun role => p.update old (·.detach id role)).strikeChild old id

theorem outline_takeOut : (p.takeOut old id).outline = p.outline := by
  have harena : (p.takeOut old id).outline =
      ((p.roleInParent? id).elim p fun role => p.update old (·.detach id role)).outline := by
    rw [takeOut, outline, arena_strikeChild]
    rfl
  rw [harena]
  cases p.roleInParent? id with
  | none => rfl
  | some role => exact outline_update fun _ => Reflection.outline_detach

theorem registeredChildren_takeOut (i : ReflectionId) : (p.takeOut old id).registeredChildren i =
    if i = old then (p.registeredChildren old).filter (· ≠ id) else p.registeredChildren i := by
  have htable (j : ReflectionId) :
      ((p.roleInParent? id).elim p fun role => p.update old (·.detach id role)).registeredChildren j =
        p.registeredChildren j := by
    cases p.roleInParent? id with
    | none => rfl
    | some role =>
      rw [Option.elim_some, registeredChildren, registered_update]
      rfl
  rw [takeOut, registeredChildren_strikeChild, htable, htable]

theorem Numbered.takeOut (h : p.Numbered) (hold : p.parent? id = some old) :
    (p.takeOut old id).Loose id where
  id i r hr := by
    obtain ⟨s, hs, hsr⟩ := get?_of_outline outline_takeOut hr
    exact (Reflection.id_of_outline hsr).symm.trans (h.id i s hs)
  ne := h.ne_root_of_parent? hold
  root := by
    obtain ⟨s, hs, hproject, hparent⟩ := h.root
    have hout : (p.takeOut old id).outline = p.outline := outline_takeOut
    obtain ⟨r, hr, hrs⟩ := get?_of_outline hout.symm hs
    exact ⟨r, hr, (Reflection.isProject_of_outline hrs).trans hproject,
      (Reflection.parent_of_outline hrs).trans hparent⟩
  below i r hr hi _ := by
    obtain ⟨s, hs, hsr⟩ := get?_of_outline outline_takeOut hr
    obtain ⟨hproject, a, ha, hca⟩ := h.below i s hs hi
    exact ⟨(Reflection.isProject_of_outline hsr).symm.trans hproject, a,
      (Reflection.parent_of_outline hsr).symm.trans ha, (contains_of_outline outline_takeOut a).trans hca⟩
  listed a i := by
    rw [registeredChildren_takeOut, parent?_of_outline outline_takeOut]
    split
    · rename_i ha
      rw [List.mem_filter, h.listed, ha, decide_eq_true_eq, and_comm]
    · rename_i ha
      rw [h.listed]
      refine ⟨fun hi => ⟨?_, hi⟩, And.right⟩
      rintro rfl
      exact ha (Option.some.inj (hi.symm.trans hold))
  nodup a := by
    rw [registeredChildren_takeOut]
    split
    · exact (h.nodup old).filter _
    · exact h.nodup a

/-- The parent gives up the child under one role, or it did not hold it; others are as they were. -/
theorem get?_takeOut (hold : p.parent? id = some old) {i : ReflectionId} {r' : Reflection}
    (hr' : (p.takeOut old id).get? i = some r') :
    (p.get? i = some r' ∧ (i = old → ∀ role, id ∉ r'.variant.slot role)) ∨
    i = old ∧ ∃ r role, p.get? i = some r ∧ r' = r.detach id role ∧ id ∈ r.variant.slot role := by
  rw [Project.takeOut, get?_of_arena_eq (arena_strikeChild old id)] at hr'
  cases hrole : p.roleInParent? id with
  | none =>
    rw [hrole, Option.elim_none] at hr'
    refine .inl ⟨hr', ?_⟩
    rintro rfl role
    rw [roleInParent?_of_get? hold hr'] at hrole
    exact Variant.not_mem_slot_of_lookup hrole role
  | some role =>
    rw [hrole, Option.elim_some, get?_update] at hr'
    split at hr'
    · next hi =>
      subst hi
      obtain ⟨r, hr, rfl⟩ := Option.map_eq_some_iff.mp hr'
      rw [roleInParent?_of_get? hold hr] at hrole
      exact .inr ⟨rfl, r, role, hr, rfl, Variant.lookup_structuralChildren hrole⟩
    · next hi => exact .inl ⟨hr', fun heq => absurd heq.symm hi⟩

/-- Taken out of the one slot in which it stands, the child stands in no slot. -/
theorem Linked.takeOut (h : p.Linked) (hold : p.parent? id = some old) :
    (p.takeOut old id).LooseSlots id := by
  have hget (i : ReflectionId) (r' : Reflection) (hr' : (p.takeOut old id).get? i = some r') :
      ∃ r, p.get? i = some r ∧ ∀ role c, c ∈ r'.variant.slot role →
        c ∈ r.variant.slot role ∧ c ≠ id := by
    rcases get?_takeOut hold hr' with ⟨hr, hnot⟩ | ⟨rfl, r, vacated, hr, rfl, hmem⟩
    · refine ⟨r', hr, fun role c hc => ⟨hc, ?_⟩⟩
      rintro rfl
      exact hnot (Option.some.inj ((h i r' role c hr hc).1.symm.trans hold)) role hc
    · refine ⟨r, hr, fun role c hc => ?_⟩
      rw [Variant.slot_of_frame Reflection.frame_detach,
        Variant.vacate_eq_prune (h i r vacated id hr hmem).2] at hc
      exact ⟨(Variant.mem_slot_prune hc).1, by simpa using (Variant.mem_slot_prune hc).2⟩
  intro i r' role c hr' hc
  obtain ⟨r, hr, hslot⟩ := hget i r' hr'
  obtain ⟨hparent, hrole⟩ := h i r role c hr (hslot role c hc).1
  exact ⟨(hslot role c hc).2, (parent?_of_outline outline_takeOut c).trans hparent,
    fun other ho => hrole other (hslot other c ho).1⟩

theorem reparent_eq_ok (h : p.reparent id parent role = .ok q) :
    (p.parent? id = none ∧ q = p) ∨ ∃ old rp v, p.parent? id = some old ∧
      (p.takeOut old id).get? parent = some rp ∧ rp.variant.attach? id role = some v ∧
      q = ((((p.takeOut old id).put parent (some { rp with variant := v })).update id fun r =>
        { r with parent := some parent }).enterChild parent id).forgetGraph := by
  rw [reparent] at h
  by_cases hroot : id.isProject = true
  · rw [if_pos hroot] at h
    cases h
  rw [if_neg hroot] at h
  cases hold : p.parent? id with
  | none =>
    rw [hold] at h
    cases h
    exact .inl ⟨rfl, rfl⟩
  | some old =>
    rw [hold] at h
    refine .inr ⟨old, ?_⟩
    cases hattach : (p.takeOut old id).attach parent id role with
    | error e =>
      rw [Project.takeOut] at hattach
      simp only [hattach] at h
      cases h
    | ok p₁ =>
      obtain ⟨rp, v, hrp, hv, hp₁⟩ := attach_eq_ok hattach
      refine ⟨rp, v, rfl, hrp, hv, ?_⟩
      rw [Project.takeOut] at hattach
      simp only [hattach] at h
      rw [← hp₁]
      cases h
      rfl

/-- What the numbers hold after a child, still registered, was put under another parent. -/
theorem get?_moved {rp : Reflection} {v : Variant} (hrp : p.get? parent = some rp)
    (hv : rp.variant.attach? id role = some v) {i : ReflectionId} {r' : Reflection}
    (hr' : ((((p.put parent (some { rp with variant := v })).update id fun r =>
      { r with parent := some parent }).enterChild parent id).forgetGraph).get? i = some r') :
    ∃ r, p.get? i = some r ∧ r'.id = r.id ∧ r'.tag = r.tag ∧
      r'.parent = (if i = id then some parent else r.parent) ∧
      (i ≠ id → r'.outline = r.outline) ∧
      ∀ other c, c ∈ r'.variant.slot other →
        c ∈ r.variant.slot other ∨ (c = id ∧ i = parent ∧ other = role) := by
  have hput {s : Reflection}
      (hs : (p.put parent (some { rp with variant := v })).get? i = some s) :
      ∃ r, p.get? i = some r ∧ s.id = r.id ∧ s.tag = r.tag ∧ s.parent = r.parent ∧
        s.outline = r.outline ∧ ∀ other c, c ∈ s.variant.slot other →
          c ∈ r.variant.slot other ∨ (c = id ∧ i = parent ∧ other = role) := by
    rw [get?_put_of_lt (lt_size_of_get? hrp)] at hs
    split at hs
    · rename_i hi
      subst hi
      obtain rfl := Option.some.inj hs
      exact ⟨rp, hrp, rfl, Variant.tag_attach? hv, rfl,
        Reflection.outline_mk _ (Variant.tag_attach? hv),
        fun other c hc => (Variant.mem_slot_attach? hv hc).imp_right fun ⟨hc, ho⟩ => ⟨hc, rfl, ho⟩⟩
    · exact ⟨s, hs, rfl, rfl, rfl, rfl, fun other c hc => .inl hc⟩
  have hq : ((p.put parent (some { rp with variant := v })).update id fun r =>
      { r with parent := some parent }).get? i = some r' := hr'
  rw [get?_update] at hq
  split at hq
  · rename_i hi
    obtain ⟨s, hs, rfl⟩ := Option.map_eq_some_iff.mp hq
    obtain ⟨r, hr, hid, htag, -, -, hslots⟩ := hput hs
    exact ⟨r, hr, hid, htag, (if_pos hi.symm).symm, fun hne => absurd hi.symm hne, hslots⟩
  · rename_i hi
    obtain ⟨r, hr, hid, htag, hparent, hout, hslots⟩ := hput hq
    exact ⟨r, hr, hid, htag, hparent.trans (if_neg (Ne.symm hi)).symm, fun _ => hout, hslots⟩

theorem contains_moved {rp : Reflection} (hrp : p.get? parent = some rp) (v : Variant)
    (id i : ReflectionId) : ((((p.put parent (some { rp with variant := v })).update id fun r =>
      { r with parent := some parent }).enterChild parent id).forgetGraph).contains i =
        p.contains i := by
  rw [contains_of_arena_eq arena_forgetGraph, contains_of_arena_eq (arena_enterChild parent id),
    contains_update, contains, get?_put_of_lt (lt_size_of_get? hrp)]
  split
  · rename_i hi
    rw [← hi, contains_of_get? hrp]
    rfl
  · rfl

/-- Moving puts the child, taken out of its old place, under the new parent. -/
theorem placed_reparent (h : p.Numbered) (hmove : p.reparent id parent role = .ok q) :
    (p.parent? id = none ∧ q = p) ∨ ∃ old, p.parent? id = some old ∧
      Placed (p.takeOut old id) q id parent ∧ PlacedSlots (p.takeOut old id) q id parent role := by
  rcases reparent_eq_ok hmove with hsame | ⟨old, rp, v, hold, hrp, hv, rfl⟩
  · exact .inl hsame
  refine .inr ⟨old, hold, ?_, fun i r' other c hr' hc => ?_⟩
  · obtain ⟨r₀, hr₀⟩ := contains_iff.mp (contains_of_parent? hold)
    obtain ⟨hproject, -⟩ := h.below id r₀ hr₀ (h.ne_root_of_parent? hold)
    have hcid : (p.takeOut old id).contains id = true := by
      rw [contains_of_outline outline_takeOut]
      exact contains_of_parent? hold
    refine ⟨?_, fun i _ => contains_moved hrp v id i, fun i r' hi hr' => ?_, ?_, fun i => ?_⟩
    · obtain ⟨r', hr'⟩ := contains_iff.mp ((contains_moved hrp v id id).trans hcid)
      obtain ⟨s, hs, hid, htag, hparent, -⟩ := get?_moved hrp hv hr'
      obtain ⟨r₁, hr₁, hout⟩ := get?_of_outline outline_takeOut hs
      obtain rfl := Option.some.inj (hr₀.symm.trans hr₁)
      refine ⟨r', hr', hid.trans ((h.takeOut hold).id id s hs), ?_, hparent.trans (if_pos rfl)⟩
      rw [← hproject, Reflection.isProject, htag, Reflection.tag_of_outline hout.symm]
      rfl
    · obtain ⟨r, hr, -, -, -, hout, -⟩ := get?_moved hrp hv hr'
      exact ⟨r, hr, hout hi⟩
    · exact (contains_moved hrp v id parent).trans (contains_of_get? hrp)
    · rw [registeredChildren, registered_forgetGraph, ← registeredChildren,
        registeredChildren_enterChild]
      simp only [registeredChildren, registered_update, registered_put]
  · obtain ⟨r, hr, -, -, -, -, hslots⟩ := get?_moved hrp hv hr'
    exact (hslots other c hc).imp_left fun hc => ⟨r, hr, hc⟩

theorem Numbered.reparent (h : p.Numbered) (hmove : p.reparent id parent role = .ok q) :
    q.Numbered := by
  rcases placed_reparent h hmove with ⟨-, rfl⟩ | ⟨old, hold, hplaced, -⟩
  · exact h
  · exact hplaced.numbered (h.takeOut hold)

theorem Linked.reparent (hl : p.Linked) (h : p.Numbered)
    (hmove : p.reparent id parent role = .ok q) : q.Linked := by
  rcases placed_reparent h hmove with ⟨-, rfl⟩ | ⟨old, hold, hplaced, hslots⟩
  · exact hl
  · exact hplaced.linked (hl.takeOut hold) hslots

theorem size_reparent (hmove : p.reparent id parent role = .ok q) :
    q.arena.size = p.arena.size := by
  rcases reparent_eq_ok hmove with ⟨-, rfl⟩ | ⟨old, rp, v, -, -, -, rfl⟩
  · rfl
  · rw [arena_forgetGraph, arena_enterChild, size_update, size_put, size_of_outline outline_takeOut]

theorem graph_reparent (hmove : p.reparent id parent role = .ok q) :
    q = p ∨ q.graph = none := by
  rcases reparent_eq_ok hmove with ⟨-, rfl⟩ | ⟨old, rp, v, -, -, -, rfl⟩
  · exact .inl rfl
  · exact .inr rfl

end Project

end DocTree
