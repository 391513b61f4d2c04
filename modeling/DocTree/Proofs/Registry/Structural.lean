import DocTree.Proofs.Registry.Command

/-!
The structure of a registry over whole runs. The slots of a parent, the parent of a child and the
table of children are three copies of one relation; every command, as long as it leaves the slots to
the registry, changes all three together.
-/

namespace DocTree.Project

/-- A command that leaves slots to the registry. A reflection is added as it was made, with nothing in
its slots, and a type is given only declarations that are registered under its reflection and stand
in no other slot. -/
def Proper (p : Project) : Command → Prop
  | .add _ _ r => r.structuralChildren = []
  | .setType id type => ∀ d ∈ type.elim [] Ty.declarations, p.parent? d = some id ∧
      ∀ i r role, p.get? i = some r → (d, role) ∈ r.structuralChildren → role = .typeLiteral
  | .edit _ _ => False
  | _ => True

variable {p q : Project} {id : ReflectionId}

theorem Proper.keepsOutline {c : Command} (h : p.Proper c) : c.KeepsOutline := by
  cases c with
  | edit id f => cases h
  | _ => trivial

/-! ### Slots after each command -/

/-- A project that holds the same reflections is linked as well. -/
theorem Linked.of_arena (h : p.Linked) (harena : q.arena = p.arena) : q.Linked := by
  have hout : q.outline = p.outline := by rw [outline, outline, harena]
  exact h.of_outline hout fun i r role c hr hc => ⟨r, (get?_of_arena_eq harena i).symm.trans hr, hc⟩

theorem linked_ofName (name : String) : (ofName name).Linked := by
  intro i r role c hr hc
  match i with
  | 0 =>
    obtain rfl := Option.some.inj hr
    have hmem : (c, role) ∈ (Reflection.project name).structuralChildren :=
      Variant.mem_structuralChildren.mpr hc
    exact absurd hmem List.not_mem_nil
  | i + 1 => cases hr

/-- A main type whose declarations stand in no other slot can be set. -/
theorem Linked.setVariant {r : Reflection} {v : Variant} {type : Option Ty} (h : p.Linked)
    (hr : p.get? id = some r) (hv : r.variant.setMainType? type = some v)
    (htype : p.Proper (.setType id type)) :
    (p.put id (some { r with variant := v })).Linked := by
  have hout := outline_setVariant hr (Variant.tag_setMainType? hv)
  -- In the reflection itself, a slot holds what it held or a declaration of the new type.
  have hself (role : Role) (c : ReflectionId) (hc : c ∈ v.slot role) :
      c ∈ r.variant.slot role ∨ (c ∈ type.elim [] Ty.declarations ∧ role = .typeLiteral) := by
    by_cases hrole : role = .typeLiteral
    · subst hrole
      rw [Variant.literals_eq_slot, Variant.mem_literals, Variant.types_setMainType? hv] at hc
      obtain ⟨t, ht, hct⟩ := hc
      rcases List.mem_append.mp ht with ht | ht
      · cases type with
        | none => exact absurd ht List.not_mem_nil
        | some u =>
          obtain rfl := List.mem_singleton.mp ht
          exact .inr ⟨hct, rfl⟩
      · refine .inl ?_
        rw [Variant.literals_eq_slot, Variant.mem_literals, Variant.types_eq]
        exact ⟨t, List.mem_append_right _ ht, hct⟩
    · exact .inl (Variant.slot_setMainType? hv hrole ▸ hc)
  have hproper {d : ReflectionId} (hd : d ∈ type.elim [] Ty.declarations) : p.parent? d = some id ∧
      ∀ role, d ∈ r.variant.slot role → role = .typeLiteral :=
    ⟨(htype d hd).1, fun role hs =>
      (htype d hd).2 id r role hr (Variant.mem_structuralChildren.mpr hs)⟩
  intro i s role c hs hc
  rw [get?_put_of_lt (lt_size_of_get? hr)] at hs
  split at hs
  case isTrue hi =>
    subst hi
    obtain rfl := Option.some.inj hs
    rw [parent?_of_outline hout]
    rcases hself role c hc with hold | ⟨hnew, rfl⟩
    · obtain ⟨hparent, hunique⟩ := h id r role c hr hold
      refine ⟨hparent, fun other ho => ?_⟩
      rcases hself other c ho with ho | ⟨hnew, rfl⟩
      · exact hunique other ho
      · exact ((hproper hnew).2 role hold).symm
    · obtain ⟨hparent, hunique⟩ := hproper hnew
      refine ⟨hparent, fun other ho => ?_⟩
      rcases hself other c ho with ho | ⟨-, ho⟩
      · exact hunique other ho
      · exact ho
  case isFalse hi =>
    obtain ⟨hparent, hunique⟩ := h i s role c hs hc
    exact ⟨(parent?_of_outline hout c).trans hparent, hunique⟩

theorem Linked.setType {type : Option Ty} (h : p.Linked) (hp : p.Sound)
    (htype : p.Proper (.setType id type)) (hq : p.setType id type = .ok q) : q.Linked := by
  obtain ⟨r, v, old, hr, hv, rfl⟩ := setType_eq_ok hq
  have hfold := foldl_dropLiteral (P := fun t => t.Sound ∧ t.Linked) id
    (fun t d ⟨ht, hl⟩ hd => ⟨ht.removed_of_parent? hd, (ht.removed_child hd).linked hl⟩)
    old _ ⟨hp.setVariant hr hv, h.setVariant hr hv htype⟩
  exact hfold.2.of_arena rfl

theorem Linked.setTarget {target : ReferenceTarget} (h : p.Linked) :
    (p.setTarget id target).Linked := by
  rw [Project.setTarget]
  split
  case isFalse => exact h
  refine h.of_outline (outline_update fun r => r.outline_mapTarget _) fun i r' role c hr' hc => ?_
  rw [get?_forgetGraph, get?_update] at hr'
  split at hr'
  · obtain ⟨r, hr, rfl⟩ := Option.map_eq_some_iff.mp hr'
    exact ⟨r, hr, Variant.slot_of_frame (Reflection.frame_mapTarget _ r) role ▸ hc⟩
  · exact ⟨r', hr', hc⟩

theorem Linked.perform {c : Command} {new : List ReflectionId} (h : p.Linked) (hp : p.Sound)
    (hc : p.Proper c) (hq : p.perform c = .ok (q, new)) : q.Linked := by
  cases c with
  | add parent role r =>
    obtain ⟨⟨q', id⟩, hadd, ⟨⟩⟩ := map_eq_ok hq
    exact h.add hadd hc
  | setType id type =>
    obtain ⟨q', hset, ⟨⟩⟩ := map_eq_ok hq
    exact h.setType hp hc hset
  | reparent id parent role =>
    obtain ⟨q', hmove, ⟨⟩⟩ := map_eq_ok hq
    exact h.reparent hp.numbered hmove
  | remove id =>
    obtain ⟨q', hremove, ⟨⟩⟩ := map_eq_ok hq
    obtain ⟨hne, rfl⟩ := remove_eq_ok hremove
    by_cases hx : p.contains id = true
    · exact (removed_spec hp.numbered hp.graph hx hne).linked h
    · exact (removed_of_not_contains (not_contains_iff.mp hx)).symm ▸ h
  | registerSymbol id declared =>
    cases hq
    exact h.of_arena (p.arena_registerSymbol id declared)
  | registerSymbolId id s =>
    cases hq
    exact h.of_arena rfl
  | setTarget id target =>
    cases hq
    exact h.setTarget
  | edit id f => cases hc

theorem Linked.run {ids : List ReflectionId} (h : p.Linked) (hp : p.Sound)
    (hrun : Run Proper p ids q) : q.Linked := by
  induction hrun with
  | refl => exact h
  | step hrun hc hq ih => exact ih.perform (hp.run (fun _ _ => Proper.keepsOutline) hrun) hc hq

/-! ### Whole runs -/

/-- The structural invariant of a registry: numbers are keys and not yet to be given, everything but
the root hangs in the tree, and what the slots and the table of children say is what the parents
say. -/
structure Structural (p : Project) : Prop where
  key : ∀ i r, p.get? i = some r → r.id = i ∧ i < p.supply.next
  root : ∃ r, p.get? ReflectionId.project = some r ∧ r.parent = none
  below : ∀ i, p.contains i = true → i ≠ ReflectionId.project →
    ∃ q, p.parent? i = some q ∧ p.contains q = true
  listed : ∀ q i, i ∈ p.registeredChildren q ↔ p.parent? i = some q
  nodup : ∀ q, (p.registeredChildren q).Nodup
  slots : ∀ i r c role, p.get? i = some r → (c, role) ∈ r.structuralChildren →
    p.contains c = true ∧ p.parent? c = some i

theorem Sound.structural (h : p.Sound) (hl : p.Linked) : p.Structural where
  key i r hr := ⟨h.numbered.id i r hr, lt_size_of_get? hr⟩
  root := h.numbered.root.imp fun _ ⟨hr, _, hparent⟩ => ⟨hr, hparent⟩
  below _ := h.numbered.parent?_of_ne_root
  listed := h.numbered.listed
  nodup := h.numbered.nodup
  slots i r c role hr hc :=
    have hparent := (hl i r role c hr (Variant.mem_structuralChildren.mp hc)).1
    ⟨contains_of_parent? hparent, hparent⟩

end DocTree.Project
