import DocTree.Proofs.Registry.Referencing
import DocTree.Proofs.Registry.Structural

/-!
Registries in order. Beside numbers and slots there is a third invariant: a reference has no slot to put
a child into, so nothing ever stands below one. It holds whatever is done to the slots, and needs
no more of the edits than that each reflection keeps its place.
-/

namespace DocTree

theorem Variant.tag_ne_reference_of_attach? {v w : Variant} {c : ReflectionId} {role : Role}
    (h : v.attach? c role = some w) : v.tag ≠ .reference := by
  cases v <;> cases role <;> cases h <;> exact VariantTag.noConfusion

theorem Variant.tag_ne_reference_of_setMainType? {v w : Variant} {type : Option Ty}
    (h : v.setMainType? type = some w) : v.tag ≠ .reference := by
  cases v <;> cases h <;> exact VariantTag.noConfusion

theorem Reflection.isReference_eq_false_iff {r : Reflection} :
    r.isReference = false ↔ r.tag ≠ .reference := by
  rw [isReference, decide_eq_false_iff_not]

namespace Project

variable {p q : Project} {name : String}

/-- Nothing stands below a reference. -/
def Hosted (p : Project) : Prop :=
  ∀ c a r, p.parent? c = some a → p.get? a = some r → r.isReference = false

/-- The invariants of a registry. -/
structure Orderly (p : Project) : Prop where
  sound : p.Sound
  linked : p.Linked
  hosted : p.Hosted

/-! ### Nothing below references -/

theorem hosted_ofName (name : String) : (ofName name).Hosted := by
  intro c a r hc hr
  match a with
  | 0 =>
    obtain rfl := Option.some.inj hr
    rfl
  | a + 1 => cases hr

/-- Whatever leaves parents and sorts as they are puts nothing below a reference. -/
theorem Hosted.of_held (h : p.Hosted) (hq : ∀ i r', q.get? i = some r' →
    ∃ r, p.get? i = some r ∧ r'.parent = r.parent ∧ r'.tag = r.tag) : q.Hosted := by
  intro c a r' hc hr'
  obtain ⟨s', hs', hparent'⟩ := parent?_eq_some_iff.mp hc
  obtain ⟨s, hs, hparent, -⟩ := hq c s' hs'
  obtain ⟨r, hr, -, htag⟩ := hq a r' hr'
  rw [Reflection.isReference, htag]
  exact h c a r ((parent?_of_get? hs).trans (hparent.symm.trans hparent')) hr

theorem Hosted.of_outline (h : p.Hosted) (hout : q.outline = p.outline) : q.Hosted :=
  h.of_held fun _ _ hr' =>
    have ⟨r, hr, hrr'⟩ := get?_of_outline hout hr'
    ⟨r, hr, Reflection.parent_of_outline hrr'.symm, Reflection.tag_of_outline hrr'.symm⟩

theorem Hosted.removed {x : ReflectionId} (h : p.Hosted) (hq : Removed p x q) : q.Hosted :=
  h.of_held fun i r' hr' =>
    have ⟨r, hr, hout⟩ := hq.held i r' hr'
    ⟨r, hr, Reflection.parent_of_outline hout, Reflection.tag_of_outline hout⟩

theorem Hosted.update {i : ReflectionId} {f : Reflection → Reflection} (h : p.Hosted)
    (hf : Reflection.KeepsPlace f) : (p.update i f).Hosted := by
  refine h.of_held fun j r' hr' => ?_
  rw [get?_update] at hr'
  split at hr'
  · obtain ⟨r, hr, rfl⟩ := Option.map_eq_some_iff.mp hr'
    exact ⟨r, hr, (hf r).2⟩
  · exact ⟨r', hr', rfl, rfl⟩

/-- What is added has no children yet, and what it is added to has a slot for it. -/
theorem Hosted.add {parent id : ReflectionId} {role : Role} {r : Reflection} (h : p.Hosted)
    (hp : p.Numbered) (hadd : p.add parent role r = .ok (q, id)) : q.Hosted := by
  have hplaced := placed_add hadd
  obtain ⟨hid, -, rp, v, hrp, hv, hget, -⟩ := add_eq_ok hadd
  have hnone : p.get? id = none := get?_eq_none_of_size_le (Nat.le_of_eq hid.symm)
  intro c a s hc hs
  by_cases hcid : c = id
  · subst hcid
    obtain rfl := Option.some.inj (hplaced.parent?_self.symm.trans hc)
    have hne : parent ≠ c := by
      rintro rfl
      exact nomatch hnone.symm.trans hrp
    rw [hget, if_neg hne, if_pos rfl] at hs
    obtain rfl := Option.some.inj hs
    have htag : v.tag ≠ .reference :=
      Variant.tag_attach? hv ▸ Variant.tag_ne_reference_of_attach? hv
    exact Reflection.isReference_eq_false_iff.mpr htag
  · rw [hplaced.parent?_of_ne hcid] at hc
    have hne : a ≠ id := by
      rintro rfl
      exact not_contains_iff.mpr hnone (hp.contains_parent hc)
    obtain ⟨s', hs', hout⟩ := hplaced.held a s hne hs
    rw [Reflection.isReference_of_outline hout]
    exact h c a s' hc hs'

theorem Hosted.reparent {id parent : ReflectionId} {role : Role} (h : p.Hosted)
    (hmove : p.reparent id parent role = .ok q) : q.Hosted := by
  rcases reparent_eq_ok hmove with ⟨-, rfl⟩ | ⟨old, rp, v, -, hrp, hv, rfl⟩
  · exact h
  have ht : (p.takeOut old id).Hosted := h.of_outline outline_takeOut
  intro c a s hc hs
  obtain ⟨c', hc', hparent'⟩ := parent?_eq_some_iff.mp hc
  obtain ⟨c₀, hc₀, -, -, hparent, -⟩ := get?_moved hrp hv hc'
  obtain ⟨s₀, hs₀, -, htag, -⟩ := get?_moved hrp hv hs
  rw [Reflection.isReference, htag]
  rw [hparent] at hparent'
  split at hparent'
  · obtain rfl := Option.some.inj hparent'
    obtain rfl := Option.some.inj (hrp.symm.trans hs₀)
    exact Reflection.isReference_eq_false_iff.mpr (Variant.tag_ne_reference_of_attach? hv)
  · exact ht c a s₀ ((parent?_of_get? hc₀).trans hparent') hs₀

theorem Hosted.setVariant {id : ReflectionId} {r : Reflection} {v : Variant} {type : Option Ty}
    (h : p.Hosted) (hr : p.get? id = some r) (hv : r.variant.setMainType? type = some v) :
    (p.put id (some { r with variant := v })).Hosted :=
  h.of_outline (outline_setVariant hr (Variant.tag_setMainType? hv))

theorem Hosted.setType {id : ReflectionId} {type : Option Ty} (h : p.Hosted) (hp : p.Sound)
    (hq : p.setType id type = .ok q) : q.Hosted := by
  obtain ⟨r, v, old, hr, hv, rfl⟩ := setType_eq_ok hq
  have hfold := foldl_dropLiteral (P := fun t => t.Sound ∧ t.Hosted) id
    (fun t d ⟨ht, hh⟩ hd => ⟨ht.removed_of_parent? hd, hh.removed (ht.removed_child hd)⟩)
    old _ ⟨hp.setVariant hr hv, h.setVariant hr hv⟩
  exact hfold.2.of_outline rfl

theorem Hosted.perform {c : Command} {ids : List ReflectionId} (h : p.Hosted) (hp : p.Sound)
    (hc : c.KeepsPlace) (hq : p.perform c = .ok (q, ids)) : q.Hosted := by
  cases c with
  | add parent role r =>
    obtain ⟨⟨q', id⟩, hadd, ⟨⟩⟩ := map_eq_ok hq
    exact h.add hp.numbered hadd
  | setType id type =>
    obtain ⟨q', hset, ⟨⟩⟩ := map_eq_ok hq
    exact h.setType hp hset
  | reparent id parent role =>
    obtain ⟨q', hmove, ⟨⟩⟩ := map_eq_ok hq
    exact h.reparent hmove
  | remove id =>
    obtain ⟨q', hremove, ⟨⟩⟩ := map_eq_ok hq
    obtain ⟨hne, rfl⟩ := remove_eq_ok hremove
    by_cases hx : p.contains id = true
    · exact h.removed (removed_spec hp.numbered hp.graph hx hne)
    · exact (removed_of_not_contains (not_contains_iff.mp hx)).symm ▸ h
  | registerSymbol id declared =>
    cases hq
    exact h.of_outline (p.outline_registerSymbol id declared)
  | registerSymbolId id s =>
    cases hq
    exact h.of_outline rfl
  | setTarget id target =>
    cases hq
    exact h.of_outline (p.outline_setTarget id target)
  | edit id f =>
    cases hq
    exact (h.update hc).of_outline rfl

/-! ### Whole runs -/

theorem Reachable.hosted (h : Reachable name p) : p.Hosted := by
  induction h with
  | new => exact hosted_ofName name
  | command hp hc hq ih => exact ih.perform hp.sound hc hq
  | editRoot _ hf ih => exact ih.update hf
  | referenceTarget i _ ih => exact ih.of_outline (looked_settle _ i).outline
  | @referencing p t hp ih =>
    obtain ⟨-, hlook, -⟩ := referencing_eq hp.sound.numbered.id hp.sound.graph t
    exact ih.of_outline hlook.outline

/-- Every registry that can be reached is in order as soon as its slots are. -/
theorem Reachable.orderly (h : Reachable name p) (hl : p.Linked) : p.Orderly :=
  ⟨h.sound, hl, h.hosted⟩

theorem Proper.keepsPlace {c : Command} (h : p.Proper c) : c.KeepsPlace := by
  cases c with
  | edit id f => cases h
  | _ => trivial

theorem Reachable.run {ids : List ReflectionId} (h : Reachable name p) (hrun : Run Proper p ids q) :
    Reachable name q := by
  induction hrun with
  | refl => exact h
  | step _ hc hq ih => exact .command ih hc.keepsPlace hq

/-- Runs that leave the slots to the registry keep everything in order. -/
theorem orderly_run {ids : List ReflectionId} (hrun : Run Proper (ofName name) ids p) : p.Orderly :=
  (Reachable.new.run hrun).orderly ((linked_ofName name).run (sound_ofName name) hrun)

end Project

end DocTree
