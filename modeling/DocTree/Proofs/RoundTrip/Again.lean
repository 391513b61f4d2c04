import DocTree.Proofs.Reading.Complete
import DocTree.Proofs.RoundTrip.Shelf

/-!
The second time. What was read is laid out as it is numbered: the reflections inside each are those that
were read there, in the order of reading. So when it is written and read again, every reflection gets
the number that it has.
-/

namespace DocTree

namespace Copying

variable {c d : Copying} {v : Revival} {owner b : Nat} {xs : List ReflectionId} {spots : List Spot}

/-! ### The reflections inside one that was read -/

theorem declarations_newTypes (b : Nat) (ts : List Ty) :
    ((c.tyList b ts).map (Reader.newType v)).flatMap Ty.declarations =
      c.run b (ts.flatMap Ty.declarations) := by
  rw [← declarations_tyList fun t _ b => declarations_ty b t, List.flatMap_map]
  exact congrArg List.flatten (List.map_congr_left fun t _ => Ty.declarations_adjust rfl t)

theorem declarations_newType? (b : Nat) (o : Option Ty) :
    ((c.tyOption b o).map (Reader.newType v)).toList.flatMap Ty.declarations =
      c.run b (o.toList.flatMap Ty.declarations) := by
  cases o with
  | none => rfl
  | some t =>
    have h := declarations_newTypes (c := c) (v := v) b [t]
    exact h

theorem toList_getLast?_run (b : Nat) (o : Option ReflectionId) :
    (c.run b (c.live o.toList)).getLast?.toList = c.run b (c.live o.toList) := by
  cases o with
  | none => rfl
  | some x =>
    rw [Option.toList_some, live, List.filter_cons]
    split <;> rfl

/-- Inside a reflection that was read stand those that were read there, in that order. -/
theorem inOrder_endVariant (r : Reflection) (b : Nat)
    (hlive : ∀ x ∈ (c.endVariant v b r).childIds, d.project.contains x = true) :
    d.inOrder (c.endVariant v b r) = c.run b (c.inOrder r.variant) := by
  have hslot : ∀ (role : Role) {ids : List ReflectionId},
      (role, ids) ∈ (c.endVariant v b r).slots → d.live ids = ids := by
    intro role ids hids
    refine live_of_contains fun x hx => hlive x ?_
    rw [Variant.childIds_eq]
    exact List.mem_flatMap.mpr ⟨_, hids, hx⟩
  rw [endVariant] at hslot ⊢
  cases hv : r.variant with
  | project e =>
    rw [hv] at hslot
    simp only [variant, Variant.mapTypes, Variant.mapParts, regrouped, container, inOrder] at hslot ⊢
    rw [hslot .children (by simp [Variant.slots]),
      hslot .documents (by simp [Variant.slots]), run_append]
  | declaration e =>
    rw [hv] at hslot
    simp only [variant, declaration, Variant.mapTypes, Variant.mapParts, regrouped, container,
      inOrder, declarations_newType?, declarations_newTypes] at hslot ⊢
    rw [hslot .children (by simp [Variant.slots]),
      hslot .documents (by simp [Variant.slots]),
      hslot .typeParameter (by simp [Variant.slots]),
      hslot .signatures (by simp [Variant.slots]),
      hslot .indexSignature (by simp [Variant.slots]),
      hslot .getSignature (by simp [Variant.slots]),
      hslot .setSignature (by simp [Variant.slots])]
    simp only [toList_getLast?_run, run_append, total_append, owned, Nat.add_assoc]
  | signature e =>
    rw [hv] at hslot
    simp only [variant, signature, Variant.mapTypes, Variant.mapParts, inOrder,
      declarations_newType?] at hslot ⊢
    rw [hslot .typeParameter (by simp [Variant.slots]),
      hslot .parameters (by simp [Variant.slots])]
    simp only [run_append, total_append, owned, Nat.add_assoc]
  | param e => exact declarations_newType? b e.type
  | typeParam e =>
    simp only [variant, Variant.mapTypes, Variant.mapParts, inOrder, declarations_newType?, run_append,
      owned]
  | reference t | document e => rfl

/-! ### Places -/

/-- The place of a reflection that was read, when it is read again. -/
def Spot.again (s : Spot) : Spot := ⟨s.number, s.number, s.owner⟩

/-- When what was read is read again, each reflection has its number. -/
theorem Laid.again (h : c.Laid owner b xs spots)
    (hget : ∀ s ∈ spots, d.project.get? s.number = some (c.image v s))
    (hlive : ∀ s ∈ spots, ∀ x ∈ (c.image v s).childIds, d.project.contains x = true)
    {spots' : List Spot} (h' : d.Laid owner b (c.run b xs) spots') : spots' = spots.map Spot.again := by
  induction h generalizing spots' with
  | nil =>
    cases h'
    rfl
  | @cons owner b x r xs inner rest hx hspan _ _ ihinner ihrest =>
    cases h' with
    | @cons _ _ _ r' _ inner' rest' hx' hspan' hinner' hrest' =>
      have himage := hget _ (List.mem_cons_self ..)
      rw [hx'] at himage
      have hkept := hlive _ (List.mem_cons_self ..)
      rw [image_eq hx] at himage hkept
      have hinside : d.inOrder r'.variant = c.run (b + 1) (c.inOrder r.variant) := by
        rw [Option.some.inj himage]
        exact inOrder_endVariant r (b + 1) hkept
      rw [hinside] at hinner'
      obtain rfl := ihinner (fun s hs => hget s (List.mem_cons_of_mem _ (List.mem_append_left _ hs)))
        (fun s hs => hlive s (List.mem_cons_of_mem _ (List.mem_append_left _ hs))) hinner'
      rw [hspan', List.length_map, ← hspan] at hrest'
      obtain rfl := ihrest (fun s hs => hget s (List.mem_cons_of_mem _ (List.mem_append_right _ hs)))
        (fun s hs => hlive s (List.mem_cons_of_mem _ (List.mem_append_right _ hs))) hrest'
      rw [List.map_cons, List.map_append]
      rfl

theorem Layout.again (h : c.Layout spots)
    (hget : ∀ s ∈ spots, d.project.get? s.number = some (c.image v s))
    (hlive : ∀ s ∈ spots, ∀ x ∈ (c.image v s).childIds, d.project.contains x = true)
    {spots' : List Spot} (h' : d.Layout spots') : spots' = spots.map Spot.again := by
  obtain ⟨r, inner, hr, rfl, hlaid⟩ := h.places
  obtain ⟨r', inner', hr', rfl, hlaid'⟩ := h'.places
  have himage := hget _ (List.mem_cons_self ..)
  have hkept := hlive _ (List.mem_cons_self ..)
  rw [image_eq hr] at himage hkept
  have hinside : d.inOrder r'.variant = c.run 1 (c.inOrder r.variant) := by
    rw [Option.some.inj (hr'.symm.trans himage)]
    exact inOrder_endVariant r 1 hkept
  rw [hinside] at hlaid'
  rw [hlaid.again (fun s hs => hget s (List.mem_cons_of_mem _ hs))
    (fun s hs => hlive s (List.mem_cons_of_mem _ hs)) hlaid']
  rfl

end Copying

end DocTree
