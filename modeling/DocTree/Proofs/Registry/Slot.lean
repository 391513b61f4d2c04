import DocTree.Proofs.Registry.Outline

/-!
Slots and stored types under removal. `prune` takes several children out at once: it filters every
slot and gives up every type that mentions one of them. Vacating the one slot in which a child
stands is pruning that child, and pruning twice is pruning both, so a whole removal is one pruning.
-/

namespace DocTree

/-- A type, given up when it mentions something that is gone. -/
def Ty.clear (gone : ReflectionId → Bool) (t : Ty) : Ty :=
  if t.declarations.any gone then Ty.object else t

namespace Variant

/-- The children in the slot of a role. -/
def slot : Variant → Role → List ReflectionId
  | .project d, .children => d.container.children
  | .project d, .documents => d.container.documents
  | .declaration d, .children => d.container.children
  | .declaration d, .documents => d.container.documents
  | .declaration d, .typeParameter => d.typeParameters
  | .declaration d, .signatures => d.signatures
  | .declaration d, .indexSignature => d.indexSignatures
  | .declaration d, .getSignature => d.getSignature.toList
  | .declaration d, .setSignature => d.setSignature.toList
  | .signature d, .parameters => d.parameters
  | .signature d, .typeParameter => d.typeParameters
  | v, .typeLiteral => v.literals
  | _, _ => []

/-- Only some children left in the slots; the types are left as they are. -/
def filterSlots (keep : ReflectionId → Bool) : Variant → Variant
  | .project d => .project { d with
      container := { d.container with
        children := d.container.children.filter keep
        documents := d.container.documents.filter keep } }
  | .declaration d => .declaration { d with
      container := { d.container with
        children := d.container.children.filter keep
        documents := d.container.documents.filter keep }
      typeParameters := d.typeParameters.filter keep
      signatures := d.signatures.filter keep
      indexSignatures := d.indexSignatures.filter keep
      getSignature := d.getSignature.filter keep
      setSignature := d.setSignature.filter keep }
  | .signature d => .signature { d with
      parameters := d.parameters.filter keep
      typeParameters := d.typeParameters.filter keep }
  | v => v

/-- What is gone taken out of all slots, and the types that mention it given up. -/
def prune (gone : ReflectionId → Bool) (v : Variant) : Variant :=
  (v.mapTypes (Ty.clear gone)).filterSlots fun c => !gone c

/-- Everything but the groupings and what is known of the target of a reference. -/
def frame : Variant → Variant
  | .project d => .project { d with
      container := { d.container with groups := none, categories := none } }
  | .declaration d => .declaration { d with
      container := { d.container with groups := none, categories := none } }
  | .reference _ => .reference .broken
  | v => v

attribute [grind =] slot filterSlots vacate attach?

variable {v w : Variant} {c : ReflectionId} {role : Role} {gone : ReflectionId → Bool}

/-! ### Children by their roles -/

theorem mem_structuralChildren : (c, role) ∈ v.structuralChildren ↔ c ∈ v.slot role := by
  cases v <;> cases role <;> simp [structuralChildren, slots, slot, literals, types]

/-- The reflections in the slots of a variant. -/
def childIds (v : Variant) : List ReflectionId := v.structuralChildren.map (·.1)

theorem mem_childIds : c ∈ v.childIds ↔ ∃ role, c ∈ v.slot role := by
  simp only [childIds, List.mem_map, Prod.exists, mem_structuralChildren]
  constructor
  · rintro ⟨x, role, hx, rfl⟩
    exact ⟨role, hx⟩
  · rintro ⟨role, hx⟩
    exact ⟨c, role, hx, rfl⟩

theorem childIds_eq (v : Variant) : v.childIds = v.slots.flatMap (·.2) := by
  rw [childIds, structuralChildren, List.map_flatMap]
  refine congrArg List.flatten (List.map_congr_left fun slot _ => ?_)
  rw [List.map_map]
  exact List.map_id _

theorem literals_eq_slot (v : Variant) : v.slot .typeLiteral = v.literals := by
  cases v <;> rfl

/-- A child is found with the role of a slot in which it stands. -/
theorem lookup_structuralChildren (h : v.structuralChildren.lookup c = some role) :
    c ∈ v.slot role := by
  obtain ⟨l, l', hl, -⟩ := List.lookup_eq_some_iff.mp h
  exact mem_structuralChildren.mp (by rw [hl]; simp)

theorem not_mem_slot_of_lookup (h : v.structuralChildren.lookup c = none) (role : Role) :
    c ∉ v.slot role := by
  intro hc
  have hne := List.lookup_eq_none_iff.mp h _ (mem_structuralChildren.mpr hc)
  simp at hne

/-! ### Types -/

theorem types_mapTypes (f : Ty → Ty) (v : Variant) : (v.mapTypes f).types = v.types.map f := by
  cases v <;> simp [mapTypes, types, Option.toList_map]

theorem types_filterSlots (keep : ReflectionId → Bool) (v : Variant) :
    (v.filterSlots keep).types = v.types := by
  cases v <;> rfl

theorem types_prune (gone : ReflectionId → Bool) (v : Variant) :
    (v.prune gone).types = v.types.map (Ty.clear gone) := by
  rw [prune, types_filterSlots, types_mapTypes]

theorem types_frame (v : Variant) : v.frame.types = v.types := by
  cases v <;> rfl

theorem literals_frame (v : Variant) : v.frame.literals = v.literals := by
  rw [literals, literals, types_frame]

theorem mem_literals : c ∈ v.literals ↔ ∃ t ∈ v.types, c ∈ t.declarations := by
  rw [literals, List.mem_flatMap]

theorem declarations_clear (t : Ty) :
    (t.clear gone).declarations = if t.declarations.any gone then [] else t.declarations := by
  rw [Ty.clear]
  split <;> rfl

theorem mem_declarations_clear {t : Ty} :
    c ∈ (t.clear gone).declarations ↔ c ∈ t.declarations ∧ t.declarations.any gone = false := by
  rw [declarations_clear]
  split <;> simp_all

/-- What the types still own is what some type owns that mentions nothing gone. -/
theorem mem_literals_prune : c ∈ (v.prune gone).literals ↔
    ∃ t ∈ v.types, c ∈ t.declarations ∧ t.declarations.any gone = false := by
  rw [mem_literals, types_prune]
  constructor
  · rintro ⟨t', ht', hc⟩
    obtain ⟨t, ht, rfl⟩ := List.mem_map.mp ht'
    exact ⟨t, ht, mem_declarations_clear.mp hc⟩
  · rintro ⟨t, ht, hc⟩
    exact ⟨t.clear gone, List.mem_map.mpr ⟨t, ht, rfl⟩, mem_declarations_clear.mpr hc⟩

/-! ### Slots -/

theorem slot_frame (v : Variant) (role : Role) : v.frame.slot role = v.slot role := by
  cases role
  case typeLiteral => rw [literals_eq_slot, literals_eq_slot, literals_frame]
  all_goals cases v <;> rfl

theorem slot_of_frame (h : v.frame = w.frame) (role : Role) : v.slot role = w.slot role := by
  rw [← slot_frame v, h, slot_frame]

theorem types_of_frame (h : v.frame = w.frame) : v.types = w.types := by
  rw [← types_frame v, h, types_frame]

theorem literals_of_frame (h : v.frame = w.frame) : v.literals = w.literals := by
  rw [← literals_frame v, h, literals_frame]

theorem slot_mapTypes (h : role ≠ .typeLiteral) (f : Ty → Ty) :
    (v.mapTypes f).slot role = v.slot role := by
  cases role
  case typeLiteral => exact absurd rfl h
  all_goals cases v <;> rfl

theorem slot_filterSlots (h : role ≠ .typeLiteral) (keep : ReflectionId → Bool) (v : Variant) :
    (v.filterSlots keep).slot role = (v.slot role).filter keep := by
  cases role
  case typeLiteral => exact absurd rfl h
  all_goals cases v <;> simp [slot, filterSlots, Option.toList_filter]

theorem slot_prune (h : role ≠ .typeLiteral) :
    (v.prune gone).slot role = (v.slot role).filter fun c => !gone c := by
  rw [prune, slot_filterSlots h, slot_mapTypes h]

/-- What still stands in a slot stood there before and is not gone. -/
theorem mem_slot_prune (h : c ∈ (v.prune gone).slot role) : c ∈ v.slot role ∧ gone c = false := by
  by_cases hr : role = .typeLiteral
  · subst hr
    rw [literals_eq_slot, mem_literals_prune] at h
    obtain ⟨t, ht, hc, hany⟩ := h
    rw [literals_eq_slot]
    refine ⟨mem_literals.mpr ⟨t, ht, hc⟩, ?_⟩
    simpa using List.any_eq_false.mp hany c hc
  · rw [slot_prune hr, List.mem_filter] at h
    exact ⟨h.1, by simpa using h.2⟩

/-! ### Pruning -/

theorem clear_clear (g h : ReflectionId → Bool) (t : Ty) :
    (t.clear g).clear h = t.clear fun c => g c || h c := by
  have hany : (t.declarations.any fun c => g c || h c) =
      (t.declarations.any g || t.declarations.any h) := by
    rw [Bool.eq_iff_iff]
    simp only [List.any_eq_true, Bool.or_eq_true]
    exact ⟨fun ⟨x, hx, hgh⟩ => hgh.elim (fun hg => .inl ⟨x, hx, hg⟩) (fun hh => .inr ⟨x, hx, hh⟩),
      fun hgh => hgh.elim (fun ⟨x, hx, hg⟩ => ⟨x, hx, .inl hg⟩) (fun ⟨x, hx, hh⟩ => ⟨x, hx, .inr hh⟩)⟩
  rw [Ty.clear, Ty.clear, Ty.clear, hany]
  cases t.declarations.any g
  · rfl
  · rw [if_pos rfl, Bool.true_or, if_pos rfl]
    split <;> rfl

theorem mapTypes_mapTypes (f g : Ty → Ty) (v : Variant) :
    (v.mapTypes f).mapTypes g = v.mapTypes (g ∘ f) := by
  cases v <;> simp [mapTypes]

theorem filterSlots_filterSlots (f g : ReflectionId → Bool) (v : Variant) :
    (v.filterSlots f).filterSlots g = v.filterSlots fun c => f c && g c := by
  cases v <;> simp [filterSlots, List.filter_filter, Option.filter_filter, Bool.and_comm]

theorem mapTypes_filterSlots (f : Ty → Ty) (keep : ReflectionId → Bool) (v : Variant) :
    (v.filterSlots keep).mapTypes f = (v.mapTypes f).filterSlots keep := by
  cases v <;> rfl

theorem prune_prune (g h : ReflectionId → Bool) (v : Variant) :
    (v.prune g).prune h = v.prune fun c => g c || h c := by
  rw [prune, prune, prune, mapTypes_filterSlots, filterSlots_filterSlots, mapTypes_mapTypes]
  have hclear : Ty.clear h ∘ Ty.clear g = Ty.clear fun c => g c || h c :=
    funext (clear_clear g h)
  simp only [hclear, Bool.not_or]

theorem clear_of_not_mem {t : Ty} (h : ∀ c ∈ t.declarations, gone c = false) : t.clear gone = t := by
  rw [Ty.clear, if_neg]
  simpa using h

theorem mapTypes_congr {f g : Ty → Ty} (h : ∀ t ∈ v.types, f t = g t) :
    v.mapTypes f = v.mapTypes g := by
  have hlist {l : List Ty} (hl : ∀ t ∈ l, t ∈ v.types) : l.map f = l.map g :=
    List.map_congr_left fun t ht => h t (hl t ht)
  have hopt {o : Option Ty} (ho : ∀ t ∈ o.toList, t ∈ v.types) : o.map f = o.map g := by
    cases o with
    | none => rfl
    | some t => exact congrArg some (h t (ho t (by simp)))
  cases v with
  | declaration d =>
    rw [mapTypes, mapTypes, hopt (o := d.type) (by simp +contextual [types]),
      hopt (o := d.overwrites) (by simp +contextual [types]),
      hopt (o := d.inheritedFrom) (by simp +contextual [types]),
      hopt (o := d.implementationOf) (by simp +contextual [types]),
      hlist (l := d.extendedTypes) (by simp +contextual [types]),
      hlist (l := d.extendedBy) (by simp +contextual [types]),
      hlist (l := d.implementedTypes) (by simp +contextual [types]),
      hlist (l := d.implementedBy) (by simp +contextual [types])]
  | signature d =>
    rw [mapTypes, mapTypes, hopt (o := d.type) (by simp +contextual [types]),
      hopt (o := d.overwrites) (by simp +contextual [types]),
      hopt (o := d.inheritedFrom) (by simp +contextual [types]),
      hopt (o := d.implementationOf) (by simp +contextual [types])]
  | param d => rw [mapTypes, mapTypes, hopt (o := d.type) (by simp [types])]
  | typeParam d =>
    rw [mapTypes, mapTypes, hopt (o := d.type) (by simp +contextual [types]),
      hopt (o := d.default) (by simp +contextual [types])]
  | project d => rfl
  | reference t => rfl
  | document d => rfl

theorem mapTypes_id (v : Variant) : v.mapTypes id = v := by
  cases v <;> simp [mapTypes]

theorem filterSlots_congr {f g : ReflectionId → Bool}
    (h : ∀ role, role ≠ .typeLiteral → ∀ c ∈ v.slot role, f c = g c) :
    v.filterSlots f = v.filterSlots g := by
  have hlist {l : List ReflectionId} (role : Role) (hr : role ≠ .typeLiteral)
      (hl : v.slot role = l) : l.filter f = l.filter g :=
    List.filter_congr fun c hc => h role hr c (hl ▸ hc)
  have hopt {o : Option ReflectionId} (role : Role) (hr : role ≠ .typeLiteral)
      (ho : v.slot role = o.toList) : o.filter f = o.filter g := by
    cases o with
    | none => rfl
    | some c => rw [Option.filter_some, Option.filter_some, h role hr c (by rw [ho]; simp)]
  cases v with
  | project d =>
    rw [filterSlots, filterSlots, hlist (l := d.container.children) .children (by decide) rfl,
      hlist (l := d.container.documents) .documents (by decide) rfl]
  | declaration d =>
    rw [filterSlots, filterSlots, hlist (l := d.container.children) .children (by decide) rfl,
      hlist (l := d.container.documents) .documents (by decide) rfl,
      hlist (l := d.typeParameters) .typeParameter (by decide) rfl,
      hlist (l := d.signatures) .signatures (by decide) rfl,
      hlist (l := d.indexSignatures) .indexSignature (by decide) rfl,
      hopt (o := d.getSignature) .getSignature (by decide) rfl,
      hopt (o := d.setSignature) .setSignature (by decide) rfl]
  | signature d =>
    rw [filterSlots, filterSlots, hlist (l := d.parameters) .parameters (by decide) rfl,
      hlist (l := d.typeParameters) .typeParameter (by decide) rfl]
  | param d => rfl
  | typeParam d => rfl
  | reference t => rfl
  | document d => rfl

theorem filterSlots_true (v : Variant) : v.filterSlots (fun _ => true) = v := by
  have hlist (l : List ReflectionId) : l.filter (fun _ => true) = l :=
    List.filter_eq_self.mpr fun _ _ => rfl
  have hopt (o : Option ReflectionId) : o.filter (fun _ => true) = o := by cases o <;> rfl
  cases v <;> simp only [filterSlots, hlist, hopt]

theorem clear_congr {g h : ReflectionId → Bool} {t : Ty} (hgh : ∀ c ∈ t.declarations, g c = h c) :
    t.clear g = t.clear h := by
  have hany : t.declarations.any g = t.declarations.any h := by
    rw [Bool.eq_iff_iff]
    simp only [List.any_eq_true]
    exact ⟨fun ⟨x, hx, hg⟩ => ⟨x, hx, hgh x hx ▸ hg⟩, fun ⟨x, hx, hh⟩ => ⟨x, hx, (hgh x hx).symm ▸ hh⟩⟩
  rw [Ty.clear, Ty.clear, hany]

/-- Only what stands in a slot counts as gone. -/
theorem prune_congr {g h : ReflectionId → Bool} (hgh : ∀ role, ∀ c ∈ v.slot role, g c = h c) :
    v.prune g = v.prune h := by
  have htypes : v.mapTypes (Ty.clear g) = v.mapTypes (Ty.clear h) := mapTypes_congr fun t ht =>
    clear_congr fun c hc => hgh .typeLiteral c
      (by rw [literals_eq_slot]; exact mem_literals.mpr ⟨t, ht, hc⟩)
  rw [prune, prune, htypes]
  refine filterSlots_congr fun role hr c hc => ?_
  rw [hgh role c (slot_mapTypes hr _ ▸ hc)]

/-- Nothing changes when nothing that is gone stands in a slot. -/
theorem prune_of_not_mem (h : ∀ role, ∀ c ∈ v.slot role, gone c = false) : v.prune gone = v := by
  rw [prune_congr (h := fun _ => false) h, prune, mapTypes_congr (g := id), mapTypes_id]
  · exact filterSlots_true v
  · intro t _
    simp [Ty.clear]

/-! ### Vacating the slot of one child -/

theorem types_vacate (h : role ≠ .typeLiteral) : (v.vacate c role).types = v.types := by
  cases role
  case typeLiteral => exact absurd rfl h
  all_goals cases v <;> rfl

theorem frame_vacate : (v.vacate c role).frame = v.frame.vacate c role := by
  cases role <;> cases v <;> rfl

theorem tag_vacate : (v.vacate c role).tag = v.tag := by
  cases role <;> cases v <;> rfl

/-- Taking a child out of the only slot in which it stands takes it out everywhere. -/
theorem vacate_eq_prune (h : ∀ other, c ∈ v.slot other → other = role) :
    v.vacate c role = v.prune fun x => decide (x = c) := by
  have hkeep (other : Role) (ho : other ≠ role) : ∀ x ∈ v.slot other, (!decide (x = c)) = true := by
    intro x hx
    have hne : x ≠ c := fun hxc => ho (h other (hxc ▸ hx))
    simpa using hne
  have hlist {l : List ReflectionId} (other : Role) (ho : other ≠ role) (hl : v.slot other = l) :
      l.filter (fun x => !decide (x = c)) = l :=
    List.filter_eq_self.mpr (hl ▸ hkeep other ho)
  have hopt {o : Option ReflectionId} (other : Role) (ho : other ≠ role)
      (hl : v.slot other = o.toList) : o.filter (fun x => !decide (x = c)) = o := by
    cases o with
    | none => rfl
    | some x => rw [Option.filter_some, if_pos (hkeep other ho x (by rw [hl]; simp))]
  by_cases hr : role = .typeLiteral
  · subst hr
    have hclear : (fun t : Ty => if c ∈ t.declarations then Ty.object else t) =
        Ty.clear fun x => decide (x = c) := by
      funext t
      simp [Ty.clear]
    have hvacate : v.vacate c .typeLiteral = v.mapTypes (Ty.clear fun x => decide (x = c)) := by
      rw [← hclear]
      cases v <;> rfl
    rw [hvacate, prune]
    refine ((filterSlots_congr (g := fun _ => true) fun other ho x hx => ?_).trans
      (filterSlots_true _)).symm
    exact hkeep other ho x (slot_mapTypes ho _ ▸ hx)
  · -- Without a type that mentions the child, only the slots are left to compare.
    have htypes : v.mapTypes (Ty.clear fun x => decide (x = c)) = v := by
      refine (mapTypes_congr (g := id) fun t ht => clear_of_not_mem fun x hx => ?_).trans
        (mapTypes_id v)
      have hmem : x ∈ v.slot .typeLiteral := by
        rw [literals_eq_slot]
        exact mem_literals.mpr ⟨t, ht, hx⟩
      simpa using hkeep .typeLiteral (Ne.symm hr) x hmem
    rw [prune, htypes]
    cases v with
    | project d =>
      have hchildren := fun h => hlist (l := d.container.children) .children h rfl
      have hdocuments := fun h => hlist (l := d.container.documents) .documents h rfl
      cases role <;> first
        | exact absurd rfl hr
        | simp [vacate, filterSlots, hchildren, hdocuments]
    | declaration d =>
      have hchildren := fun h => hlist (l := d.container.children) .children h rfl
      have hdocuments := fun h => hlist (l := d.container.documents) .documents h rfl
      have hparameters := fun h => hlist (l := d.typeParameters) .typeParameter h rfl
      have hsignatures := fun h => hlist (l := d.signatures) .signatures h rfl
      have hindex := fun h => hlist (l := d.indexSignatures) .indexSignature h rfl
      have hget := fun h => hopt (o := d.getSignature) .getSignature h rfl
      have hset := fun h => hopt (o := d.setSignature) .setSignature h rfl
      cases role <;> first
        | exact absurd rfl hr
        | simp [vacate, filterSlots, hchildren, hdocuments, hparameters, hsignatures, hindex, hget,
            hset]
    | signature d =>
      have hparameters := fun h => hlist (l := d.parameters) .parameters h rfl
      have htypeParameters := fun h => hlist (l := d.typeParameters) .typeParameter h rfl
      cases role <;> first
        | exact absurd rfl hr
        | simp [vacate, filterSlots, hparameters, htypeParameters]
    | param d => cases role <;> first | rfl | exact absurd rfl hr
    | typeParam d => cases role <;> first | rfl | exact absurd rfl hr
    | reference t => cases role <;> rfl
    | document d => cases role <;> rfl

/-! ### Attaching a child, setting the main type -/

theorem tag_attach? (h : v.attach? c role = some w) : w.tag = v.tag := by
  cases v <;> cases role <;> cases h <;> rfl

/-- What stands in a slot after a child was attached stood there before or is the child. -/
theorem mem_slot_attach? (h : v.attach? c role = some w) {other : Role} {x : ReflectionId}
    (hx : x ∈ w.slot other) : x ∈ v.slot other ∨ (x = c ∧ other = role) := by
  by_cases ho : other = role
  · subst ho
    cases v <;> cases other <;> cases h <;> simp_all [slot, literals, types]
  · refine .inl ?_
    cases v <;> cases role <;> cases h <;> cases other <;> first | exact hx | exact absurd rfl ho

theorem tag_setMainType? {type : Option Ty} (h : v.setMainType? type = some w) :
    w.tag = v.tag := by
  cases v <;> cases h <;> rfl

theorem slot_setMainType? {type : Option Ty} (h : v.setMainType? type = some w)
    (hr : role ≠ .typeLiteral) : w.slot role = v.slot role := by
  cases role
  case typeLiteral => exact absurd rfl hr
  all_goals cases v <;> cases h <;> rfl

/-- Every stored type but the main one. -/
def otherTypes : Variant → List Ty
  | .declaration d =>
    d.overwrites.toList ++ (d.inheritedFrom.toList ++ (d.implementationOf.toList ++
      (d.extendedTypes ++ (d.extendedBy ++ (d.implementedTypes ++ d.implementedBy)))))
  | .signature d => d.overwrites.toList ++ (d.inheritedFrom.toList ++ d.implementationOf.toList)
  | .typeParam d => d.default.toList
  | _ => []

theorem types_eq (v : Variant) : v.types = v.mainType?.toList ++ v.otherTypes := by
  cases v <;> simp only [types, mainType?, otherTypes, List.append_assoc, List.append_nil,
    Option.toList_none]

theorem types_setMainType? {type : Option Ty} (h : v.setMainType? type = some w) :
    w.types = type.toList ++ v.otherTypes := by
  cases v <;> cases h <;> simp only [types, otherTypes, List.append_assoc, List.append_nil]

end Variant

/-- The reflections in the slots of a reflection. -/
def Reflection.childIds (r : Reflection) : List ReflectionId := r.structuralChildren.map (·.1)

/-! ### Detaching a child from a reflection -/

namespace Reflection

variable {r s : Reflection} {c : ReflectionId} {role : Role}

theorem frame_detach : (r.detach c role).variant.frame = (r.variant.vacate c role).frame := by
  rw [detach, mapContainer]
  cases hv : r.variant.vacate c role <;> rfl

theorem tag_mapContainer (f : Container → Container) : (r.mapContainer f).tag = r.tag := by
  rw [tag, tag, mapContainer]
  split <;> rename_i d hd
  · rw [hd]
    rfl
  · rw [hd]
    rfl
  · rfl

theorem mapContainer_eq (f : Container → Container) :
    r.mapContainer f = { r with variant := (r.mapContainer f).variant } := by
  rw [mapContainer]
  split <;> rfl

theorem tag_detach : (r.detach c role).tag = r.tag := by
  rw [detach, tag_mapContainer]
  exact Variant.tag_vacate

theorem outline_detach : (r.detach c role).outline = r.outline := by
  have heq : r.detach c role = { r with variant := (r.detach c role).variant } := mapContainer_eq _
  rw [heq]
  exact outline_mk _ tag_detach

theorem literals_detach (h : role ≠ .typeLiteral) : (r.detach c role).literals = r.literals := by
  rw [literals, literals, Variant.literals_of_frame frame_detach, Variant.literals,
    Variant.types_vacate h]
  rfl

end Reflection

end DocTree
