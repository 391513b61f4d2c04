import DocTree.Proofs.RoundTrip.Lasting

/-!
Reflections that writing and reading do not change. What is read at the place of a reflection that
lasts is the reflection itself under the new numbers, with every reference looked up and without what
is not written.
-/

namespace DocTree

/-- What is written of a reflection: its references are looked up, and what extensions and pages keep in
it is left out. -/
def Project.portrait (p : Project) (r : Reflection) : Reflection :=
  { (r.mapTypes p.resolvedTy).mapTarget fun _ => .fixed (p.targetOf? r.id) with
    ownDocument := (Copying.bare r).ownDocument
    pluginData := []
    anchor := none
    anchorCounts := [] }

/-- In the variant of a portrait the types and the target are looked up. -/
theorem Project.variant_portrait (p : Project) (r : Reflection) : (p.portrait r).variant =
    match r.variant with
    | .reference _ => .reference (.fixed (p.targetOf? r.id))
    | v => v.mapTypes p.resolvedTy := by
  obtain ⟨id, name, kind, flags, comment, parent, own, data, anchor, counts, variant⟩ := r
  cases variant <;> rfl

/-- A reflection without the children that are not registered. -/
def Project.pruned (p : Project) (r : Reflection) : Reflection :=
  { r with variant := r.variant.filterSlots p.contains }

namespace Project

variable {p : Project} {root : String} {r : Reflection}

/-- All that stands in the slots is then registered. -/
theorem contains_of_mem_pruned (h : ∀ x ∈ r.literals, p.contains x = true) :
    ∀ x ∈ (p.pruned r).childIds, p.contains x = true := by
  intro x hx
  obtain ⟨role, hx⟩ := Variant.mem_childIds.mp hx
  change x ∈ (r.variant.filterSlots p.contains).slot role at hx
  by_cases hrole : role = .typeLiteral
  · rw [hrole, Variant.literals_eq_slot, Variant.literals, Variant.types_filterSlots] at hx
    exact h x hx
  · rw [Variant.slot_filterSlots hrole] at hx
    exact (List.mem_filter.mp hx).2

/-- Where all that stands in the slots is registered, nothing is left out. -/
theorem pruned_of_contains (h : ∀ x ∈ r.childIds, p.contains x = true) : p.pruned r = r := by
  have hsame : r.variant.filterSlots p.contains = r.variant.filterSlots fun _ => true :=
    Variant.filterSlots_congr fun role _ x hx => h x (Variant.mem_childIds.mpr ⟨role, hx⟩)
  rw [pruned, hsame, Variant.filterSlots_true]

theorem bare_pruned (p : Project) (r : Reflection) :
    Copying.bare (p.pruned r) = Copying.bare r := by
  rw [Copying.bare, Copying.bare, pruned]
  cases hv : r.variant <;> rfl

theorem Lasting.pruned (h : p.Lasting root r) : p.Lasting root (p.pruned r) where
  flags := h.flags
  kind := by
    rw [bare_pruned]
    exact h.kind
  comment := h.comment
  types := by
    have htypes : (p.pruned r).types = r.types := Variant.types_filterSlots _ _
    rw [htypes]
    exact h.types
  texts := by
    have htexts : (p.pruned r).variant.parts = r.variant.parts := by
      rw [Project.pruned]
      cases r.variant <;> rfl
    rw [htexts]
    exact h.texts
  container k hk := by
    rw [Reflection.container?, Project.pruned] at hk
    have hcontainer := h.container
    rw [Reflection.container?] at hcontainer
    cases hv : r.variant with
    | project d | declaration d =>
      rw [hv] at hk hcontainer
      obtain rfl := Option.some.inj hk
      obtain ⟨hgrouped, hgroups, hcategorized, hcategories⟩ := hcontainer _ rfl
      exact ⟨hgrouped, hgroups, hcategorized, hcategories⟩
    | _ => rw [hv] at hk; cases hk
  sources := by
    have hsources : (p.pruned r).sources = r.sources := by
      rw [Reflection.sources, Reflection.sources, Project.pruned]
      cases r.variant <;> rfl
    rw [hsources]
    exact h.sources

end Project

namespace Copying

variable {c : Copying} {v : Revival} {μ : Renaming} {b : Nat}

/-! ### Slots and types -/

theorem slot_lasting {ids : List ReflectionId} (hids : ∀ x ∈ ids, c.project.contains x = true)
    (hruns : c.Runs μ b (c.live ids)) : c.run b (c.live ids) = ids.map μ.number := by
  rw [hruns, live_of_contains hids]

theorem single_lasting {o : Option ReflectionId} (ho : ∀ x ∈ o, c.project.contains x = true)
    (hruns : c.Runs μ b (c.live o.toList)) :
    (c.run b (c.live o.toList)).getLast? = o.map μ.number := by
  rw [slot_lasting (fun x hx => ho x (Option.mem_toList.mp hx)) hruns]
  cases o <;> rfl

theorem types_lasting (hleg : c.Legible) (h : c.Follows v μ) {ts : List Ty}
    (hts : ∀ t ∈ ts, c.project.LastingTy c.root t) (hruns : c.Runs μ b (ts.flatMap Ty.declarations)) :
    (c.tyList b ts).map (Reader.newType v) = (ts.map c.project.resolvedTy).map μ.ty := by
  rw [List.map_map]
  exact tyList_lasting (fun t ht b => ty_lasting hleg h t b (hts t ht)) b hruns

theorem type_lasting (hleg : c.Legible) (h : c.Follows v μ) {o : Option Ty}
    (ho : ∀ t ∈ o, c.project.LastingTy c.root t)
    (hruns : c.Runs μ b (o.toList.flatMap Ty.declarations)) :
    (c.tyOption b o).map (Reader.newType v) = (o.map c.project.resolvedTy).map μ.ty := by
  cases o with
  | none => rfl
  | some t =>
    rw [Option.toList_some, List.flatMap_singleton] at hruns
    exact congrArg some (ty_lasting hleg h t b (ho t rfl) hruns)

theorem sources_lasting {ss : List Source} (h : ∀ s ∈ ss, s.reread c.root = s) : c.sources ss = ss :=
  Ty.map_of_id h

/-! ### Reflections -/

variable {r : Reflection} {s : Spot}

/-- The variant of an image: with new numbers, grouped and directed. -/
def endVariant (c : Copying) (v : Revival) (b : Nat) (r : Reflection) : Variant :=
  match ((c.variant b r.variant).mapTypes (Reader.newType v)).mapParts (Reader.newPart v) with
  | .project d => .project { d with container := c.regrouped v r d.container }
  | .declaration d => .declaration { d with container := c.regrouped v r d.container }
  | .reference _ => .reference (.fixed ((c.project.targetOf? r.id).bind v.id?))
  | w => w

theorem image_eq (hs : c.project.get? s.source = some r) : c.image v s =
    ⟨s.number, r.name, (bare r).kind, r.flags.reread,
      (c.comment? r.comment).map (·.mapParts (Reader.newPart v)), s.owner, (bare r).ownDocument, [],
      none, [], c.endVariant v (s.number + 1) r⟩ := by
  rw [image, draft, hs, endVariant]
  cases hv : r.variant <;>
    simp [filled, bare, Reflection.renewed, Reflection.mapTypes, Reflection.mapParts_eq, hv, variant,
      Variant.mapTypes, Variant.mapParts, Reflection.mapContainer, Reflection.mapTarget,
      Reflection.project, Reflection.declaration, Reflection.signature, Reflection.parameter,
      Reflection.typeParameter, Reflection.reference, Reflection.document, Reflection.ofVariant]

/-- What lasts of a container keeps its children and how they are grouped. -/
theorem container_lasting (h : c.Follows v μ) {k : Container} (hk : r.container? = some k)
    (hlast : c.project.LastingContainer c.root k)
    (hchildren : ∀ x ∈ k.children, c.project.contains x = true)
    (hdocuments : ∀ x ∈ k.documents, c.project.contains x = true)
    (hruns : c.Runs μ b (c.live k.children ++ c.live k.documents)) :
    c.regrouped v r (c.container b k) = μ.container k := by
  obtain ⟨hfirst, hsecond⟩ := runs_append.mp hruns
  rw [regrouped, container, hk, Option.bind_some, Option.bind_some,
    groups_lasting h hlast.grouped hlast.groups,
    categories_lasting h hlast.categorized hlast.categories, slot_lasting hchildren hfirst,
    slot_lasting hdocuments hsecond]
  rfl

section Variants

variable (hleg : c.Legible) (h : c.Follows v μ) (hr : c.project.Lasting c.root r)

include hleg h hr

/-- A type of a reflection that lasts. -/
theorem typeOf_lasting {o : Option Ty} (hsub : ∀ t ∈ o, t ∈ r.variant.types)
    (hruns : c.Runs μ b (o.toList.flatMap Ty.declarations)) :
    (c.tyOption b o).map (Reader.newType v) = (o.map c.project.resolvedTy).map μ.ty :=
  type_lasting hleg h (fun t ht => hr.types t (hsub t ht)) hruns

/-- Types of a reflection that lasts. -/
theorem typesOf_lasting {ts : List Ty} (hsub : ∀ t ∈ ts, t ∈ r.variant.types)
    (hruns : c.Runs μ b (ts.flatMap Ty.declarations)) :
    (c.tyList b ts).map (Reader.newType v) = (ts.map c.project.resolvedTy).map μ.ty :=
  types_lasting hleg h (fun t ht => hr.types t (hsub t ht)) hruns

theorem signature_lasting {d : Signature} (hv : r.variant = .signature d)
    (hall : ∀ x ∈ (Variant.signature d).slots.flatMap (·.2), c.project.contains x = true)
    (hruns : c.Runs μ b (c.inOrder (.signature d))) :
    c.endVariant v b r = μ.variant (c.project.portrait r).variant := by
  have hsources : ∀ s ∈ d.sources, s.reread c.root = s := by
    have hsources := hr.sources
    rwa [Reflection.sources, hv] at hsources
  have htype : ∀ {o b}, (∀ t ∈ o, t ∈ (Variant.signature d).types) →
      c.Runs μ b (o.toList.flatMap Ty.declarations) →
      (c.tyOption b o).map (Reader.newType v) = (o.map c.project.resolvedTy).map μ.ty :=
    fun hsub => typeOf_lasting hleg h hr (hv ▸ hsub)
  have hslot : ∀ {l b}, (∀ x ∈ l, x ∈ (Variant.signature d).slots.flatMap (·.2)) →
      c.Runs μ b (c.live l) → c.run b (c.live l) = l.map μ.number :=
    fun hsub => slot_lasting fun x hx => hall x (hsub x hx)
  simp only [inOrder, runs_append, total_append, ← Nat.add_assoc] at hruns
  obtain ⟨⟨⟨⟨⟨hr₁, hr₂⟩, hr₃⟩, hr₄⟩, hr₅⟩, hr₆⟩ := hruns
  have h₁ := hslot (l := d.typeParameters) (by simp +contextual [Variant.slots]) hr₁
  have h₂ := hslot (l := d.parameters) (by simp +contextual [Variant.slots]) hr₂
  have h₃ := htype (o := d.type) (by simp +contextual [Variant.types]) hr₃
  have h₄ := htype (o := d.overwrites) (by simp +contextual [Variant.types]) hr₄
  have h₅ := htype (o := d.inheritedFrom) (by simp +contextual [Variant.types]) hr₅
  have h₆ := htype (o := d.implementationOf) (by simp +contextual [Variant.types]) hr₆
  rw [endVariant, Project.variant_portrait, hv]
  simp only [variant, signature, Variant.mapTypes, Variant.mapParts, owned, sources_lasting hsources,
    h₁, h₂, h₃, h₄, h₅, h₆, Renaming.variant, Renaming.slots]

theorem declaration_lasting {d : Declaration} (hv : r.variant = .declaration d)
    (hall : ∀ x ∈ (Variant.declaration d).slots.flatMap (·.2), c.project.contains x = true)
    (hruns : c.Runs μ b (c.inOrder (.declaration d))) :
    c.endVariant v b r = μ.variant (c.project.portrait r).variant := by
  have hsources : ∀ s ∈ d.sources, s.reread c.root = s := by
    have hsources := hr.sources
    rwa [Reflection.sources, hv] at hsources
  have htexts := hr.texts
  rw [hv] at htexts
  have hk : r.container? = some d.container := by rw [Reflection.container?, hv]
  have htype : ∀ {o b}, (∀ t ∈ o, t ∈ (Variant.declaration d).types) →
      c.Runs μ b (o.toList.flatMap Ty.declarations) →
      (c.tyOption b o).map (Reader.newType v) = (o.map c.project.resolvedTy).map μ.ty :=
    fun hsub => typeOf_lasting hleg h hr (hv ▸ hsub)
  have htypes : ∀ {l b}, (∀ t ∈ l, t ∈ (Variant.declaration d).types) →
      c.Runs μ b (l.flatMap Ty.declarations) →
      (c.tyList b l).map (Reader.newType v) = (l.map c.project.resolvedTy).map μ.ty :=
    fun hsub => typesOf_lasting hleg h hr (hv ▸ hsub)
  have hslot : ∀ {l b}, (∀ x ∈ l, x ∈ (Variant.declaration d).slots.flatMap (·.2)) →
      c.Runs μ b (c.live l) → c.run b (c.live l) = l.map μ.number :=
    fun hsub => slot_lasting fun x hx => hall x (hsub x hx)
  simp only [inOrder, runs_append, total_append, ← Nat.add_assoc] at hruns
  obtain ⟨⟨⟨⟨⟨⟨⟨⟨⟨⟨⟨⟨⟨⟨hr₁, hr₂⟩, hr₃⟩, hr₄⟩, hr₅⟩, hr₆⟩, hr₇⟩, hr₈⟩, hr₉⟩, hr₁₀⟩, hr₁₁⟩, hr₁₂⟩,
    hr₁₃⟩, hr₁₄⟩, hr₁₅⟩ := hruns
  have h₁ := container_lasting h hk (hr.container _ hk)
    (fun x hx => hall x (by simp [Variant.slots, hx])) (fun x hx => hall x (by simp [Variant.slots, hx]))
    (runs_append.mpr ⟨hr₁, hr₂⟩)
  have h₃ := hslot (l := d.typeParameters) (by simp +contextual [Variant.slots]) hr₃
  have h₄ := htype (o := d.type) (by simp +contextual [Variant.types]) hr₄
  have h₅ := hslot (l := d.signatures) (by simp +contextual [Variant.slots]) hr₅
  have h₆ := hslot (l := d.indexSignatures) (by simp +contextual [Variant.slots]) hr₆
  have h₇ := single_lasting (o := d.getSignature)
    (fun x hx => hall x (by simp [Variant.slots, Option.mem_def.mp hx])) hr₇
  have h₈ := single_lasting (o := d.setSignature)
    (fun x hx => hall x (by simp [Variant.slots, Option.mem_def.mp hx])) hr₈
  have h₉ := htype (o := d.overwrites) (by simp +contextual [Variant.types]) hr₉
  have h₁₀ := htype (o := d.inheritedFrom) (by simp +contextual [Variant.types]) hr₁₀
  have h₁₁ := htype (o := d.implementationOf) (by simp +contextual [Variant.types]) hr₁₁
  have h₁₂ := htypes (l := d.extendedTypes) (by simp +contextual [Variant.types]) hr₁₂
  have h₁₃ := htypes (l := d.extendedBy) (by simp +contextual [Variant.types]) hr₁₃
  have h₁₄ := htypes (l := d.implementedTypes) (by simp +contextual [Variant.types]) hr₁₄
  have h₁₅ := htypes (l := d.implementedBy) (by simp +contextual [Variant.types]) hr₁₅
  have hreadme := description_lasting h htexts
  rw [endVariant, Project.variant_portrait, hv]
  simp only [variant, declaration, Variant.mapTypes, Variant.mapParts, owned,
    sources_lasting hsources, h₁, h₃, h₄, h₅, h₆, h₇, h₈, h₉, h₁₀, h₁₁, h₁₂, h₁₃, h₁₄, h₁₅, hreadme,
    Renaming.variant, Renaming.slots]

/-- The variant of a reflection that lasts is renamed. -/
theorem variant_lasting (hids : ∀ x ∈ r.childIds, c.project.contains x = true)
    (hruns : c.Runs μ b (c.inOrder r.variant)) :
    c.endVariant v b r = μ.variant (c.project.portrait r).variant := by
  have hall : ∀ x ∈ r.variant.slots.flatMap (·.2), c.project.contains x = true := by
    rwa [← Variant.childIds_eq]
  have htype : ∀ {o b}, (∀ t ∈ o, t ∈ r.variant.types) → c.Runs μ b (o.toList.flatMap Ty.declarations) →
      (c.tyOption b o).map (Reader.newType v) = (o.map c.project.resolvedTy).map μ.ty :=
    typeOf_lasting hleg h hr
  have htexts := hr.texts
  cases hv : r.variant with
  | signature d =>
    rw [hv] at hruns hall
    exact signature_lasting hleg h hr hv hall hruns
  | declaration d =>
    rw [hv] at hruns hall
    exact declaration_lasting hleg h hr hv hall hruns
  | param d =>
    rw [hv] at htype hruns
    have ht := htype (o := d.type) (by simp [Variant.types]) hruns
    simp only [endVariant, Project.variant_portrait, hv, variant, Variant.mapTypes, Variant.mapParts,
      ht, Renaming.variant, Renaming.slots]
  | typeParam d =>
    rw [hv] at htype hruns
    obtain ⟨hfirst, hsecond⟩ := runs_append.mp hruns
    have ht := htype (o := d.type) (by simp +contextual [Variant.types]) hfirst
    have hdefault := htype (o := d.default) (by simp +contextual [Variant.types]) hsecond
    simp only [endVariant, Project.variant_portrait, hv, variant, Variant.mapTypes, Variant.mapParts,
      owned, ht, hdefault, Renaming.variant, Renaming.slots]
  | document d =>
    rw [hv] at htexts
    have hcontent := parts_lasting h htexts
    simp only [Variant.parts] at hcontent
    simp only [endVariant, Project.variant_portrait, hv, variant, Variant.mapTypes, Variant.mapParts,
      hcontent, Renaming.variant, Renaming.slots]
  | reference t =>
    have ht : (c.project.targetOf? r.id).bind v.id? = (c.project.targetOf? r.id).map μ.number := by
      cases ht : c.project.targetOf? r.id with
      | none => rfl
      | some t => exact h.ids t (Option.filter_eq_some_iff.mp ht).2
    simp only [endVariant, Project.variant_portrait, hv, variant, Variant.mapTypes, Variant.mapParts,
      ht, Renaming.variant, Renaming.slots, Renaming.target]
  | project d =>
    rw [hv] at htexts hruns hall
    have hk : r.container? = some d.container := by rw [Reflection.container?, hv]
    have hcontained := container_lasting h hk (hr.container _ hk)
      (fun x hx => hall x (by simp [Variant.slots, hx])) (fun x hx => hall x (by simp [Variant.slots, hx]))
      hruns
    have hreadme := description_lasting h htexts
    simp only [endVariant, Project.variant_portrait, hv, variant, Variant.mapTypes, Variant.mapParts,
      hcontained, hreadme, Renaming.variant, Renaming.slots]

end Variants

/-! ### Places -/

/-- What is not registered is not read either. -/
theorem live_filter (ids : List ReflectionId) : c.live (ids.filter c.project.contains) = c.live ids :=
  live_of_contains fun _ hx => (List.mem_filter.mp hx).2

theorem live_toList_filter (o : Option ReflectionId) :
    c.live (o.filter c.project.contains).toList = c.live o.toList := by
  cases o with
  | none => rfl
  | some x => by_cases hx : c.project.contains x = true <;> simp [live, Option.filter, hx]

theorem inOrder_pruned (r : Reflection) :
    c.inOrder (c.project.pruned r).variant = c.inOrder r.variant := by
  rw [Project.pruned]
  cases r.variant <;> simp only [Variant.filterSlots, inOrder, live_filter, live_toList_filter]

theorem endVariant_pruned (b : Nat) (r : Reflection) :
    c.endVariant v b (c.project.pruned r) = c.endVariant v b r := by
  rw [endVariant, endVariant]
  cases hv : r.variant <;>
    simp [Project.pruned, hv, Variant.filterSlots, variant, declaration, signature,
      container, live_filter, live_toList_filter, Variant.mapTypes, Variant.mapParts, regrouped,
      Reflection.container?]

/-- At the place of a reflection that lasts stands the reflection under its new number, with what is
registered in its slots. -/
theorem image_lasting (hleg : c.Legible) (h : c.Follows v μ) (hs : c.project.get? s.source = some r)
    (hr : c.project.Lasting c.root r) (hliterals : ∀ x ∈ r.literals, c.project.contains x = true)
    (hnumber : s.number = μ.number r.id) (hruns : c.Runs μ (s.number + 1) (c.inOrder r.variant)) :
    c.image v s =
      { μ.reflection (c.project.portrait (c.project.pruned r)) with parent := s.owner } := by
  have hvariant := variant_lasting hleg h hr.pruned (Project.contains_of_mem_pruned hliterals)
    (b := s.number + 1) ((inOrder_pruned r).symm ▸ hruns)
  rw [image_eq hs, ← endVariant_pruned, hvariant, comment_lasting h hr.comment, hr.flags, hr.kind,
    hnumber, ← c.project.bare_pruned]
  unfold Project.portrait Reflection.mapTarget
  split <;> rfl

end Copying

end DocTree
