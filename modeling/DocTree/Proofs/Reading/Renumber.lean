import DocTree.Proofs.Reading.Complete
import DocTree.Proofs.Registry.Grouping

/-!
What the second pass does to whatever names a reflection. A target by an old number gets the new number
or leads nowhere, a member of a group gets the new number or is left out, and all else stays. Doing so
twice is doing it once, so it does not matter how often a reflection is looked at again.
-/

namespace DocTree

/-! ### New numbers for old ones -/

/-- The target of a named type, with its new number or broken. -/
def RefTarget.renumbered (ids : List (Nat × ReflectionId)) : RefTarget → RefTarget
  | .pending old => (ids.lookup old).elim .broken .reflection
  | target => target

/-- The target of a link, with its new number or none. -/
def LinkTarget.renumbered? (ids : List (Nat × ReflectionId)) : LinkTarget → Option LinkTarget
  | .pending old => (ids.lookup old).map .reflection
  | target => some target

/-- A text with the target of its link renumbered. -/
def Part.renumbered (ids : List (Nat × ReflectionId)) (p : Part) : Part :=
  p.mapTarget (LinkTarget.renumbered? ids)

def Category.renumbered (ids : List (Nat × ReflectionId)) (k : Category) : Category :=
  { k with
    children := k.children.filterMap (ids.lookup ·)
    description := k.description.map (·.map (Part.renumbered ids)) }

def Group.renumbered (ids : List (Nat × ReflectionId)) (g : Group) : Group :=
  { g with
    children := g.children.filterMap (ids.lookup ·)
    description := g.description.map (·.map (Part.renumbered ids))
    categories := g.categories.map (·.map (Category.renumbered ids)) }

variable {v : Revival} {r : Reflection}

theorem Reader.newRef_eq (v : Revival) : newRef v = RefTarget.renumbered v.ids := by
  funext target
  cases target <;> rfl

theorem Reader.newPart_eq (v : Revival) : newPart v = Part.renumbered v.ids := by
  have hlink : newLink? v = LinkTarget.renumbered? v.ids := by
    funext target
    cases target <;> rfl
  funext p
  rw [newPart, hlink]
  rfl

theorem Reader.newCategory_eq (v : Revival) : newCategory v = Category.renumbered v.ids := by
  funext k
  rw [newCategory, newPart_eq]
  rfl

theorem Reader.newGroup_eq (v : Revival) : newGroup v = Group.renumbered v.ids := by
  funext g
  rw [newGroup, newPart_eq, newCategory_eq]
  rfl

theorem RefTarget.renumbered_renumbered (ids : List (Nat × ReflectionId)) (target : RefTarget) :
    (target.renumbered ids).renumbered ids = target.renumbered ids := by
  cases target with
  | pending old =>
    rw [renumbered]
    cases ids.lookup old <;> rfl
  | _ => rfl

theorem LinkTarget.renumbered?_renumbered? (ids : List (Nat × ReflectionId)) (target : LinkTarget) :
    (target.renumbered? ids).bind (renumbered? ids) = target.renumbered? ids := by
  cases target with
  | pending old =>
    rw [renumbered?]
    cases ids.lookup old <;> rfl
  | _ => rfl

theorem Part.renumbered_renumbered (ids : List (Nat × ReflectionId)) (p : Part) :
    (p.renumbered ids).renumbered ids = p.renumbered ids := by
  cases p with
  | inlineTag tag s target linkText =>
    cases target with
    | none => rfl
    | some target =>
      rw [renumbered, renumbered, mapTarget, mapTarget, Option.bind_some,
        LinkTarget.renumbered?_renumbered?]
  | _ => rfl

/-! ### What a reflection points at -/

/-- The targets of the references in the stored types, those queried included. -/
def Reflection.refTargets (r : Reflection) : List RefTarget :=
  r.types.flatMap fun t => t.references.map fun entry => entry.1.target

/-- The texts in which a reflection may point at others: those of unions in its types, its comment, its
readme or content. -/
def Reflection.ownTexts (r : Reflection) : List Part := r.types.flatMap Ty.parts ++ r.parts

theorem refTargets_mapTypes (v : Revival) (r : Reflection) :
    (r.mapTypes (Reader.newType v)).refTargets = r.refTargets.map (RefTarget.renumbered v.ids) := by
  rw [Reflection.refTargets, Reflection.refTargets, types_mapTypes, List.flatMap_map,
    List.map_flatMap]
  refine congrArg List.flatten (List.map_congr_left ?_)
  intro t _
  have hheads : (Reader.newType v t).references.map (·.1) =
      t.references.map fun entry => { entry.1 with target := Reader.newRef v entry.1.target } :=
    Ty.references_adjust rfl t
  have htargets := congrArg (List.map Ref.target) hheads
  rw [List.map_map, List.map_map, Reader.newRef_eq] at htargets
  rw [List.map_map]
  exact htargets

theorem refTargets_of_types {s : Reflection} (h : s.types = r.types) : s.refTargets = r.refTargets := by
  rw [Reflection.refTargets, Reflection.refTargets, h]

theorem ownTexts_of_eq {s : Reflection} (h : s.types = r.types) (h' : s.parts = r.parts) :
    s.ownTexts = r.ownTexts := by
  rw [Reflection.ownTexts, Reflection.ownTexts, h, h']

theorem ownTexts_renewed (v : Revival) (r : Reflection) :
    (r.renewed v).ownTexts = r.ownTexts.map (Part.renumbered v.ids) := by
  rw [Reflection.ownTexts, Reflection.ownTexts, Reflection.renewed, types_mapParts, types_mapTypes,
    parts_mapParts, parts_mapTypes, Reader.newPart_eq, List.map_append, List.flatMap_map,
    List.map_flatMap]
  refine congrArg (· ++ _) (congrArg List.flatten (List.map_congr_left ?_))
  intro t _
  have hparts : (Reader.newType v t).parts = t.parts.map (Reader.newPart v) := Ty.parts_adjust rfl t
  rw [hparts, Reader.newPart_eq]

theorem refTargets_renewed (v : Revival) (r : Reflection) :
    (r.renewed v).refTargets = r.refTargets.map (RefTarget.renumbered v.ids) := by
  rw [← refTargets_mapTypes]
  exact refTargets_of_types (types_mapParts _ _)

/-! ### Looking at a reflection again -/

/-- Nothing in the types and texts of the reflection waits for a new number. -/
structure Reflection.Renumbered (ids : List (Nat × ReflectionId)) (r : Reflection) : Prop where
  refs : ∀ target ∈ r.refTargets, target.renumbered ids = target
  texts : ∀ p ∈ r.ownTexts, p.renumbered ids = p

theorem renumbered_renewed (v : Revival) (r : Reflection) : (r.renewed v).Renumbered v.ids where
  refs := by
    intro target htarget
    rw [refTargets_renewed] at htarget
    obtain ⟨old, -, rfl⟩ := List.mem_map.mp htarget
    exact old.renumbered_renumbered _
  texts := by
    intro p hp
    rw [ownTexts_renewed] at hp
    obtain ⟨q, -, rfl⟩ := List.mem_map.mp hp
    exact q.renumbered_renumbered _

/-- A piece of work renumbers all targets and texts of a reflection, or leaves them as they are. -/
theorem effect_targets (v : Revival) (d : Deferred) (r : Reflection) :
    d.effect v r = r.renewed v ∨
      (d.effect v r).refTargets = r.refTargets ∧ (d.effect v r).ownTexts = r.ownTexts := by
  cases d with
  | pendingTargets id => exact .inl rfl
  | groupings id groups categories =>
    have htypes := types_mapContainer (fun k => { k with
      groups := groups.map (·.map (Reader.newGroup v))
      categories := categories.map (·.map (Reader.newCategory v)) }) r
    exact .inr ⟨refTargets_of_types htypes, ownTexts_of_eq htypes (parts_mapContainer _ r)⟩
  | target id old =>
    have htypes := types_mapTarget (fun _ => .fixed (v.id? old)) r
    exact .inr ⟨refTargets_of_types htypes, ownTexts_of_eq htypes (parts_mapTarget _ r)⟩
  | projectMaps | extension => exact .inr ⟨rfl, rfl⟩

/-- What the targets and texts of a reflection are renumbered to does not change. -/
theorem renumbered_effect (v : Revival) (d : Deferred) (r : Reflection) :
    (d.effect v r).refTargets.map (RefTarget.renumbered v.ids) =
        r.refTargets.map (RefTarget.renumbered v.ids) ∧
      (d.effect v r).ownTexts.map (Part.renumbered v.ids) =
        r.ownTexts.map (Part.renumbered v.ids) := by
  rcases effect_targets v d r with heq | ⟨hrefs, htexts⟩
  · rw [heq, refTargets_renewed, ownTexts_renewed, List.map_map, List.map_map]
    constructor
    · exact List.map_congr_left fun target _ => target.renumbered_renumbered _
    · exact List.map_congr_left fun p _ => p.renumbered_renumbered _
  · rw [hrefs, htexts]
    exact ⟨rfl, rfl⟩

theorem Reflection.Renumbered.effect (h : r.Renumbered v.ids) (d : Deferred) :
    (d.effect v r).Renumbered v.ids := by
  rcases effect_targets v d r with heq | ⟨hrefs, htexts⟩
  · exact heq ▸ renumbered_renewed v r
  · exact ⟨hrefs ▸ h.refs, htexts ▸ h.texts⟩

/-- If a reflection is looked at again, or needs not to be, all its targets and texts are renumbered. -/
theorem worked_targets (v : Revival) {queue : List Deferred} {i : ReflectionId} {r : Reflection}
    (h : r.Renumbered v.ids ∨ .pendingTargets i ∈ queue) :
    (worked v queue i r).refTargets = r.refTargets.map (RefTarget.renumbered v.ids) ∧
      (worked v queue i r).ownTexts = r.ownTexts.map (Part.renumbered v.ids) := by
  have hnoted : r.Renumbered v.ids ∨ ∃ d ∈ queue.filter (·.isAbout i), ∀ s, d.effect v s = s.renewed v := by
    refine h.imp_right ?_
    intro hmem
    exact ⟨_, List.mem_filter.mpr ⟨hmem, decide_eq_true rfl⟩, fun _ => rfl⟩
  rw [worked]
  generalize queue.filter (·.isAbout i) = works at hnoted
  clear h
  induction works generalizing r with
  | nil =>
    have hr := hnoted.resolve_right (by simp)
    exact ⟨(Ty.map_of_id hr.refs).symm, (Ty.map_of_id hr.texts).symm⟩
  | cons d rest ih =>
    have hnext : (d.effect v r).Renumbered v.ids ∨ ∃ e ∈ rest, ∀ s, e.effect v s = s.renewed v := by
      rcases hnoted with hr | ⟨e, he, heffect⟩
      · exact .inl (hr.effect d)
      · rcases List.mem_cons.mp he with rfl | he
        · exact .inl (heffect r ▸ renumbered_renewed v r)
        · exact .inr ⟨e, he, heffect⟩
    obtain ⟨hrefs, htexts⟩ := ih hnext
    obtain ⟨hrefs', htexts'⟩ := renumbered_effect v d r
    exact ⟨hrefs.trans hrefs', htexts.trans htexts'⟩

/-! ### Groups and references -/

/-- The groups and categories that were put off. -/
def Deferred.grouping? : Deferred → Option (Option (List Group) × Option (List Category))
  | .groupings _ groups categories => some (groups, categories)
  | _ => none

/-- The groups and categories that were put off for a reflection, the last ones if there are several. -/
def putOff (queue : List Deferred) (i : ReflectionId) :
    Option (Option (List Group) × Option (List Category)) :=
  ((queue.filter (·.isAbout i)).filterMap Deferred.grouping?).getLast?

/-- Groups and categories with new numbers. -/
def regrouped (ids : List (Nat × ReflectionId)) (g : Option (List Group) × Option (List Category)) :
    Option (List Group) × Option (List Category) :=
  (g.1.map (·.map (Group.renumbered ids)), g.2.map (·.map (Category.renumbered ids)))

theorem effect_groupings (v : Revival) (d : Deferred) (r : Reflection) :
    (d.effect v r).container?.isSome = r.container?.isSome ∧ (r.container?.isSome = true →
      (d.effect v r).groupings = (d.grouping?.map (regrouped v.ids)).getD r.groupings) := by
  obtain ⟨number, name, kind, flags, comment, parent, own, data, anchor, counts, variant⟩ := r
  cases d with
  | groupings id groups categories =>
    rw [Deferred.effect, Reader.newGroup_eq, Reader.newCategory_eq]
    cases variant with
    | project data | declaration data => exact ⟨rfl, fun _ => rfl⟩
    | _ => exact ⟨rfl, fun h => by cases h⟩
  | _ => cases variant <;> exact ⟨rfl, fun _ => rfl⟩

theorem isSome_container?_foldl (v : Revival) (works : List Deferred) (r : Reflection) :
    (works.foldl (fun s d => d.effect v s) r).container?.isSome = r.container?.isSome := by
  induction works generalizing r with
  | nil => rfl
  | cons d rest ih => exact (ih _).trans (effect_groupings v d r).1

/-- What has groups and categories in the end has those that were put off last. -/
theorem worked_groupings (v : Revival) (queue : List Deferred) (i : ReflectionId) (r : Reflection)
    (h : (worked v queue i r).container?.isSome = true) :
    (worked v queue i r).groupings = ((putOff queue i).map (regrouped v.ids)).getD r.groupings := by
  rw [worked] at h ⊢
  rw [putOff]
  generalize queue.filter (·.isAbout i) = works at h
  induction works generalizing r with
  | nil => rfl
  | cons d rest ih =>
    have hcontainer : r.container?.isSome = true := by
      rw [← (effect_groupings v d r).1, ← isSome_container?_foldl v rest]
      exact h
    refine (ih (d.effect v r) h).trans ?_
    rw [(effect_groupings v d r).2 hcontainer, List.filterMap_cons]
    cases d.grouping? with
    | none => rfl
    | some g =>
      change _ = Option.getD (Option.map _ (List.getLast? (g :: _))) _
      rw [List.getLast?_cons]
      cases (rest.filterMap Deferred.grouping?).getLast? <;> rfl

theorem effect_target (v : Revival) (d : Deferred) (r : Reflection) {target : ReferenceTarget}
    (h : (d.effect v r).target? = some target) :
    r.target? = some target ∨ ∃ old, target = .fixed (v.id? old) := by
  obtain ⟨number, name, kind, flags, comment, parent, own, data, anchor, counts, variant⟩ := r
  cases d with
  | target id old =>
    cases variant with
    | reference before => exact .inr ⟨old, (Option.some.inj h).symm⟩
    | _ => cases h
  | _ => cases variant <;> exact .inl h

/-- A reference leads where it led before, or to a new number. -/
theorem worked_target (v : Revival) (queue : List Deferred) (i : ReflectionId) (r : Reflection)
    {target : ReferenceTarget} (h : (worked v queue i r).target? = some target) :
    r.target? = some target ∨ ∃ old, target = .fixed (v.id? old) := by
  rw [worked] at h
  generalize queue.filter (·.isAbout i) = works at h
  induction works generalizing r with
  | nil => exact .inl h
  | cons d rest ih =>
    rcases ih (d.effect v r) h with hbefore | hnew
    · exact effect_target v d r hbefore
    · exact .inr hnew

end DocTree
