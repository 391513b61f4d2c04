import DocTree.Proofs.Reading.Renumber

/-!
The second pass in another place. If the old numbers lead to moved new numbers, the works of a moved
queue do to a moved reflection what the works of the queue do to the reflection, moved. The same holds
for a project that is read as a module: the works do not tell the two apart.
-/

namespace DocTree

namespace Renaming

variable (μ : Renaming) {v v' : Revival}

/-! ### Texts and types -/

/-- Two changes agree on a moved type if they agree on what is moved in it. -/
theorem adjust_moved {f f' : Ty.Change} (href : ∀ head, f'.ref (μ.ref head) = μ.ref (f.ref head))
    (hpart : ∀ p, f'.part (μ.part p) = μ.part (f.part p)) (hname : f'.intrinsic = f.intrinsic)
    (hin : f.inQueries = true) (hin' : f'.inQueries = true) (t : Ty) :
    (μ.ty t).adjust f' = μ.ty (t.adjust f) := by
  have hlists : ∀ lists : List (List Part), (lists.map (·.map μ.part)).map (·.map f'.part) =
      (lists.map (·.map f.part)).map (·.map μ.part) := by
    intro lists
    simp only [List.map_map]
    refine List.map_congr_left fun ps _ => ?_
    simp only [Function.comp_apply, List.map_map]
    exact List.map_congr_left fun p _ => hpart p
  induction t using Ty.induct with
  | h t ih =>
    have hlist : ∀ xs : List Ty, (∀ a ∈ xs, a ∈ t.children) →
        (xs.map μ.ty).map (Ty.adjust f') = (xs.map (Ty.adjust f)).map μ.ty := by
      intro xs hxs
      rw [List.map_map, List.map_map]
      exact List.map_congr_left fun a ha => ih a (hxs a ha)
    cases t with
    | intersection xs | tuple xs =>
      simp only [ty, tyList_eq, Ty.adjust, Ty.adjustList_eq, hlist xs fun _ ha => ha]
    | union xs lists =>
      simp only [ty, tyList_eq, Ty.adjust, Ty.adjustList_eq, hlist xs fun _ ha => ha]
      cases lists with
      | none => rfl
      | some lists => simp only [Option.map_some, hlists]
    | query head args | reference head args =>
      cases args with
      | none => simp only [ty, tyArgs, Ty.adjust, Ty.adjustArgs, href, hin, hin', if_true]
      | some xs =>
        simp only [ty, tyArgs_eq, Ty.adjust, Ty.adjustArgs_eq, Option.map_some, href, hin, hin', if_true,
          hlist xs fun _ ha => ha]
    | templateLiteral head tail =>
      have htail : (tail.map fun entry => ((μ.ty entry.1).adjust f', entry.2)) =
          tail.map fun entry => (μ.ty (entry.1.adjust f), entry.2) :=
        List.map_congr_left fun entry hentry =>
          Prod.ext (ih entry.1 (List.mem_map_of_mem hentry)) rfl
      simp only [ty, tyTail_eq, Ty.adjust, Ty.adjustTail_eq, List.map_map, Function.comp_def, htail]
    | inferred name x | predicate name asserts x =>
      cases x with
      | none => rfl
      | some x => simp only [ty, tyOption, Ty.adjust, Ty.adjustOption, ih x (List.mem_cons_self ..)]
    | mapped parameter x y fixed missing z =>
      cases z <;> simp_all [ty, Ty.adjust, Ty.adjustOption, Ty.children]
    | intrinsic name => simp only [ty, Ty.adjust, hname]
    | literal | reflection | unknown => rfl
    | _ => simp_all [ty, Ty.adjust, Ty.children]

section Numbers

variable (h : v'.ids = v.ids.map μ.entry)
include h

theorem id?_moved (old : Nat) : v'.id? old = (v.id? old).map μ.number := by
  rw [Revival.id?, Revival.id?, h]
  induction v.ids with
  | nil => rfl
  | cons entry rest ih =>
    obtain ⟨key, id⟩ := entry
    rw [List.map_cons, entry, List.lookup_cons, List.lookup_cons, ih]
    cases old == key <;> rfl

theorem newPart_moved (p : Part) : Reader.newPart v' (μ.part p) = μ.part (Reader.newPart v p) := by
  cases p with
  | inlineTag tag s target linkText =>
    cases target with
    | none => rfl
    | some target =>
      cases target with
      | pending old =>
        simp only [part, Option.map_some, link, Reader.newPart, Part.mapTarget, Option.bind_some,
          Reader.newLink?, μ.id?_moved h]
        cases v.id? old <;> rfl
      | _ => rfl
  | _ => rfl

theorem newRef_moved (target : RefTarget) :
    Reader.newRef v' (μ.refTarget target) = μ.refTarget (Reader.newRef v target) := by
  cases target with
  | pending old =>
    simp only [refTarget, Reader.newRef, μ.id?_moved h]
    cases v.id? old <;> rfl
  | _ => rfl

theorem newType_moved (t : Ty) : Reader.newType v' (μ.ty t) = μ.ty (Reader.newType v t) := by
  rw [Reader.newType, Reader.newType]
  refine μ.adjust_moved ?_ ?_ ?_ ?_ ?_ t
  · intro head
    simp only [ref, μ.newRef_moved h]
  · exact μ.newPart_moved h
  all_goals rfl

/-! ### Groups and categories -/

theorem newMembers_moved (olds : List Nat) :
    Reader.newMembers v' olds = (Reader.newMembers v olds).map μ.number := by
  rw [Reader.newMembers, Reader.newMembers, List.map_filterMap, funext (μ.id?_moved h)]

theorem newParts_moved (ps : List Part) :
    (ps.map μ.part).map (Reader.newPart v') = (ps.map (Reader.newPart v)).map μ.part := by
  rw [List.map_map, List.map_map]
  exact List.map_congr_left fun p _ => μ.newPart_moved h p

theorem newDescription_moved (ps : Option (List Part)) :
    (ps.map (·.map μ.part)).map (·.map (Reader.newPart v')) =
      (ps.map (·.map (Reader.newPart v))).map (·.map μ.part) := by
  cases ps with
  | none => rfl
  | some ps => exact congrArg some (μ.newParts_moved h ps)

theorem newCategory_moved (k : Category) :
    Reader.newCategory v' (μ.draftCategory k) = μ.category (Reader.newCategory v k) := by
  simp only [Reader.newCategory, draftCategory, category, μ.newDescription_moved h,
    μ.newMembers_moved h]

theorem newCategories_moved (ks : Option (List Category)) :
    (ks.map (·.map μ.draftCategory)).map (·.map (Reader.newCategory v')) =
      (ks.map (·.map (Reader.newCategory v))).map (·.map μ.category) := by
  cases ks with
  | none => rfl
  | some ks =>
    simp only [Option.map_some, List.map_map]
    exact congrArg some (List.map_congr_left fun k _ => μ.newCategory_moved h k)

theorem newGroup_moved (g : Group) :
    Reader.newGroup v' (μ.draftGroup g) = μ.group (Reader.newGroup v g) := by
  simp only [Reader.newGroup, draftGroup, group, μ.newDescription_moved h, μ.newMembers_moved h,
    μ.newCategories_moved h]

theorem newGroups_moved (gs : Option (List Group)) :
    (gs.map (·.map μ.draftGroup)).map (·.map (Reader.newGroup v')) =
      (gs.map (·.map (Reader.newGroup v))).map (·.map μ.group) := by
  cases gs with
  | none => rfl
  | some gs =>
    simp only [Option.map_some, List.map_map]
    exact congrArg some (List.map_congr_left fun g _ => μ.newGroup_moved h g)

/-! ### Reflections -/

theorem newComment_moved (m : Comment) :
    (μ.comment m).mapParts (Reader.newPart v') = μ.comment (m.mapParts (Reader.newPart v)) := by
  obtain ⟨summary, tags, modifiers, label⟩ := m
  simp only [comment, Comment.mapParts, μ.newParts_moved h, List.map_map, Function.comp_def]

theorem newVariant_moved (w : Variant) :
    ((μ.variant w).mapTypes (Reader.newType v')).mapParts (Reader.newPart v') =
      μ.variant ((w.mapTypes (Reader.newType v)).mapParts (Reader.newPart v)) := by
  have htypes : Reader.newType v' ∘ μ.ty = μ.ty ∘ Reader.newType v := funext (μ.newType_moved h)
  cases w <;> simp only [variant, slots, Variant.mapTypes, Variant.mapParts, μ.newDescription_moved h,
    μ.newParts_moved h, Option.map_map, List.map_map, htypes]

/-- A piece of work about a reflection that has been moved. -/
theorem effect_moved (d : Deferred) (r : Reflection) :
    (μ.work d).effect v' (μ.reflection r) = μ.reflection (d.effect v r) := by
  obtain ⟨id, name, kind, flags, comment, parent, own, data, anchor, counts, variant⟩ := r
  cases d with
  | pendingTargets i =>
    have hvariant := μ.newVariant_moved h variant
    have hcomment : (comment.map μ.comment).map (·.mapParts (Reader.newPart v')) =
        (comment.map (·.mapParts (Reader.newPart v))).map μ.comment := by
      cases comment with
      | none => rfl
      | some m => exact congrArg some (μ.newComment_moved h m)
    simp only [work, Deferred.effect, Reflection.mapTypes, Reflection.mapParts_eq, reflection, hcomment,
      hvariant]
  | groupings i groups categories =>
    simp only [work, Deferred.effect, μ.newGroups_moved h, μ.newCategories_moved h]
    cases variant <;> rfl
  | target i old =>
    simp only [work, Deferred.effect, μ.id?_moved h]
    cases variant <;> rfl
  | projectMaps | extension => rfl

end Numbers

end Renaming

namespace Relocation

variable (μ : Relocation) {v v' : Revival}

theorem isAbout_moved (d : Deferred) (i : Nat) : (μ.work d).isAbout (μ.number i) = d.isAbout i := by
  have hiff : ∀ id : ReflectionId, (some (μ.number id) = some (μ.number i)) ↔ some id = some i := by
    intro id
    rw [Option.some_inj, Option.some_inj, μ.number_inj]
  cases d with
  | pendingTargets id | groupings id groups categories | target id old =>
    exact decide_eq_decide.mpr (hiff id)
  | projectMaps | extension => rfl

/-- What the works of a moved queue make of a moved reflection. -/
theorem worked_moved (h : v'.ids = v.ids.map μ.entry) (queue : List Deferred) (i : Nat)
    (r : Reflection) :
    worked v' (queue.map μ.work) (μ.number i) (μ.reflection r) = μ.reflection (worked v queue i r) := by
  induction queue generalizing r with
  | nil => rfl
  | cons d rest ih =>
    rw [List.map_cons, worked_cons, worked_cons, Deferred.patch, Deferred.patch, isAbout_moved]
    split
    · rw [μ.effect_moved h, ih]
    · exact ih r

end Relocation

/-! ### A project as a module -/

/-- A module that holds what a project holds, the name of its package apart. -/
def Variant.toModule : Variant → Variant
  | .project d => .declaration ⟨d.container, [], none, [], [], [], none, none, none, none, none, none,
      [], [], [], [], d.packageVersion, d.readme⟩
  | v => v

/-- The module that stands for a project in another one, below the root of that one. -/
def Reflection.toModule (r : Reflection) : Reflection :=
  { r with
    kind := .module
    parent := some ReflectionId.project
    ownDocument := false
    variant := r.variant.toModule }

/-- Works do not tell a project from the module that stands for it. -/
theorem effect_toModule (v : Revival) (d : Deferred) (r : Reflection) :
    d.effect v r.toModule = (d.effect v r).toModule := by
  obtain ⟨id, name, kind, flags, comment, parent, own, data, anchor, counts, variant⟩ := r
  cases d with
  | pendingTargets i | groupings i groups categories | target i old => cases variant <;> rfl
  | projectMaps | extension => rfl

theorem worked_toModule (v : Revival) (queue : List Deferred) (i : ReflectionId) (r : Reflection) :
    worked v queue i r.toModule = (worked v queue i r).toModule := by
  rw [worked, worked]
  generalize queue.filter (·.isAbout i) = works
  induction works generalizing r with
  | nil => rfl
  | cons d rest ih => rw [List.foldl_cons, List.foldl_cons, effect_toModule, ih]

end DocTree
