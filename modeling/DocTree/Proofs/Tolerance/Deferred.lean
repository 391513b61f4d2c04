import DocTree.Proofs.Tolerance.Passes

/-!
The second pass does not look at the lists that are passed over. Groupings of nothing, which may have
been put off for one of two projects alone, change nothing that is not passed over: groupings are
carried out once for each reflection, which had none before.
-/

namespace DocTree

open Blur (drop)

variable (b : Blur)

/-! ### New numbers -/

/-- A change of what stands in a list commutes with passing the list over. -/
theorem Blur.drop_comm {α : Type} {f g : α → α} (on : Bool) (h : ∀ x, f (g x) = g (f x))
    (o : Option (List α)) : (drop on (o.map (·.map g))).map (·.map f) =
      drop on ((o.map (·.map f)).map (·.map g)) := by
  rw [← drop_map]
  cases o with
  | none => rfl
  | some xs => simp only [Option.map_some, List.map_map, Function.comp_def, h]

namespace Variant

theorem mapTypes_blur {f : Ty → Ty} (hf : ∀ t, (f t).blur b = f (t.blur b)) (v : Variant) :
    (v.mapTypes f).blur b = (v.blur b).mapTypes f := by
  cases v <;> simp [blur, blurLists, mapTypes, Function.comp_def, hf]

theorem mapParts_blur (f : Part → Part) (v : Variant) :
    (v.mapParts f).blur b = (v.blur b).mapParts f := by
  cases v <;> simp [blur, blurLists, mapTypes, mapParts, Blur.drop_map]

theorem parts_blur (v : Variant) : (v.blur b).parts = v.parts := by
  cases v <;> simp [blur, blurLists, mapTypes, parts]

end Variant

namespace Reader

variable (v : Revival)

theorem missingRefs_blur (t : Ty) : missingRefs v (t.blur b) = missingRefs v t := by
  have heads (t : Ty) : missingRefs v t =
      (missing v ((t.references.map (·.1)).filterMap fun head => oldRef? head.target)).map
        (.missingReflection · .referenceType) := by
    rw [missingRefs, List.filterMap_map]
    rfl
  rw [heads, heads, Ty.references_blur]

theorem categoryIssues_blur (c : Category) : categoryIssues v (c.blur b) = categoryIssues v c := by
  rw [categoryIssues, categoryIssues, Category.blur, Blur.getD_drop]

theorem categoriesIssues_blur (categories : Option (List Category)) :
    ((Category.blur? b categories).getD []).flatMap (categoryIssues v) =
      (categories.getD []).flatMap (categoryIssues v) := by
  rw [Category.blur?, Blur.getD_drop]
  cases categories with
  | none => rfl
  | some cs =>
    rw [Option.map_some, Option.getD_some, Option.getD_some, List.flatMap_map]
    exact congrArg List.flatten (List.map_congr_left fun c _ => categoryIssues_blur b v c)

theorem groupIssues_blur (g : Group) : groupIssues v (g.blur b) = groupIssues v g := by
  have hcategories := categoriesIssues_blur b v g.categories
  rw [Category.blur?] at hcategories
  simp only [groupIssues, Group.blur, Blur.getD_drop] at hcategories ⊢
  rw [hcategories]

theorem newCategory_blur (c : Category) :
    newCategory v (c.blur b) = (newCategory v c).blur b := by
  simp only [newCategory, Category.blur, Blur.drop_map]

theorem newGroup_blur (g : Group) : newGroup v (g.blur b) = (newGroup v g).blur b := by
  have hcategories := Blur.drop_comm b.lists (newCategory_blur b v) g.categories
  have hdescription := Blur.drop_map b.texts (newPart v) g.description
  simp only [newGroup, Group.blur, hcategories, hdescription]

theorem groupsIssues_blur (groups : Option (List Group)) :
    ((Group.blur? b groups).getD []).flatMap (groupIssues v) =
      (groups.getD []).flatMap (groupIssues v) := by
  rw [Group.blur?, Blur.getD_drop]
  cases groups with
  | none => rfl
  | some gs =>
    rw [Option.map_some, Option.getD_some, Option.getD_some, List.flatMap_map]
    exact congrArg List.flatten (List.map_congr_left fun g _ => groupIssues_blur b v g)

theorem newType_blur (t : Ty) : (newType v t).blur b = newType v (t.blur b) := Ty.blur_adjust b _ t

end Reader

/-! ### Single works -/

theorem Revival.expect_blur (v : Revival) (old : Nat) (mention : Mention) :
    (v.blur b).expect old mention = ((v.expect old mention).1.blur b, (v.expect old mention).2) := by
  have hid : (v.blur b).id? old = v.id? old := rfl
  rw [expect, expect, hid]
  cases v.id? old <;> rfl

theorem Revival.project_expect (v : Revival) (old : Nat) (mention : Mention) :
    (v.expect old mention).1.project = v.project := by
  rw [expect]
  cases v.id? old <;> rfl

theorem Project.setTarget_blur (p : Project) (i : ReflectionId) (target : ReferenceTarget) :
    (p.blur b).setTarget i target = (p.setTarget i target).blur b := by
  have hreference : ((p.blur b).get? i).any (·.isReference) = (p.get? i).any (·.isReference) := by
    rw [get?_blur, Option.any_map]
    congr 1
    funext r
    exact Reflection.isReference_of_outline (Reflection.outline_blur b r)
  rw [setTarget, setTarget, hreference]
  split
  · exact (edit_blur b p (fun r => (Reflection.mapTarget_blur b r _).symm) i).symm
  · rfl

namespace Reflection

theorem types_blur (r : Reflection) : (r.blur b).types = r.types.map (Ty.blur b) :=
  Variant.types_blur b r.variant

theorem parts_blur (r : Reflection) : (r.blur b).parts = r.parts := by
  have hparts : (r.blur b).variant.parts = r.variant.parts := Variant.parts_blur b r.variant
  rw [parts_eq, parts_eq, hparts]
  rfl

theorem renewed_blur (v : Revival) (r : Reflection) :
    (r.renewed v).blur b = (r.blur b).renewed v := by
  simp only [renewed, mapParts_eq, mapTypes, blur, Variant.mapParts_blur,
    Variant.mapTypes_blur b (Reader.newType_blur b v)]

/-- The groupings of a reflection in place of those it had. -/
theorem mapContainer_blur (groups : Option (List Group)) (categories : Option (List Category))
    (r : Reflection) :
    (r.mapContainer fun k => { k with groups := groups, categories := categories }).blur b =
      (r.blur b).mapContainer fun k =>
        { k with groups := Group.blur? b groups, categories := Category.blur? b categories } := by
  obtain ⟨id, name, kind, flags, comment, parent, own, data, anchor, counts, variant⟩ := r
  cases variant <;> rfl

end Reflection

namespace Reader

variable (v : Revival)

theorem resolvePending_blur (i : ReflectionId) :
    resolvePending (v.blur b) i = (resolvePending v i).blur b := by
  have hget : (v.blur b).project.get? i = (v.project.get? i).map (Reflection.blur b) :=
    Project.get?_blur b v.project i
  rw [resolvePending, resolvePending, hget]
  cases v.project.get? i with
  | none => rfl
  | some r =>
    have hrefs : (r.blur b).types.flatMap (missingRefs (v.blur b)) = r.types.flatMap (missingRefs v) := by
      rw [Reflection.types_blur, List.flatMap_map]
      exact congrArg List.flatten (List.map_congr_left fun t _ => missingRefs_blur b v t)
    have hparts : (r.blur b).types.flatMap Ty.parts = r.types.flatMap Ty.parts := by
      rw [Reflection.types_blur, List.flatMap_map]
      exact congrArg List.flatten (List.map_congr_left fun t _ => Ty.parts_blur b t)
    have hproject := Project.edit_blur b v.project (Reflection.renewed_blur b v) i
    simp only [Option.map_some, hrefs, hparts, Reflection.parts_blur]
    exact congrArg (fun p => { v with
      project := p
      issues := v.issues ++ (r.types.flatMap (missingRefs v) ++
        missingLinks v (r.types.flatMap Ty.parts ++ r.parts)) }) hproject.symm

theorem setGroupings_blur (i : ReflectionId) (groups : Option (List Group))
    (categories : Option (List Category)) :
    setGroupings (v.blur b) i (Group.blur? b groups) (Category.blur? b categories) =
      (setGroupings v i groups categories).blur b := by
  have hgroups := Blur.drop_comm b.lists (newGroup_blur b v) groups
  have hcategories := Blur.drop_comm b.lists (newCategory_blur b v) categories
  have hproject := Project.edit_blur b v.project (Reflection.mapContainer_blur b
    (groups.map (·.map (newGroup v))) (categories.map (·.map (newCategory v)))) i
  rw [Group.blur?, ← hgroups, Category.blur?, ← hcategories] at hproject
  have hissues := congrArg₂ (· ++ ·) (groupsIssues_blur b v groups) (categoriesIssues_blur b v categories)
  exact congrArg₂ (fun p issues => { v with project := p, issues := v.issues ++ issues })
    hproject.symm hissues

theorem setTarget_blur (i : ReflectionId) (old : Nat) :
    setTarget (v.blur b) i old = (setTarget v i old).blur b := by
  have hexpect : (v.blur b).expect old .referenceReflection =
      ((v.expect old .referenceReflection).1.blur b, (v.expect old .referenceReflection).2) :=
    Revival.expect_blur b v old _
  simp only [setTarget, hexpect]
  exact congrArg (fun p => { (v.expect old .referenceReflection).1 with project := p })
    (Project.setTarget_blur b _ i _)

theorem setSymbol_blur (entry : Nat × Symbol) :
    setSymbol (v.blur b) entry = (setSymbol v entry).blur b := by
  rw [setSymbol, setSymbol, Revival.expect_blur]
  rcases v.expect entry.1 .symbolMap with ⟨r, _ | i⟩ <;> rfl

theorem setOwner_blur (entry : Nat × Nat) :
    setOwner (v.blur b) entry = (setOwner v entry).blur b := by
  have hfile : (v.blur b).fileId? entry.1 = v.fileId? entry.1 := rfl
  rw [setOwner, setOwner, Revival.expect_blur, hfile]
  cases v.fileId? entry.1 with
  | none => rfl
  | some file => rcases v.expect entry.2 .fileTable with ⟨r, _ | i⟩ <;> rfl

theorem maps_blur (symbols : List (Nat × Symbol)) (owners : List (Nat × Nat)) :
    owners.foldl setOwner (symbols.foldl setSymbol (v.blur b)) =
      (owners.foldl setOwner (symbols.foldl setSymbol v)).blur b := by
  rw [List.foldl_hom (Revival.blur b) fun r entry => (setSymbol_blur b r entry),
    List.foldl_hom (Revival.blur b) fun r entry => (setOwner_blur b r entry)]

end Reader

/-! ### Groupings of nothing -/

/-- No groups and no categories. -/
def Reflection.Bare (r : Reflection) : Prop :=
  (r.mapContainer fun k => { k with groups := none, categories := none }) = r

namespace Reflection.Bare

variable {b} {r : Reflection}

theorem of_plain (h : r.variant.Plain) : r.Bare := by
  obtain ⟨id, name, kind, flags, comment, parent, own, data, anchor, counts, variant⟩ := r
  cases variant with
  | project d | declaration d =>
    obtain ⟨hgroups, hcategories⟩ := h
    simp only [Bare, mapContainer, ← hgroups, ← hcategories]
  | _ => rfl

theorem blur (h : r.Bare) : (r.blur b).Bare := by
  have hnone := Reflection.mapContainer_blur b none none r
  rw [Bare] at h ⊢
  rw [h, Group.blur?_none, Category.blur?_none] at hnone
  exact hnone.symm

/-- Work that is no grouping keeps a reflection bare. -/
theorem effect (h : r.Bare) (v : Revival) {d : Deferred} (hd : d.grouped? = none) :
    (d.effect v r).Bare := by
  cases d with
  | groupings i groups categories => cases hd
  | pendingTargets i =>
    have hcomm := Reflection.renewed_mapContainer v
      (fun k => { k with groups := none, categories := none }) r
    rw [Bare] at h ⊢
    rw [h] at hcomm
    exact hcomm.symm
  | target i old =>
    obtain ⟨id, name, kind, flags, comment, parent, own, data, anchor, counts, variant⟩ := r
    cases variant with
    | project d | declaration d => exact h
    | _ => rfl
  | projectMaps | extension => exact h

end Reflection.Bare

namespace Project

variable {p : Project} {i : ReflectionId}

/-- Nothing is changed by a change that leaves the reflection as it is. -/
theorem edit_of_fix {f : Reflection → Reflection} (hf : ∀ r, p.get? i = some r → f r = r)
    (hgraph : p.graph = none) : p.edit i f = p := by
  have hupdate : p.update i f = p := by
    rw [update]
    cases hr : p.get? i with
    | none => rfl
    | some r =>
      have harena : p.arena.setIfInBounds i (some r) = p.arena := by
        refine Array.ext_getElem? fun j => ?_
        rw [Array.getElem?_setIfInBounds]
        split
        case isFalse => rfl
        case isTrue hij =>
          subst hij
          have hplace := hr
          rw [get?] at hplace
          rw [if_pos (lt_size_of_get? hr)]
          exact (Option.join_eq_some_iff.mp hplace).symm
      simp only [hf r hr, put, harena]
  rw [edit, hupdate, forgetGraph, ← hgraph]

end Project

/-! ### The second pass -/

/-- The work that is left in the second pass: it is about reflections, and groupings are set once for
each, which has none before. -/
structure Ready (v : Revival) (queue : List Deferred) : Prop where
  about : ∀ d ∈ queue, d.subject?.isSome = true
  once : (queue.filterMap Deferred.grouped?).Nodup
  bare : ∀ i ∈ queue.filterMap Deferred.grouped?, ∀ r, v.project.get? i = some r → r.Bare
  graph : v.project.graph = none

theorem Deferred.grouped?_eq_some {d : Deferred} {i : ReflectionId} (h : d.grouped? = some i) :
    d.subject? = some i := by
  cases d with
  | groupings j groups categories => exact h
  | _ => cases h

theorem graph_carryOut {v w : Revival} {d : Deferred} (hd : d.subject?.isSome = true)
    (hw : Reader.carryOut v d = .ok w) (h : v.project.graph = none) : w.project.graph = none := by
  cases d with
  | pendingTargets i =>
    obtain rfl := Except.ok.inj hw
    rw [Reader.resolvePending]
    split
    · exact h
    · rfl
  | groupings i groups categories =>
    obtain rfl := Except.ok.inj hw
    rfl
  | target i old =>
    obtain rfl := Except.ok.inj hw
    change ((v.expect old .referenceReflection).1.project.setTarget i _).graph = none
    rw [Revival.project_expect, Project.setTarget]
    split
    · rfl
    · exact h
  | projectMaps | extension => cases hd

namespace Ready

variable {b} {v w : Revival} {d : Deferred} {rest : List Deferred}

theorem once_rest (h : Ready v (d :: rest)) : (rest.filterMap Deferred.grouped?).Nodup ∧
    ∀ i ∈ rest.filterMap Deferred.grouped?, d.grouped? ≠ some i := by
  have honce := h.once
  cases hd : d.grouped? with
  | none =>
    rw [List.filterMap_cons_none hd] at honce
    exact ⟨honce, fun _ _ h => by cases h⟩
  | some j =>
    rw [List.filterMap_cons_some hd, List.nodup_cons] at honce
    refine ⟨honce.2, fun i hi heq => honce.1 ?_⟩
    obtain rfl := Option.some.inj heq
    exact hi

/-- What is left is still ready when one piece of work was carried out. -/
theorem next (h : Ready v (d :: rest)) (hw : Reader.carryOut v d = .ok w) : Ready w rest where
  about e he := h.about e (List.mem_cons_of_mem d he)
  once := h.once_rest.1
  bare i hi r hr := by
    obtain ⟨w', hw', hpatch, -⟩ := carryOut_patched (v := v) (h.about d (List.mem_cons_self ..))
    obtain rfl := Except.ok.inj (hw'.symm.trans hw)
    rw [hpatch.get?] at hr
    obtain ⟨s, hs, rfl⟩ := Option.map_eq_some_iff.mp hr
    have hbare : s.Bare := by
      refine h.bare i ?_ s hs
      rw [List.filterMap_cons]
      cases d.grouped? with
      | none => exact hi
      | some j => exact List.mem_cons_of_mem j hi
    rw [Deferred.patch]
    split
    case isFalse => exact hbare
    case isTrue habout =>
      cases hd : d.grouped? with
      | none => exact hbare.effect v hd
      | some j =>
        have hij : d.subject? = some i := of_decide_eq_true habout
        rw [Deferred.grouped?_eq_some hd] at hij
        exact absurd (hd.trans hij) (h.once_rest.2 i hi)
  graph := graph_carryOut (h.about d (List.mem_cons_self ..)) hw h.graph

/-- Groupings that are passed over do nothing. -/
theorem idle {i : ReflectionId} {groups : Option (List Group)} {categories : Option (List Category)}
    (h : Ready v (.groupings i groups categories :: rest)) (hgroups : Group.blur? b groups = none)
    (hcategories : Category.blur? b categories = none) :
    (Reader.setGroupings v i groups categories).blur b = v.blur b := by
  have hbare (r : Reflection) (hr : (v.blur b).project.get? i = some r) : r.Bare := by
    have hget : (v.project.blur b).get? i = some r := hr
    rw [Project.get?_blur] at hget
    obtain ⟨s, hs, rfl⟩ := Option.map_eq_some_iff.mp hget
    exact (h.bare i (List.mem_cons_self ..) s hs).blur
  have hedit := Project.edit_of_fix (p := (v.blur b).project) (i := i) hbare h.graph
  rw [← Reader.setGroupings_blur, hgroups, hcategories]
  exact congrArg₂ (fun p issues => { v with project := p, issues := issues }) hedit
    (List.append_nil v.issues)

/-- One piece of work does the same, or it is passed over and does nothing. -/
theorem step (h : Ready v (d :: rest)) (hw : Reader.carryOut v d = .ok w) :
    match d.blur? b with
    | some d' => Reader.carryOut (v.blur b) d' = .ok (w.blur b)
    | none => w.blur b = v.blur b := by
  cases d with
  | pendingTargets i =>
    obtain rfl := Except.ok.inj hw
    exact congrArg Except.ok (Reader.resolvePending_blur b v i)
  | target i old =>
    obtain rfl := Except.ok.inj hw
    exact congrArg Except.ok (Reader.setTarget_blur b v i old)
  | groupings i groups categories =>
    obtain rfl := Except.ok.inj hw
    rw [Deferred.blur?]
    split
    case h_1 d' hd' =>
      split at hd'
      case isTrue => cases hd'
      case isFalse =>
        obtain rfl := Option.some.inj hd'
        exact congrArg Except.ok (Reader.setGroupings_blur b v i groups categories)
    case h_2 hd' =>
      split at hd'
      case isFalse => cases hd'
      case isTrue hnone =>
        simp only [Bool.and_eq_true, Option.isNone_iff_eq_none] at hnone
        exact h.idle hnone.1.2 hnone.2
  | projectMaps | extension => cases h.about _ (List.mem_cons_self ..)

/-- The works about reflections. -/
theorem carryOutAll_blur {queue : List Deferred} (h : Ready v queue) :
    ∃ w, (∀ more, Reader.carryOutAll (queue ++ more) v = Reader.carryOutAll more w) ∧
      ∀ more, Reader.carryOutAll (queue.filterMap (Deferred.blur? b) ++ more) (v.blur b) =
        Reader.carryOutAll more (w.blur b) := by
  induction queue generalizing v with
  | nil => exact ⟨v, fun _ => rfl, fun _ => rfl⟩
  | cons d rest ih =>
    obtain ⟨u, hu, -⟩ := carryOut_patched (v := v) (h.about d (List.mem_cons_self ..))
    obtain ⟨w, hw, hblur⟩ := ih (h.next hu)
    refine ⟨w, fun more => ?_, fun more => ?_⟩
    · rw [List.cons_append, Reader.carryOutAll, hu]
      exact hw more
    · have hstep := h.step (b := b) hu
      cases hd : d.blur? b with
      | none =>
        rw [hd] at hstep
        rw [List.filterMap_cons_none hd, ← hstep]
        exact hblur more
      | some d' =>
        rw [hd] at hstep
        rw [List.filterMap_cons_some hd, List.cons_append, Reader.carryOutAll, hstep]
        exact hblur more

end Ready

end DocTree
