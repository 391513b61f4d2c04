import DocTree.Proofs.Registry.Command
import DocTree.Proofs.Tolerance.Blur

/-!
The registry does not look at the lists that are passed over: registering, setting a type and removing
do the same with and without the difference between an absent and an empty list.
-/

namespace DocTree

open Blur (drop)

variable (b : Blur)

/-! ### Variants -/

namespace Variant

@[simp] theorem tag_blur (v : Variant) : (v.blur b).tag = v.tag := by
  cases v <;> rfl

theorem types_blur (v : Variant) : (v.blur b).types = v.types.map (Ty.blur b) := by
  cases v <;> simp [blur, blurLists, mapTypes, types, Option.toList_map]

theorem literals_blur (v : Variant) : (v.blur b).literals = v.literals := by
  rw [literals, literals, types_blur, List.flatMap_map]
  exact congrArg List.flatten (List.map_congr_left fun t _ => Ty.declarations_blur b t)

theorem slots_blur (v : Variant) : (v.blur b).slots = v.slots := by
  have hliterals := literals_blur b v
  cases v <;> simp_all [slots, blur, blurLists, mapTypes, Container.blur]

theorem structuralChildren_blur (v : Variant) :
    (v.blur b).structuralChildren = v.structuralChildren := by
  rw [structuralChildren, structuralChildren, slots_blur]

theorem mainType?_blur (v : Variant) : (v.blur b).mainType? = v.mainType?.map (Ty.blur b) := by
  cases v <;> rfl

theorem setMainType?_blur (v : Variant) (type : Option Ty) :
    (v.blur b).setMainType? (type.map (Ty.blur b)) = (v.setMainType? type).map (blur b) := by
  cases v <;> rfl

theorem attach?_blur (v : Variant) (child : ReflectionId) (role : Role) :
    (v.blur b).attach? child role = (v.attach? child role).map (blur b) := by
  cases v <;> cases role <;> rfl

/-- Taking out a declaration that types own looks at nothing but what they own. -/
theorem mapTypes_literal_blur (v : Variant) (child : ReflectionId) :
    (v.blur b).mapTypes (fun t => if child ∈ t.declarations then Ty.object else t) =
      (v.mapTypes fun t => if child ∈ t.declarations then Ty.object else t).blur b := by
  have hty : ((fun t : Ty => if child ∈ t.declarations then Ty.object else t) ∘ Ty.blur b) =
      (Ty.blur b ∘ fun t => if child ∈ t.declarations then Ty.object else t) := by
    funext t
    simp only [Function.comp_apply, Ty.declarations_blur]
    split
    · rfl
    · rfl
  cases v <;> simp [blur, blurLists, mapTypes, hty]

theorem vacate_blur (v : Variant) (child : ReflectionId) (role : Role) :
    (v.blur b).vacate child role = (v.vacate child role).blur b := by
  cases role with
  | typeLiteral =>
    have hliteral := mapTypes_literal_blur b v child
    cases v <;> exact hliteral
  | _ => cases v <;> rfl

end Variant

/-! ### Groupings -/

/-- Leaving out an empty list commutes with passing it over. -/
theorem Blur.drop_bind {α : Type} {F : List α → List α} {g : α → α} (on : Bool) (hnil : F [] = [])
    (hF : ∀ xs, F (xs.map g) = (F xs).map g) (o : Option (List α)) :
    (drop on (o.map (·.map g))).bind (fun xs => if (F xs).isEmpty then none else some (F xs)) =
      drop on ((o.bind fun xs => if (F xs).isEmpty then none else some (F xs)).map (·.map g)) := by
  rcases o with _ | _ | ⟨x, xs⟩
  · simp
  · cases on <;> simp [hnil]
  · rw [Option.map_some, List.map_cons, drop_cons, Option.bind_some, Option.bind_some,
      ← List.map_cons, hF]
    cases F (x :: xs) with
    | nil => simp
    | cons y ys => simp

theorem Category.removeFrom?_blur (categories : Option (List Category)) (id : ReflectionId) :
    Category.removeFrom? (Category.blur? b categories) id =
      Category.blur? b (Category.removeFrom? categories id) := by
  refine Blur.drop_bind (F := (removeFrom · id)) b.lists rfl (fun xs => ?_) categories
  simp only [removeFrom, List.map_map, List.filter_map]
  rfl

theorem Group.remove_blur (g : Group) (id : ReflectionId) :
    (g.blur b).remove id = (g.remove id).blur b := by
  have hcategories := Category.removeFrom?_blur b g.categories id
  rw [Category.blur?, Category.blur?] at hcategories
  simp only [remove, blur, hcategories]

theorem Group.removeFrom?_blur (groups : Option (List Group)) (id : ReflectionId) :
    Group.removeFrom? (Group.blur? b groups) id = Group.blur? b (Group.removeFrom? groups id) := by
  refine Blur.drop_bind (F := fun groups => (groups.map (·.remove id)).filter fun g => !g.children.isEmpty)
    b.lists rfl (fun xs => ?_) groups
  have hremove : ((remove · id) ∘ blur b) = (blur b ∘ (remove · id)) :=
    funext fun g => remove_blur b g id
  simp only [List.map_map, hremove]
  rw [← List.map_map, List.filter_map]
  rfl

/-! ### Reflections -/

namespace Reflection

variable (r : Reflection)

theorem outline_blur : (r.blur b).outline = r.outline := outline_mk _ (Variant.tag_blur b _)

theorem structuralChildren_blur : (r.blur b).structuralChildren = r.structuralChildren :=
  Variant.structuralChildren_blur b _

theorem literals_blur : (r.blur b).literals = r.literals := Variant.literals_blur b _

theorem target?_blur : (r.blur b).target? = r.target? := by
  obtain ⟨id, name, kind, flags, comment, parent, own, data, anchor, counts, variant⟩ := r
  cases variant <;> rfl

theorem mapTarget_blur (f : ReferenceTarget → ReferenceTarget) :
    (r.blur b).mapTarget f = (r.mapTarget f).blur b := by
  obtain ⟨id, name, kind, flags, comment, parent, own, data, anchor, counts, variant⟩ := r
  cases variant <;> rfl

theorem detach_blur (child : ReflectionId) (role : Role) :
    (r.blur b).detach child role = (r.detach child role).blur b := by
  rw [detach, detach]
  change mapContainer _ { r with variant := (r.variant.blur b).vacate child role } = _
  rw [Variant.vacate_blur]
  cases r.variant.vacate child role <;>
    simp [mapContainer, blur, Variant.blur, Variant.mapTypes, Variant.blurLists, Container.blur,
      Group.removeFrom?_blur, Category.removeFrom?_blur]

end Reflection

/-! ### Projects -/

namespace Project

variable (p : Project)

theorem get?_blur (i : ReflectionId) : (p.blur b).get? i = (p.get? i).map (Reflection.blur b) := by
  rw [get?, get?, blur, Array.getElem?_map]
  cases p.arena[i]? <;> rfl

theorem outline_blur : (p.blur b).outline = p.outline := by
  rw [outline, outline, blur, Array.toList_map, List.map_map]
  refine List.map_congr_left fun o _ => ?_
  cases o with
  | none => rfl
  | some r => exact congrArg some (Reflection.outline_blur b r)

@[simp] theorem contains_blur (i : ReflectionId) : (p.blur b).contains i = p.contains i :=
  contains_of_outline (outline_blur b p) i

@[simp] theorem parent?_blur (i : ReflectionId) : (p.blur b).parent? i = p.parent? i :=
  parent?_of_outline (outline_blur b p) i

@[simp] theorem arena_size_blur : (p.blur b).arena.size = p.arena.size :=
  size_of_outline (outline_blur b p)

theorem reflections_blur : (p.blur b).reflections = p.reflections.map (Reflection.blur b) := by
  rw [reflections, reflections, blur, Array.toList_map, List.filterMap_map, List.map_filterMap]
  rfl

@[simp] theorem size_blur : (p.blur b).size = p.size := by
  rw [size, size, reflections_blur, List.length_map]

theorem put_blur (i : ReflectionId) (o : Option Reflection) :
    (p.put i o).blur b = (p.blur b).put i (o.map (Reflection.blur b)) := by
  simp only [put, blur, Array.map_setIfInBounds]

/-- A change of reflections that does not look at the lists. -/
theorem update_blur {f f' : Reflection → Reflection} (hf : ∀ r, (f r).blur b = f' (r.blur b))
    (i : ReflectionId) : (p.update i f).blur b = (p.blur b).update i f' := by
  rw [update, update, get?_blur]
  cases p.get? i with
  | none => rfl
  | some r =>
    refine (put_blur b p i _).trans ?_
    rw [Option.map_some, hf]
    rfl

theorem edit_blur {f f' : Reflection → Reflection} (hf : ∀ r, (f r).blur b = f' (r.blur b))
    (i : ReflectionId) : (p.edit i f).blur b = (p.blur b).edit i f' :=
  congrArg forgetGraph (update_blur b p hf i)

theorem roleInParent?_blur (i : ReflectionId) : (p.blur b).roleInParent? i = p.roleInParent? i := by
  rw [roleInParent?, roleInParent?, parent?_blur]
  cases p.parent? i with
  | none => rfl
  | some parent =>
    change ((p.blur b).get? parent).bind _ = (p.get? parent).bind _
    rw [get?_blur, Option.bind_map]
    congr 1
    funext r
    exact congrArg (List.lookup i) (Reflection.structuralChildren_blur b r)

theorem strikeChild_blur (parent child : ReflectionId) :
    (p.strikeChild parent child).blur b = (p.blur b).strikeChild parent child := by
  have hsame : (p.blur b).registered = p.registered := rfl
  rw [strikeChild, strikeChild, hsame]
  cases p.registered.lookup parent <;> rfl

/-! #### References -/

theorem settled?_blur (i : ReflectionId) : (p.blur b).settled? i = p.settled? i := by
  have hfind : (p.blur b).findNamed? = p.findNamed? := by
    funext name asking
    exact findNamed?_of_outline (outline_blur b p) name asking
  rw [settled?, settled?, get?_blur, Option.bind_map, hfind]
  congr 2
  funext r
  exact Reflection.target?_blur b r

theorem targetOf?_blur (i : ReflectionId) : (p.blur b).targetOf? i = p.targetOf? i := by
  have hcontains : (p.blur b).contains = p.contains := funext (contains_blur b p)
  rw [targetOf?, targetOf?, settled?_blur, hcontains]

theorem settle_blur (i : ReflectionId) : (p.settle i).blur b = (p.blur b).settle i := by
  rw [settle, settle, settled?_blur]
  cases p.settled? i with
  | none => rfl
  | some target => exact update_blur b p (fun r => (Reflection.mapTarget_blur b r _).symm) i

theorem referenceIds_blur : (p.blur b).referenceIds = p.referenceIds := by
  rw [referenceIds, referenceIds, reflections_blur, List.filter_map, List.map_map]
  congr 1
  refine List.filter_congr fun r _ => ?_
  exact Reflection.isReference_of_outline (Reflection.outline_blur b r)

theorem collectGraph_blur : p.collectGraph.blur b = (p.blur b).collectGraph := by
  have hsettled : (p.blur b).referenceIds.foldl settle (p.blur b) =
      (p.referenceIds.foldl settle p).blur b := by
    rw [referenceIds_blur]
    exact List.foldl_hom (blur b) fun q i => (settle_blur b q i).symm
  have henter (q : Project) : (q.blur b).enter = q.enter := by
    funext graph i
    rw [enter, enter, targetOf?_blur]
  rw [collectGraph, collectGraph, hsettled]
  simp only [henter, referenceIds_blur]
  rfl

theorem referencing_blur (i : ReflectionId) :
    (p.blur b).referencing i = ((p.referencing i).1.blur b, (p.referencing i).2) := by
  have hgraph : (p.blur b).graph = p.graph := rfl
  simp only [referencing, hgraph, ← collectGraph_blur]
  split <;> rfl

/-! #### Removing -/

theorem purgeSymbol_blur (i : ReflectionId) :
    (p.purgeSymbol i).blur b = (p.blur b).purgeSymbol i := by
  have hsame : (p.blur b).symbols = p.symbols := rfl
  rw [purgeSymbol, purgeSymbol, hsame]
  cases p.symbols.lookup i <;> rfl

theorem unlink_blur (i : ReflectionId) :
    (p.blur b).unlink i = ((p.unlink i).1.blur b, (p.unlink i).2) := by
  rw [unlink, unlink, parent?_blur]
  cases hparent : p.parent? i with
  | none => rfl
  | some parent =>
    have hliterals (q : Project) : ((q.blur b).get? parent).elim [] Reflection.literals =
        (q.get? parent).elim [] Reflection.literals := by
      rw [get?_blur]
      cases q.get? parent with
      | none => rfl
      | some r => exact Reflection.literals_blur b r
    have hupdate : (p.blur b).update parent (·.detach i ((p.roleInParent? i).getD .children)) =
        (p.update parent (·.detach i ((p.roleInParent? i).getD .children))).blur b :=
      (update_blur b p (fun r => (Reflection.detach_blur b r i _).symm) parent).symm
    simp only [roleInParent?_blur, hupdate, hliterals, ← strikeChild_blur, parent?_blur]

theorem cutOff_blur (i : ReflectionId) :
    (p.blur b).cutOff i = ((p.cutOff i).1.blur b, (p.cutOff i).2) := by
  have hunindex : (p.blur b).unindex i = (p.unindex i).blur b := by
    rw [unindex, unindex, ← purgeSymbol_blur]
    rfl
  rw [cutOff, cutOff, hunindex, unlink_blur]
  exact Prod.ext (congrArg forgetGraph (put_blur b _ i none).symm) rfl

/-- A removal in which the lists are passed over. -/
def Removal.blur (s : Removal) : Removal := ⟨s.project.blur b, s.begun⟩

/-- Removing does not look at the lists. -/
theorem removeWithin_blur (steps : Nat) (i : ReflectionId) (s : Removal) :
    removeWithin steps i (s.blur b) = (removeWithin steps i s).blur b := by
  induction steps generalizing i s with
  | zero => rfl
  | succ steps ih =>
    have hfold (ids : List ReflectionId) (s : Removal) :
        ids.foldl (fun s c => removeWithin steps c s) (s.blur b) =
          (ids.foldl (fun s c => removeWithin steps c s) s).blur b :=
      List.foldl_hom (Removal.blur b) fun s c => ih c s
    have hchildren (s : Removal) :
        afterChildren steps i (s.blur b) = (afterChildren steps i s).blur b := by
      have hstart : (s.blur b).start i = (s.start i).blur b := rfl
      rw [afterChildren, afterChildren, hstart]
      refine List.foldl_hom (Removal.blur b) fun s c => ?_
      have hparent : (s.blur b).project.parent? c = s.project.parent? c := parent?_blur b _ c
      rw [hparent]
      split
      · exact ih c s
      · rfl
    have hreferences (s : Removal) :
        afterReferences steps i (s.blur b) = (afterReferences steps i s).blur b := by
      have hlist : (s.blur b).project.referencing i =
          ((s.project.referencing i).1.blur b, (s.project.referencing i).2) := referencing_blur b _ i
      rw [afterReferences, afterReferences, hlist]
      exact hfold _ { s with project := (s.project.referencing i).1 }
    have horphans (s : Removal) :
        afterOrphans steps i (s.blur b) = (afterOrphans steps i s).blur b := by
      have hcut : (s.blur b).project.cutOff i = ((s.project.cutOff i).1.blur b, (s.project.cutOff i).2) :=
        cutOff_blur b _ i
      rw [afterOrphans, afterOrphans, Removal.finish, hcut]
      exact hfold _ (s.finish i)
    have hcontains : (s.blur b).project.contains i = s.project.contains i := contains_blur b _ i
    by_cases hstart : s.project.contains i = true ∧ i ∉ s.begun
    · rw [removeWithin_succ steps hstart.1 hstart.2,
        removeWithin_succ steps (hcontains.trans hstart.1) hstart.2, hchildren, hreferences, horphans]
    · rw [removeWithin_of_not _ hstart, removeWithin_of_not]
      rwa [hcontains]

/-! #### The numbers given -/

variable {p}

theorem arena_size_unlink (i : ReflectionId) : (p.unlink i).1.arena.size = p.arena.size := by
  rw [unlink]
  split
  · rfl
  · simp only [arena_strikeChild, size_update]

/-- A removal gives no numbers and takes none back. -/
theorem keeps_arena_size : Removal.Keeps fun p q => q.arena.size = p.arena.size where
  refl _ := rfl
  trans h k := k.trans h
  start _ _ := rfl
  referencing p i := by
    rw [referencing]
    split
    · exact (looked_foldl_settle _ _).1.size
    · rfl
  cutOff p i := (size_put _).trans ((arena_size_unlink i).trans (congrArg _ arena_unindex))

theorem arena_size_setOwnType {q : Project} {i : ReflectionId} {t : Ty}
    (h : p.setOwnType i t = .ok q) : q.arena.size = p.arena.size := by
  rw [setOwnType] at h
  cases hset : p.setType i (some t) with
  | error fault =>
    rw [hset] at h
    cases h
  | ok p' =>
    rw [hset] at h
    change (if _ then _ else _) = _ at h
    split at h
    · obtain rfl := Except.ok.inj h
      obtain ⟨r, v, old, -, -, rfl⟩ := setType_eq_ok hset
      have hdrop (ids : List ReflectionId) (q : Project) :
          (ids.foldl (dropLiteral i) q).arena.size = q.arena.size := by
        induction ids generalizing q with
        | nil => rfl
        | cons d rest ih =>
          rw [List.foldl_cons, ih, dropLiteral]
          split
          · exact keeps_arena_size.removeWithin _ d ⟨q, []⟩
          · rfl
      exact (hdrop old _).trans (size_put _)
    · cases h

/-- Setting a type forgets where the references lead. -/
theorem graph_setOwnType {q : Project} {i : ReflectionId} {t : Ty}
    (h : p.setOwnType i t = .ok q) : q.graph = none := by
  rw [setOwnType] at h
  cases hset : p.setType i (some t) with
  | error fault =>
    rw [hset] at h
    cases h
  | ok p' =>
    rw [hset] at h
    change (if _ then _ else _) = _ at h
    split at h
    · obtain rfl := Except.ok.inj h
      obtain ⟨r, v, old, -, -, rfl⟩ := setType_eq_ok hset
      rfl
    · cases h

variable (p)

/-! #### Types and new reflections -/

theorem setType_blur (i : ReflectionId) (type : Option Ty) :
    (p.blur b).setType i (type.map (Ty.blur b)) = (p.setType i type).map (blur b) := by
  rw [setType, setType, get?_blur]
  cases p.get? i with
  | none => rfl
  | some r =>
    have hset : (r.blur b).variant.setMainType? (type.map (Ty.blur b)) =
        (r.variant.setMainType? type).map (Variant.blur b) := Variant.setMainType?_blur b _ type
    simp only [Option.map_some, hset]
    cases r.variant.setMainType? type with
    | none =>
      have htag : (r.blur b).tag = r.tag := Variant.tag_blur b _
      simp only [Option.map_none, htag]
      rfl
    | some v =>
      have hkept : (type.map (Ty.blur b)).elim [] Ty.declarations = type.elim [] Ty.declarations := by
        cases type with
        | none => rfl
        | some t => exact Ty.declarations_blur b t
      have hold : (r.blur b).type?.elim [] Ty.declarations = r.type?.elim [] Ty.declarations := by
        have hmain : (r.blur b).type? = r.type?.map (Ty.blur b) := Variant.mainType?_blur b _
        rw [hmain]
        cases r.type? with
        | none => rfl
        | some t => exact Ty.declarations_blur b t
      have hdrop (q : Project) (d : ReflectionId) :
          dropLiteral i (q.blur b) d = (dropLiteral i q d).blur b := by
        rw [dropLiteral, dropLiteral, parent?_blur, size_blur]
        split
        · exact congrArg Removal.project (removeWithin_blur b _ d ⟨q, []⟩)
        · rfl
      have hput : (p.blur b).put i (some { r.blur b with variant := v.blur b }) =
          (p.put i (some { r with variant := v })).blur b :=
        (put_blur b p i (some { r with variant := v })).symm
      simp only [Option.map_some, hkept, hold, hput]
      exact congrArg (fun q => Except.ok (forgetGraph q)) (List.foldl_hom (blur b) hdrop)

theorem setOwnType_blur (i : ReflectionId) (t : Ty) :
    (p.blur b).setOwnType i (t.blur b) = (p.setOwnType i t).map (blur b) := by
  have howns : (p.blur b).ownsLiterals i (t.blur b) = p.ownsLiterals i t := by
    simp only [ownsLiterals, Ty.declarations_blur, parent?_blur]
  have hset := setType_blur b p i (some t)
  rw [Option.map_some] at hset
  rw [setOwnType, setOwnType, hset, howns]
  cases p.setType i (some t) with
  | error fault => rfl
  | ok q =>
    change (if _ then _ else _) = Except.map _ (if _ then _ else _)
    split <;> rfl

theorem attach_blur (parent child : ReflectionId) (role : Role) :
    (p.blur b).attach parent child role = (p.attach parent child role).map (blur b) := by
  rw [attach, attach, get?_blur]
  cases p.get? parent with
  | none => rfl
  | some r =>
    have hattach : (r.blur b).variant.attach? child role =
        (r.variant.attach? child role).map (Variant.blur b) := Variant.attach?_blur b _ child role
    simp only [Option.map_some, hattach]
    cases r.variant.attach? child role with
    | none =>
      have htag : (r.blur b).tag = r.tag := Variant.tag_blur b _
      simp only [Option.map_none, htag]
      rfl
    | some v => exact congrArg Except.ok (put_blur b p parent (some { r with variant := v })).symm

theorem add_blur (parent : ReflectionId) (role : Role) (r : Reflection) :
    (p.blur b).add parent role (r.blur b) =
      (p.add parent role r).map fun added => (added.1.blur b, added.2) := by
  have hproject : (r.blur b).isProject = r.isProject :=
    Reflection.isProject_of_outline (Reflection.outline_blur b r)
  have hsupply : (p.blur b).supply = p.supply := congrArg IdSupply.mk (arena_size_blur b p)
  rw [add, add, hproject, hsupply]
  split
  · rfl
  · change ((p.blur b).attach parent _ role).bind _ = Except.map _ ((p.attach parent _ role).bind _)
    rw [attach_blur]
    generalize p.attach parent p.supply.next role = attached
    cases attached with
    | error fault => rfl
    | ok q =>
      refine congrArg Except.ok (Prod.ext ?_ rfl)
      simp only [blur, enterChild, Array.map_push]
      rfl

end Project

end DocTree
