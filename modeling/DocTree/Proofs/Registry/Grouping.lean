import DocTree.Proofs.Registry.Reference
import DocTree.Proofs.Registry.Slot

/-!
Groups and categories under removal. Dropping one child after the other is dropping all of them at
once: a grouping that is emptied by the first children would be emptied by all.
-/

namespace DocTree

variable {gone : ReflectionId → Bool} {c : ReflectionId}

namespace Category

/-- Several children dropped everywhere, and the categories that are then empty. -/
def purge (gone : ReflectionId → Bool) (categories : List Category) : List Category :=
  (categories.map fun k => { k with children := k.children.filter fun c => !gone c }).filter
    fun k => !k.children.isEmpty

/-- Several children dropped everywhere; no list stays where none is left. -/
def purge? (gone : ReflectionId → Bool) (categories : Option (List Category)) :
    Option (List Category) :=
  categories.bind fun categories =>
    if (purge gone categories).isEmpty then none else some (purge gone categories)

theorem removeFrom?_eq_purge? (categories : Option (List Category)) (c : ReflectionId) :
    removeFrom? categories c = purge? (fun x => decide (x = c)) categories := by
  have hremove (l : List Category) : removeFrom l c = purge (fun x => decide (x = c)) l := by
    simp only [removeFrom, purge, ne_eq, decide_not]
  simp only [removeFrom?, purge?, hremove]

end Category

/-- Children dropped in turn, and what is then empty dropped in turn, is all dropped at once. -/
theorem filter_map_filter_map {α : Type} {f g h : α → α} (keep : α → Bool)
    (hgf : ∀ a, g (f a) = h a) (hkeep : ∀ a, keep a = false → keep (g a) = false) (l : List α) :
    (((l.map f).filter keep).map g).filter keep = (l.map h).filter keep := by
  induction l with
  | nil => rfl
  | cons a l ih =>
    rw [List.map_cons, List.map_cons, List.filter_cons]
    by_cases hf : keep (f a) = true
    · rw [if_pos hf, List.map_cons, List.filter_cons, List.filter_cons, hgf, ih]
    · have hh : keep (h a) = false := hgf a ▸ hkeep (f a) (Bool.not_eq_true _ ▸ hf)
      rw [if_neg hf, ih, List.filter_cons, hh, if_neg Bool.false_ne_true]

theorem filter_not_filter_not (g h : ReflectionId → Bool) (l : List ReflectionId) :
    (l.filter fun c => !g c).filter (fun c => !h c) = l.filter fun c => !(g c || h c) := by
  simp only [List.filter_filter, Bool.not_or, Bool.and_comm]

theorem Category.purge_purge (g h : ReflectionId → Bool) (categories : List Category) :
    purge h (purge g categories) = purge (fun c => g c || h c) categories :=
  filter_map_filter_map _ (fun k => by rw [filter_not_filter_not]) (by simp +contextual) categories

theorem Category.purge?_purge? (g h : ReflectionId → Bool) (categories : Option (List Category)) :
    purge? h (purge? g categories) = purge? (fun c => g c || h c) categories := by
  cases categories with
  | none => rfl
  | some l =>
    rw [purge?, purge?, purge?, Option.bind_some, Option.bind_some, ← purge_purge]
    cases hl : purge g l with
    | nil => rfl
    | cons k l' => rfl

namespace Group

/-- Several children dropped from the group and its categories. -/
def purge (gone : ReflectionId → Bool) (g : Group) : Group :=
  { g with
    children := g.children.filter fun c => !gone c
    categories := Category.purge? gone g.categories }

/-- Several children dropped everywhere, and the groups that are then empty; no list stays where none
is left. -/
def purge? (gone : ReflectionId → Bool) (groups : Option (List Group)) : Option (List Group) :=
  groups.bind fun groups =>
    let left := (groups.map (purge gone)).filter fun g => !g.children.isEmpty
    if left.isEmpty then none else some left

theorem removeFrom?_eq_purge? (groups : Option (List Group)) (c : ReflectionId) :
    removeFrom? groups c = purge? (fun x => decide (x = c)) groups := by
  have hremove : (fun g : Group => g.remove c) = purge fun x => decide (x = c) := by
    funext g
    simp only [remove, purge, Category.removeFrom?_eq_purge?, ne_eq, decide_not]
  rw [removeFrom?, purge?, hremove]

theorem purge_purge (g h : ReflectionId → Bool) (k : Group) :
    (k.purge g).purge h = k.purge fun c => g c || h c := by
  simp only [purge, filter_not_filter_not, Category.purge?_purge?]

theorem purge?_purge? (g h : ReflectionId → Bool) (groups : Option (List Group)) :
    purge? h (purge? g groups) = purge? (fun c => g c || h c) groups := by
  cases groups with
  | none => rfl
  | some l =>
    have heq := filter_map_filter_map (fun k : Group => !k.children.isEmpty)
      (purge_purge g h) (by simp +contextual [purge]) l
    simp only [purge?, Option.bind_some, ← heq]
    cases (l.map (purge g)).filter fun k => !k.children.isEmpty <;> rfl

end Group

/-! ### The groupings of a reflection -/

namespace Reflection

variable {r s : Reflection} {role : Role}

/-- The groups and categories, where the variant has them. -/
def groupings (r : Reflection) : Option (List Group) × Option (List Category) :=
  (r.container?.bind (·.groups), r.container?.bind (·.categories))

/-- One reflection is another with the groupings purged of what was lost, if anything was. -/
structure Regrouped (lost : ReflectionId → Bool) (r s : Reflection) : Prop where
  same : (∀ c, lost c = false) → s.groupings = r.groupings
  purged : (∃ c, lost c = true) → s.groupings =
    (Group.purge? lost r.groupings.1, Category.purge? lost r.groupings.2)

theorem groupings_detach : (r.detach c role).groupings =
    (Group.purge? (fun x => decide (x = c)) r.groupings.1,
      Category.purge? (fun x => decide (x = c)) r.groupings.2) := by
  rw [← Group.removeFrom?_eq_purge?, ← Category.removeFrom?_eq_purge?]
  cases hv : r.variant <;> cases role <;>
    simp only [detach, mapContainer, Variant.vacate, Variant.mapTypes, groupings, container?, hv,
      Option.bind_some, Option.bind_none, Group.removeFrom?, Category.removeFrom?]

theorem Regrouped.detach {lost : ReflectionId → Bool} (h : Regrouped lost r s) :
    Regrouped (fun x => lost x || decide (x = c)) r (s.detach c role) where
  same hnone := absurd (hnone c) (by simp)
  purged _ := by
    by_cases hlost : ∃ x, lost x = true
    · rw [groupings_detach, h.purged hlost, Group.purge?_purge?, Category.purge?_purge?]
    · have hfalse : ∀ x, lost x = false := by simpa using hlost
      simp only [groupings_detach, h.same hfalse, hfalse, Bool.false_or]

theorem groupings_mapTarget (f : ReferenceTarget → ReferenceTarget) :
    (r.mapTarget f).groupings = r.groupings := by
  cases hv : r.variant <;> simp only [mapTarget, groupings, container?, hv]

theorem groupings_of_untargeted (h : r.untargeted = s.untargeted) : r.groupings = s.groupings := by
  rw [← groupings_mapTarget (r := r) fun _ => .broken, ← groupings_mapTarget (r := s) fun _ => .broken]
  exact congrArg groupings h

end Reflection

end DocTree
