import DocTree.Proofs.Registry.Arena

/-!
The outline of a project is what remains when every reflection forgets what it holds and keeps its
sort. Names, parents and the look-up of full names depend on the outline alone, so they survive every
change of slots, types and targets.
-/

namespace DocTree

/-- Everything but what the variant holds. -/
def Reflection.outline (r : Reflection) : Reflection × VariantTag :=
  ({ r with variant := .reference .broken }, r.tag)

namespace Reflection

variable {r s : Reflection}

theorem id_of_outline (h : r.outline = s.outline) : r.id = s.id :=
  congrArg (·.1.id) h

theorem parent_of_outline (h : r.outline = s.outline) : r.parent = s.parent :=
  congrArg (·.1.parent) h

theorem tag_of_outline (h : r.outline = s.outline) : r.tag = s.tag :=
  congrArg (·.2) h

theorem isReference_of_outline (h : r.outline = s.outline) : r.isReference = s.isReference := by
  rw [isReference, isReference, tag_of_outline h]

theorem isProject_of_outline (h : r.outline = s.outline) : r.isProject = s.isProject := by
  rw [isProject, isProject, tag_of_outline h]

/-- With the same outline, another reflection is this one with another variant. -/
theorem eq_of_outline (h : r.outline = s.outline) : r = { s with variant := r.variant } := by
  have h1 : ({ r with variant := Variant.reference .broken } : Reflection) =
      { s with variant := Variant.reference .broken } := congrArg (·.1) h
  injection h1
  cases r
  simp_all

theorem outline_mk (v : Variant) (h : v.tag = r.tag) :
    ({ r with variant := v } : Reflection).outline = r.outline := by
  rw [outline, outline]
  exact Prod.ext rfl h

theorem outline_mapTarget (f : ReferenceTarget → ReferenceTarget) :
    (r.mapTarget f).outline = r.outline := by
  rw [mapTarget]
  split
  · rename_i t ht
    exact outline_mk _ (by rw [tag, ht]; rfl)
  · rfl

end Reflection

namespace Project

/-- The outlines of all numbers. -/
def outline (p : Project) : List (Option (Reflection × VariantTag)) :=
  p.arena.toList.map (·.map Reflection.outline)

variable {p q : Project}

theorem outline_get? (p : Project) (i : ReflectionId) :
    (p.get? i).map Reflection.outline = p.outline[i]?.join := by
  rw [outline, List.getElem?_map, Array.getElem?_toList, get?]
  cases p.arena[i]? <;> rfl

theorem outline_ext (hsize : p.arena.size = q.arena.size)
    (h : ∀ i, (p.get? i).map Reflection.outline = (q.get? i).map Reflection.outline) :
    p.outline = q.outline := by
  refine List.ext_getElem? fun i => ?_
  have hi := h i
  rw [outline, outline, List.getElem?_map, List.getElem?_map, Array.getElem?_toList,
    Array.getElem?_toList]
  rw [get?, get?] at hi
  by_cases hlt : i < p.arena.size
  · rw [Array.getElem?_eq_getElem hlt, Array.getElem?_eq_getElem (hsize ▸ hlt)] at hi ⊢
    exact congrArg some hi
  · rw [Array.getElem?_eq_none (Nat.le_of_not_lt hlt),
      Array.getElem?_eq_none (hsize ▸ Nat.le_of_not_lt hlt)]

theorem get?_of_outline (h : p.outline = q.outline) {i : ReflectionId} {r : Reflection}
    (hr : p.get? i = some r) : ∃ s, q.get? i = some s ∧ s.outline = r.outline := by
  have hi : (p.get? i).map Reflection.outline = (q.get? i).map Reflection.outline := by
    rw [outline_get?, outline_get?, h]
  rw [hr] at hi
  exact Option.map_eq_some_iff.mp hi.symm

theorem get?_eq_none_of_outline (h : p.outline = q.outline) {i : ReflectionId}
    (hr : p.get? i = none) : q.get? i = none := by
  have hi : (p.get? i).map Reflection.outline = (q.get? i).map Reflection.outline := by
    rw [outline_get?, outline_get?, h]
  rw [hr] at hi
  exact Option.map_eq_none_iff.mp hi.symm

theorem contains_of_outline (h : p.outline = q.outline) (i : ReflectionId) :
    p.contains i = q.contains i := by
  have hi : (p.get? i).map Reflection.outline = (q.get? i).map Reflection.outline := by
    rw [outline_get?, outline_get?, h]
  rw [contains, contains, ← Option.isSome_map (f := Reflection.outline), hi, Option.isSome_map]

theorem parent?_of_outline (h : p.outline = q.outline) (i : ReflectionId) :
    p.parent? i = q.parent? i := by
  have hi : (p.get? i).map Reflection.outline = (q.get? i).map Reflection.outline := by
    rw [outline_get?, outline_get?, h]
  have hp := congrArg (Option.bind · (·.1.parent)) hi
  rw [Option.bind_map, Option.bind_map] at hp
  exact hp

theorem size_of_outline (h : p.outline = q.outline) : p.arena.size = q.arena.size := by
  have hl := congrArg List.length h
  rw [outline, outline, List.length_map, List.length_map] at hl
  simpa using hl

/-- A change that keeps outlines keeps the outline of the project. -/
theorem outline_update {i : ReflectionId} {f : Reflection → Reflection}
    (hf : ∀ r, (f r).outline = r.outline) : (p.update i f).outline = p.outline := by
  refine outline_ext (size_update f) fun j => ?_
  rw [get?_update]
  split
  · cases p.get? j with
    | none => rfl
    | some r => exact congrArg some (hf r)
  · rfl

/-! ### Names depend on the outline alone -/

theorem outline_reflections (p : Project) :
    p.reflections.map Reflection.outline = p.outline.filterMap id := by
  rw [reflections, outline, List.filterMap_map, List.map_filterMap]
  rfl

theorem outline_upward (h : p.outline = q.outline) : ∀ (n : Nat) (o : Option ReflectionId),
    (p.upward n o).map Reflection.outline = (q.upward n o).map Reflection.outline
  | 0, _ => rfl
  | n + 1, none => rfl
  | n + 1, some i => by
    rw [upward, upward, Option.bind_some, Option.bind_some]
    cases hr : p.get? i with
    | none => rw [get?_eq_none_of_outline h hr]
    | some r =>
      obtain ⟨s, hs, hrs⟩ := get?_of_outline h hr
      simp only [hs, List.map_cons, hrs, Reflection.parent_of_outline hrs]
      rw [outline_upward h n r.parent]

/-- A reflection and its ancestors below the root, as outlines. -/
theorem outline_chain (p : Project) (r : Reflection) :
    (p.chain r).map Reflection.outline =
      (((r :: p.ancestors r.id).map Reflection.outline).takeWhile fun o => !(decide (o.2 = .project))).reverse := by
  rw [chain, List.takeWhile_map, List.map_reverse]
  rfl

theorem fullName?_of_outline (h : p.outline = q.outline) (i : ReflectionId) (separator : String) :
    p.fullName? i separator = q.fullName? i separator := by
  suffices hn : p.namePath? i .none = q.namePath? i .none by rw [fullName?, fullName?, hn]
  rw [namePath?, namePath?]
  cases hr : p.get? i with
  | none =>
    rw [get?_eq_none_of_outline h hr]
    rfl
  | some r =>
    obtain ⟨s, hs, hrs⟩ := get?_of_outline h hr
    have hup : (r :: p.ancestors r.id).map Reflection.outline =
        (s :: q.ancestors s.id).map Reflection.outline := by
      rw [List.map_cons, List.map_cons, hrs, ancestors, ancestors, Reflection.id_of_outline hrs,
        parent?_of_outline h, outline_upward h]
    have hchain : (p.chain r).map Reflection.outline = (q.chain s).map Reflection.outline := by
      rw [outline_chain, outline_chain, hup]
    have hnames (l : List Reflection) : ((l.filter fun a => !a.kind.isIn .none).map (·.name)) =
        ((l.map Reflection.outline).filter fun a => !a.1.kind.isIn .none).map (·.1.name) := by
      rw [List.filter_map, List.map_map]
      rfl
    have hname : s.name = r.name := congrArg (·.1.name) hrs
    rw [hs, Option.map_some, Option.map_some, hnames, hnames, hchain,
      Reflection.isProject_of_outline hrs, hname]

/-- Full names are looked up among outlines. -/
theorem findNamed?_of_outline (h : p.outline = q.outline) (name : String) (asking : ReflectionId) :
    p.findNamed? name asking = q.findNamed? name asking := by
  have hfind (t : Project) : t.findNamed? name asking =
      ((t.outline.filterMap id).find? fun o => o.1.id ≠ asking && !(decide (o.2 = .reference)) &&
        !(decide (o.2 = .project)) && t.fullName? o.1.id "." = some name).map (·.1.id) := by
    rw [findNamed?, ← outline_reflections, List.find?_map, Option.map_map]
    rfl
  rw [hfind, hfind, h]
  simp only [fullName?_of_outline h]

end Project

end DocTree
