import DocTree.Proofs.Registry.Invariant
import DocTree.Proofs.Registry.Grouping

/-!
Taking one reflection out, once nothing depends on it any more: what the registry says afterwards.
-/

namespace DocTree

theorem Reflection.target?_detach (r : Reflection) (c : ReflectionId) (role : Role) :
    (r.detach c role).target? = r.target? := by
  cases hv : r.variant <;> cases role <;>
    simp only [detach, mapContainer, Variant.vacate, Variant.mapTypes, target?, hv]

theorem Reflection.frame_mapTarget (f : ReferenceTarget → ReferenceTarget) (r : Reflection) :
    (r.mapTarget f).variant.frame = r.variant.frame := by
  cases hv : r.variant <;> simp only [mapTarget, hv, Variant.frame]

theorem Reflection.frame_of_untargeted {r s : Reflection} (h : r.untargeted = s.untargeted) :
    r.variant.frame = s.variant.frame := by
  rw [← frame_mapTarget (fun _ => .broken) r, ← frame_mapTarget (fun _ => .broken) s]
  exact congrArg (·.variant.frame) h

namespace Project

/-- The tables by symbol and by file without a reflection. -/
def unindex (p : Project) (id : ReflectionId) : Project :=
  { p.purgeSymbol id with files := (p.purgeSymbol id).files.disown id }

/-- A reflection on which nothing depends taken out, with the declarations that nothing owns
afterwards. -/
def cutOff (p : Project) (id : ReflectionId) : Project × List ReflectionId :=
  ((((p.unindex id).unlink id).1.put id none).forgetGraph, ((p.unindex id).unlink id).2)

/-- The role under which a reflection stands in its parent, and that of children when it stands
nowhere. -/
def roleToVacate (p : Project) (id : ReflectionId) : Role := (p.roleInParent? id).getD .children

variable {p : Project} {id q i : ReflectionId}

@[simp] theorem arena_unindex : (p.unindex id).arena = p.arena := arena_purgeSymbol

@[simp] theorem registered_unindex : (p.unindex id).registered = p.registered :=
  registered_purgeSymbol

@[simp] theorem get?_unindex : (p.unindex id).get? i = p.get? i := get?_of_arena_eq arena_unindex i

@[simp] theorem parent?_unindex : (p.unindex id).parent? i = p.parent? i :=
  parent?_of_arena_eq arena_unindex i

@[simp] theorem roleInParent?_unindex : (p.unindex id).roleInParent? i = p.roleInParent? i := by
  simp only [roleInParent?, parent?_unindex, get?_unindex]

theorem lookup_symbols_purgeSymbol : (p.purgeSymbol id).symbols.lookup i =
    if i = id then none else p.symbols.lookup i := by
  have hsymbols : (p.purgeSymbol id).symbols =
      if p.symbols.lookup id = none then p.symbols else Assoc.erase id p.symbols := by
    rw [purgeSymbol]
    cases p.symbols.lookup id <;> rfl
  rw [hsymbols]
  by_cases hi : i = id
  · subst hi
    rw [if_pos rfl]
    split
    · assumption
    · exact Assoc.lookup_erase_self i _
  · rw [if_neg hi]
    split
    · rfl
    · exact Assoc.lookup_erase_of_ne hi _

/-! ### Taking a reflection out of its parent -/

theorem unlink_fst (hq : p.parent? id = some q) : (p.unlink id).1 =
    (p.update q (·.detach id (p.roleToVacate id))).strikeChild q id := by
  rw [unlink, hq]
  rfl

theorem roleInParent?_of_get? (hq : p.parent? id = some q) {r : Reflection}
    (hr : p.get? q = some r) : p.roleInParent? id = r.variant.structuralChildren.lookup id := by
  rw [roleInParent?, hq]
  show (p.get? q).bind _ = _
  rw [hr]
  rfl

theorem roleInParent?_of_roleToVacate (h : p.roleToVacate id = .typeLiteral) :
    p.roleInParent? id = some .typeLiteral := by
  rw [roleToVacate] at h
  cases hrole : p.roleInParent? id with
  | none =>
    rw [hrole] at h
    cases h
  | some role =>
    rw [hrole] at h
    exact congrArg some h

/-- A reflection that stands in a slot of its parent stands in the one that is vacated. -/
theorem mem_slot_roleToVacate (hq : p.parent? id = some q) {r : Reflection}
    (hr : p.get? q = some r) {role : Role} (h : id ∈ r.variant.slot role) :
    id ∈ r.variant.slot (p.roleToVacate id) := by
  rw [roleToVacate, roleInParent?_of_get? hq hr]
  cases hrole : r.variant.structuralChildren.lookup id with
  | none => exact absurd h (Variant.not_mem_slot_of_lookup hrole role)
  | some found => exact Variant.lookup_structuralChildren hrole

/-- Nothing owns these afterwards: literals of the parent that went with the types given up. -/
theorem mem_unlink_snd (hq : p.parent? id = some q) {d : ReflectionId} :
    d ∈ (p.unlink id).2 ↔ p.roleInParent? id = some .typeLiteral ∧ d ≠ id ∧ p.parent? d = some q ∧
      ∃ r, p.get? q = some r ∧ d ∈ r.literals ∧
        d ∉ (r.detach id (p.roleToVacate id)).literals := by
  have hparent (f : Reflection → Reflection) (hf : ∀ r, (f r).parent = r.parent) :
      ((p.update q f).strikeChild q id).parent? d = p.parent? d := by
    rw [parent?_of_arena_eq (arena_strikeChild q id), parent?_update hf]
  simp only [unlink, hq]
  rw [List.mem_filter,
    hparent _ fun r => Reflection.parent_of_outline Reflection.outline_detach, get?_update_self,
    ← roleToVacate]
  by_cases hrole : p.roleInParent? id = some .typeLiteral
  · cases hr : p.get? q with
    | none => simp [hrole]
    | some r =>
      simp only [hrole, if_true, List.mem_filter, Bool.and_eq_true, decide_eq_true_eq,
        Option.elim_some, Option.map_some, Option.some.injEq, exists_eq_left', true_and]
      exact ⟨fun ⟨⟨h1, h2, h3⟩, h4⟩ => ⟨h2, h4, h1, of_decide_eq_true h3⟩,
        fun ⟨h2, h4, h1, h3⟩ => ⟨⟨h1, h2, decide_eq_true h3⟩, h4⟩⟩
  · simp [hrole]

/-! ### Taking a reflection out altogether -/

theorem get?_cutOff (hq : p.parent? id = some q) : (p.cutOff id).1.get? i =
    if id = i then none
    else if q = i then (p.get? i).map (·.detach id (p.roleToVacate id)) else p.get? i := by
  rw [cutOff, unlink_fst (parent?_unindex.trans hq), get?_forgetGraph, get?_put_none,
    get?_of_arena_eq (arena_strikeChild q id), get?_update, get?_unindex, roleToVacate,
    roleToVacate, roleInParent?_unindex]

theorem size_cutOff (hq : p.parent? id = some q) :
    (p.cutOff id).1.arena.size = p.arena.size := by
  rw [cutOff, unlink_fst (parent?_unindex.trans hq), arena_forgetGraph, size_put,
    arena_strikeChild, size_update, arena_unindex]

theorem graph_cutOff : (p.cutOff id).1.graph = none := rfl

theorem registeredChildren_cutOff (hq : p.parent? id = some q) :
    (p.cutOff id).1.registeredChildren i =
      if i = q then (p.registeredChildren q).filter (· ≠ id) else p.registeredChildren i := by
  have htable (j : ReflectionId) :
      ((p.unindex id).update q (·.detach id ((p.unindex id).roleToVacate id))).registeredChildren j =
        p.registeredChildren j := by
    rw [registeredChildren, registered_update, registered_unindex, registeredChildren]
  rw [cutOff, unlink_fst (parent?_unindex.trans hq), registeredChildren, registered_forgetGraph,
    registered_put, ← registeredChildren, registeredChildren_strikeChild, htable, htable]

theorem mem_orphans_cutOff (hq : p.parent? id = some q) {d : ReflectionId} :
    d ∈ (p.cutOff id).2 ↔ p.roleInParent? id = some .typeLiteral ∧ d ≠ id ∧
      p.parent? d = some q ∧ ∃ r, p.get? q = some r ∧ d ∈ r.literals ∧
        d ∉ (r.detach id (p.roleToVacate id)).literals := by
  rw [cutOff, mem_unlink_snd (parent?_unindex.trans hq), roleToVacate, roleToVacate,
    roleInParent?_unindex, parent?_unindex]
  simp only [get?_unindex]

theorem get?_cutOff_eq_some (hq : p.parent? id = some q) {r' : Reflection}
    (h : (p.cutOff id).1.get? i = some r') : i ≠ id ∧ ∃ r, p.get? i = some r ∧
      ((i = q ∧ r' = r.detach id (p.roleToVacate id)) ∨ (i ≠ q ∧ r' = r)) := by
  rw [get?_cutOff hq] at h
  split at h
  · cases h
  · rename_i hi
    refine ⟨fun e => hi e.symm, ?_⟩
    split at h
    · rename_i hqi
      obtain ⟨r, hr, rfl⟩ := Option.map_eq_some_iff.mp h
      exact ⟨r, hr, .inl ⟨hqi.symm, rfl⟩⟩
    · rename_i hqi
      exact ⟨r', h, .inr ⟨fun e => hqi e.symm, rfl⟩⟩

theorem get?_cutOff_eq_none (hq : p.parent? id = some q) :
    (p.cutOff id).1.get? i = none ↔ i = id ∨ p.get? i = none := by
  rw [get?_cutOff hq]
  by_cases hi : i = id
  · simp [hi]
  · rw [if_neg (Ne.symm hi)]
    split <;> simp [hi]

/-- What is known of targets is not touched. -/
theorem AllSettled.cutOff (h : p.AllSettled) (hq : p.parent? id = some q) :
    (p.cutOff id).1.AllSettled := by
  intro i r' t hr' ht
  obtain ⟨-, r, hr, ⟨-, rfl⟩ | ⟨-, rfl⟩⟩ := get?_cutOff_eq_some hq hr'
  · exact h i r t hr (Reflection.target?_detach r id _ ▸ ht)
  · exact h i r' t hr ht

theorem settled?_cutOff (h : p.AllSettled) (hq : p.parent? id = some q) (hi : i ≠ id) :
    (p.cutOff id).1.settled? i = p.settled? i := by
  rw [(h.cutOff hq).settled?, h.settled?, get?_cutOff hq, if_neg (Ne.symm hi)]
  split
  · cases p.get? i with
    | none => rfl
    | some r => exact Reflection.target?_detach r id _
  · rfl

theorem lookup_symbols_cutOff (hq : p.parent? id = some q) :
    (p.cutOff id).1.symbols.lookup i = if i = id then none else p.symbols.lookup i := by
  rw [cutOff, unlink_fst (parent?_unindex.trans hq), ← lookup_symbols_purgeSymbol]
  show List.lookup i (((p.unindex id).update q _).strikeChild q id).symbols = _
  rw [symbols_strikeChild, symbols_update]
  rfl

end Project

end DocTree
