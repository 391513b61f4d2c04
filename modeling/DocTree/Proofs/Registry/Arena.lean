import DocTree.Project.Removal

/-!
What the registry says after it was written. Each writing operation is described by what `get?`, the
table of children and the other tables give afterwards, so that nothing later has to look at arrays.
-/

namespace DocTree

namespace Project

variable {p : Project} {i j : ReflectionId} {r : Reflection}

/-! ### Reading a number -/

theorem lt_size_of_get? (h : p.get? i = some r) : i < p.arena.size := by
  rw [get?, Option.join_eq_some_iff] at h
  exact (Array.getElem?_eq_some_iff.mp h).1

theorem get?_eq_none_of_size_le (h : p.arena.size ≤ i) : p.get? i = none := by
  rw [get?, Array.getElem?_eq_none h]
  rfl

theorem contains_iff : p.contains i = true ↔ ∃ r, p.get? i = some r := by
  rw [contains, Option.isSome_iff_exists]

theorem contains_of_get? (h : p.get? i = some r) : p.contains i = true := by
  rw [contains, h]
  rfl

theorem not_contains_iff : ¬ p.contains i = true ↔ p.get? i = none := by
  rw [contains, Option.not_isSome_iff_eq_none]

theorem lt_size_of_contains (h : p.contains i = true) : i < p.arena.size := by
  obtain ⟨r, hr⟩ := contains_iff.mp h
  exact lt_size_of_get? hr

theorem parent?_of_get? (h : p.get? i = some r) : p.parent? i = r.parent := by
  rw [parent?, h]
  rfl

theorem parent?_eq_some_iff {q : ReflectionId} :
    p.parent? i = some q ↔ ∃ r, p.get? i = some r ∧ r.parent = some q := by
  rw [parent?, Option.bind_eq_some_iff]

theorem contains_of_parent? {q : ReflectionId} (h : p.parent? i = some q) : p.contains i = true := by
  obtain ⟨r, hr, -⟩ := parent?_eq_some_iff.mp h
  exact contains_of_get? hr

/-- A reflection is among the reflections exactly when some number holds it. -/
theorem mem_reflections : r ∈ p.reflections ↔ ∃ i, p.get? i = some r := by
  simp only [reflections, List.mem_filterMap, id_eq, exists_eq_right, Array.mem_toList_iff,
    Array.mem_iff_getElem?, get?, Option.join_eq_some_iff]

/-! ### Writing one number -/

theorem get?_put_of_lt (hi : i < p.arena.size) (o : Option Reflection) :
    (p.put i o).get? j = if i = j then o else p.get? j := by
  rw [get?, put, Array.getElem?_setIfInBounds]
  split
  · rename_i h
    subst h
    simp
  · rfl

theorem get?_put_none : (p.put i none).get? j = if i = j then none else p.get? j := by
  by_cases hi : i < p.arena.size
  · exact get?_put_of_lt hi none
  · rw [put, Array.setIfInBounds_eq_of_size_le (Nat.le_of_not_lt hi)]
    split
    · rename_i h
      exact h ▸ get?_eq_none_of_size_le (Nat.le_of_not_lt hi)
    · rfl

theorem get?_update (f : Reflection → Reflection) :
    (p.update i f).get? j = if i = j then (p.get? j).map f else p.get? j := by
  rw [update]
  split
  · rename_i r hr
    rw [get?_put_of_lt (lt_size_of_get? hr)]
    split
    · rename_i h
      rw [← h, hr]
      rfl
    · rfl
  · rename_i hr
    split
    · rename_i h
      rw [← h, hr]
      rfl
    · rfl

theorem get?_update_self (f : Reflection → Reflection) :
    (p.update i f).get? i = (p.get? i).map f := by
  rw [get?_update, if_pos rfl]

theorem get?_update_of_ne (h : i ≠ j) (f : Reflection → Reflection) :
    (p.update i f).get? j = p.get? j := by
  rw [get?_update, if_neg h]

theorem size_put (o : Option Reflection) : (p.put i o).arena.size = p.arena.size := by
  rw [put, Array.size_setIfInBounds]

theorem size_update (f : Reflection → Reflection) : (p.update i f).arena.size = p.arena.size := by
  rw [update]
  split
  · exact size_put _
  · rfl

theorem contains_update (f : Reflection → Reflection) :
    (p.update i f).contains j = p.contains j := by
  rw [contains, contains, get?_update]
  split
  · exact Option.isSome_map
  · rfl

/-- A change that keeps the parent keeps all parents. -/
theorem parent?_update {f : Reflection → Reflection} (hf : ∀ r, (f r).parent = r.parent) :
    (p.update i f).parent? j = p.parent? j := by
  rw [parent?, parent?, get?_update]
  split
  · cases p.get? j with
    | none => rfl
    | some r => exact hf r
  · rfl

/-! ### The tables that an update leaves alone -/

@[simp] theorem registered_put (o : Option Reflection) :
    (p.put i o).registered = p.registered := rfl

@[simp] theorem graph_put (o : Option Reflection) : (p.put i o).graph = p.graph := rfl

@[simp] theorem registered_update (f : Reflection → Reflection) :
    (p.update i f).registered = p.registered := by
  rw [update]
  split <;> rfl

@[simp] theorem graph_update (f : Reflection → Reflection) : (p.update i f).graph = p.graph := by
  rw [update]
  split <;> rfl

@[simp] theorem symbols_update (f : Reflection → Reflection) :
    (p.update i f).symbols = p.symbols := by
  rw [update]
  split <;> rfl

@[simp] theorem symbolIndex_update (f : Reflection → Reflection) :
    (p.update i f).symbolIndex = p.symbolIndex := by
  rw [update]
  split <;> rfl

@[simp] theorem files_update (f : Reflection → Reflection) : (p.update i f).files = p.files := by
  rw [update]
  split <;> rfl

@[simp] theorem arena_forgetGraph : p.forgetGraph.arena = p.arena := rfl

@[simp] theorem get?_forgetGraph : p.forgetGraph.get? i = p.get? i := rfl

@[simp] theorem registered_forgetGraph : p.forgetGraph.registered = p.registered := rfl

@[simp] theorem graph_forgetGraph : p.forgetGraph.graph = none := rfl

/-! ### The table of children -/

theorem registeredChildren_enterChild (q child : ReflectionId) :
    (p.enterChild q child).registeredChildren i =
      if i = q then p.registeredChildren q ++ [child] else p.registeredChildren i := by
  rw [registeredChildren, enterChild]
  split
  · rename_i h
    rw [h, Assoc.lookup_insert_self]
    rfl
  · rename_i h
    rw [Assoc.lookup_insert_of_ne h]
    rfl

theorem registeredChildren_strikeChild (q child : ReflectionId) :
    (p.strikeChild q child).registeredChildren i =
      if i = q then (p.registeredChildren q).filter (· ≠ child) else p.registeredChildren i := by
  rw [strikeChild]
  split
  · rename_i ids hids
    rw [registeredChildren]
    split
    · rename_i h
      rw [h, Assoc.lookup_insert_self, registeredChildren, hids]
      rfl
    · rename_i h
      rw [Assoc.lookup_insert_of_ne h]
      rfl
  · rename_i hids
    split
    · rename_i h
      rw [h, registeredChildren, hids]
      rfl
    · rfl

@[simp] theorem arena_enterChild (q child : ReflectionId) :
    (p.enterChild q child).arena = p.arena := rfl

@[simp] theorem arena_strikeChild (q child : ReflectionId) :
    (p.strikeChild q child).arena = p.arena := by
  rw [strikeChild]
  split <;> rfl

@[simp] theorem graph_strikeChild (q child : ReflectionId) :
    (p.strikeChild q child).graph = p.graph := by
  rw [strikeChild]
  split <;> rfl

@[simp] theorem symbols_strikeChild (q child : ReflectionId) :
    (p.strikeChild q child).symbols = p.symbols := by
  rw [strikeChild]
  split <;> rfl

@[simp] theorem files_strikeChild (q child : ReflectionId) :
    (p.strikeChild q child).files = p.files := by
  rw [strikeChild]
  split <;> rfl

@[simp] theorem symbolIndex_strikeChild (q child : ReflectionId) :
    (p.strikeChild q child).symbolIndex = p.symbolIndex := by
  rw [strikeChild]
  split <;> rfl

/-! ### Operations that only touch the tables -/

theorem get?_of_arena_eq {p q : Project} (h : p.arena = q.arena) (i : ReflectionId) :
    p.get? i = q.get? i := by
  rw [get?, get?, h]

theorem parent?_of_arena_eq {p q : Project} (h : p.arena = q.arena) (i : ReflectionId) :
    p.parent? i = q.parent? i := by
  rw [parent?, parent?, get?_of_arena_eq h]

theorem contains_of_arena_eq {p q : Project} (h : p.arena = q.arena) (i : ReflectionId) :
    p.contains i = q.contains i := by
  rw [contains, contains, get?_of_arena_eq h]

@[simp] theorem arena_purgeSymbol : (p.purgeSymbol i).arena = p.arena := by
  rw [purgeSymbol]
  split <;> rfl

@[simp] theorem registered_purgeSymbol : (p.purgeSymbol i).registered = p.registered := by
  rw [purgeSymbol]
  split <;> rfl

@[simp] theorem graph_purgeSymbol : (p.purgeSymbol i).graph = p.graph := by
  rw [purgeSymbol]
  split <;> rfl

/-! ### Reflections of a symbol -/

/-- A symbol leads to one of the reflections that are indexed under it. -/
theorem exists_of_ofSymbol? {s : Symbol} (h : p.ofSymbol? s = some r) :
    ∃ i ∈ p.indexed s, p.get? i = some r := by
  have hmem : r ∈ p.allOfSymbol s := by
    rcases Option.or_eq_some_iff.mp h with h | ⟨-, h⟩
    · exact List.mem_of_find?_eq_some h
    · exact List.mem_of_head? h
  exact List.mem_filterMap.mp hmem

/-- A symbol under which a registered reflection is indexed leads to one. -/
theorem isSome_ofSymbol? {s : Symbol} (hi : i ∈ p.indexed s) (hcontains : p.contains i = true) :
    (p.ofSymbol? s).isSome = true := by
  obtain ⟨r, hr⟩ := contains_iff.mp hcontains
  have hhead : (p.allOfSymbol s).head?.isSome = true := by
    rw [List.isSome_head?]
    exact List.ne_nil_of_mem (List.mem_filterMap.mpr ⟨i, hi, hr⟩)
  rw [ofSymbol?, Option.isSome_or, hhead, Bool.or_true]

end Project

end DocTree
