import DocTree.Project.SymbolIndex

/-!
What the operations on the index of symbols do to the entries of each symbol.
-/

namespace DocTree

/-- A number entered at the end of a list, unless it is there. -/
def enterOnce (ids : List ReflectionId) (id : ReflectionId) : List ReflectionId :=
  if id ∈ ids then ids else ids ++ [id]

theorem mem_enterOnce {ids : List ReflectionId} {id i : ReflectionId} :
    i ∈ enterOnce ids id ↔ i ∈ ids ∨ i = id := by
  rw [enterOnce]
  split
  · next hmem => exact ⟨.inl, fun hi => hi.elim (fun h => h) fun heq => heq ▸ hmem⟩
  · rw [List.mem_append, List.mem_singleton]

namespace Project

variable {p q : Project} {id i : ReflectionId} {s t : Symbol} {declared : DeclaredSymbol}

/-! ### One entry changed -/

theorem indexed_insert {ids : List ReflectionId} (h : q.symbolIndex = Assoc.insert s ids p.symbolIndex) :
    q.indexed t = if s = t then ids else p.indexed t := by
  rw [indexed, indexed, h]
  split
  · next heq => rw [heq, Assoc.lookup_insert_self, Option.getD_some]
  · next hne => rw [Assoc.lookup_insert_of_ne (Ne.symm hne)]

theorem indexed_erase (h : q.symbolIndex = Assoc.erase s p.symbolIndex) :
    q.indexed t = if s = t then [] else p.indexed t := by
  rw [indexed, indexed, h]
  split
  · next heq => rw [heq, Assoc.lookup_erase_self, Option.getD_none]
  · next hne => rw [Assoc.lookup_erase_of_ne (Ne.symm hne)]

theorem indexed_eq_nil (h : p.symbolIndex.lookup s = none) : p.indexed s = [] := by
  rw [indexed, h, Option.getD_none]

theorem indexed_of_lookup {ids : List ReflectionId} (h : p.symbolIndex.lookup s = some ids) :
    p.indexed s = ids := by
  rw [indexed, h, Option.getD_some]

/-! ### Entering -/

theorem indexed_registerSymbolId (id : ReflectionId) (s t : Symbol) :
    (p.registerSymbolId id s).indexed t =
      if s = t then enterOnce (p.indexed t) id else p.indexed t := by
  refine (indexed_insert (p := p) rfl).trans ?_
  split
  · next heq => rw [heq, enterOnce]
  · rfl

theorem mem_indexed_registerSymbolId :
    i ∈ (p.registerSymbolId id s).indexed t ↔ i ∈ p.indexed t ∨ (i = id ∧ t = s) := by
  rw [indexed_registerSymbolId]
  by_cases h : s = t
  · rw [if_pos h, mem_enterOnce]
    simp only [h, and_true]
  · rw [if_neg h]
    simp only [Ne.symm h, and_false, or_false]

theorem symbolOf?_registerSymbolId :
    (p.registerSymbolId id s).symbolOf? i = if i = id then some s else p.symbolOf? i := by
  rw [symbolOf?, symbolOf?, registerSymbolId]
  by_cases h : i = id
  · rw [if_pos h, h, Assoc.lookup_insert_self]
  · rw [if_neg h, Assoc.lookup_insert_of_ne h]

/-! ### Narrowing -/

/-- The entries of a symbol that go when a reflection is registered under it: when the reflection is a
member and one of the entries has another parent than it has, those that belong to no reflection of the
declaring symbol. -/
def inheritedCopies (p : Project) (id : ReflectionId) (declared : DeclaredSymbol) :
    List ReflectionId :=
  match p.get? id, declared.parent.bind (p.symbolIndex.lookup ·) with
  | some r, some declaring =>
    if r.kind.isIn .classMember && (p.indexed declared.symbol).any fun i => p.parent? i ≠ r.parent then
      (p.indexed declared.symbol).filter fun i => !(p.parent? i).any (· ∈ declaring)
    else []
  | _, _ => []

/-- The entries that stay are those that are not dropped. -/
theorem indexed_narrowed {r : Reflection} (hr : p.get? id = some r) :
    ({ p with symbolIndex := p.narrowed r declared } : Project).indexed t =
      if declared.symbol = t then (p.indexed t).filter (· ∉ p.inheritedCopies id declared)
      else p.indexed t := by
  -- Entries are dropped in one case only, so the others come to this.
  have hkept (hsame : p.narrowed r declared = p.symbolIndex)
      (hnone : p.inheritedCopies id declared = []) :
      ({ p with symbolIndex := p.narrowed r declared } : Project).indexed t =
        if declared.symbol = t then (p.indexed t).filter (· ∉ p.inheritedCopies id declared)
        else p.indexed t := by
    rw [hsame, hnone]
    split
    · rw [List.filter_eq_self.mpr fun _ _ => by simp]
    · rfl
  cases hdeclaring : declared.parent.bind (p.symbolIndex.lookup ·) with
  | none =>
    refine hkept ?_ (by rw [inheritedCopies, hr, hdeclaring])
    rw [narrowed, hdeclaring]
    cases p.symbolIndex.lookup declared.symbol <;> rfl
  | some declaring =>
    cases hentries : p.symbolIndex.lookup declared.symbol with
    | none =>
      refine hkept (by rw [narrowed, hentries]) ?_
      rw [inheritedCopies, hr, hdeclaring, indexed_eq_nil hentries]
      exact ite_self _
    | some entries =>
      have hindexed := indexed_of_lookup hentries
      by_cases hinherited :
          (r.kind.isIn .classMember && entries.any fun i => p.parent? i ≠ r.parent) = true
      · have hcopies : p.inheritedCopies id declared =
            entries.filter fun i => !(p.parent? i).any (· ∈ declaring) := by
          rw [inheritedCopies, hr, hdeclaring, hindexed]
          exact if_pos hinherited
        have hnarrowed : p.narrowed r declared =
            Assoc.insert declared.symbol (p.declaredEntries declaring entries) p.symbolIndex := by
          rw [narrowed, hentries, hdeclaring]
          exact if_pos hinherited
        rw [indexed_insert hnarrowed]
        split
        · next heq =>
          rw [← heq, hindexed, hcopies, declaredEntries]
          refine List.filter_congr fun i hi => ?_
          simp [List.mem_filter, hi]
        · rfl
      · refine hkept ?_ ?_
        · rw [narrowed, hentries, hdeclaring]
          exact if_neg hinherited
        · rw [inheritedCopies, hr, hdeclaring, hindexed]
          exact if_neg hinherited

/-! ### Purging -/

theorem indexed_purgeSymbol (p : Project) (id : ReflectionId) (t : Symbol) :
    (p.purgeSymbol id).indexed t =
      if p.symbolOf? id = some t then (p.indexed t).filter (· ≠ id) else p.indexed t := by
  rw [symbolOf?]
  cases hs : p.symbols.lookup id with
  | none =>
    rw [purgeSymbol, hs]
    rfl
  | some s =>
    simp only [Option.some.injEq]
    cases hids : p.symbolIndex.lookup s with
    | none =>
      have hindex : (p.purgeSymbol id).symbolIndex = p.symbolIndex := by
        simp only [purgeSymbol, hs, hids]
      rw [indexed, hindex, ← indexed]
      split
      · next heq => rw [← heq, indexed_eq_nil hids, List.filter_nil]
      · rfl
    | some ids =>
      have hindexed := indexed_of_lookup hids
      by_cases hempty : (ids.filter (· ≠ id)).isEmpty = true
      · have hindex : (p.purgeSymbol id).symbolIndex = Assoc.erase s p.symbolIndex := by
          simp only [purgeSymbol, hs, hids, if_pos hempty]
        rw [indexed_erase hindex]
        split
        · next heq => rw [← heq, hindexed, List.isEmpty_iff.mp hempty]
        · rfl
      · have hindex : (p.purgeSymbol id).symbolIndex =
            Assoc.insert s (ids.filter (· ≠ id)) p.symbolIndex := by
          simp only [purgeSymbol, hs, hids, if_neg hempty]
        rw [indexed_insert hindex]
        split
        · next heq => rw [← heq, hindexed]
        · rfl

end Project

end DocTree
