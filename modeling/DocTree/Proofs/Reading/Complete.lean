import DocTree.Proofs.Reading.Totality

/-!
What a revived tree looks like. Every reflection stands under a parent that was registered before it,
and a slot names a child of its own, once. A declaration that was registered for a type stands in no
slot when the type is dropped, and that happens only to types that lack a part: where all types that
are described are whole, every reflection stands in exactly one slot.
-/

namespace DocTree

/-! ### The second pass leaves the tree as it is -/

/-- The reflections stand at the same place of the tree and have the same children. -/
structure SamePlace (r s : Reflection) : Prop where
  id : s.id = r.id
  parent : s.parent = r.parent
  slots : s.variant.slots = r.variant.slots

namespace SamePlace

variable {r s t : Reflection}

protected theorem rfl : SamePlace r r := ⟨rfl, rfl, rfl⟩

theorem trans (h : SamePlace r s) (h' : SamePlace s t) : SamePlace r t :=
  ⟨h'.id.trans h.id, h'.parent.trans h.parent, h'.slots.trans h.slots⟩

theorem childIds (h : SamePlace r s) : s.childIds = r.childIds := by
  change s.variant.childIds = r.variant.childIds
  rw [Variant.childIds_eq, Variant.childIds_eq, h.slots]

end SamePlace

theorem Variant.slots_mapTypes {f : Ty → Ty} (h : ∀ t, (f t).declarations = t.declarations)
    (v : Variant) : (v.mapTypes f).slots = v.slots := by
  have hliterals : (v.mapTypes f).literals = v.literals := by
    rw [literals, literals, types_mapTypes, List.flatMap_map]
    exact congrArg List.flatten (List.map_congr_left fun t _ => h t)
  cases v with
  | declaration d | signature d | param d | typeParam d =>
    simp only [mapTypes] at hliterals
    simp only [mapTypes, slots, hliterals]
  | _ => rfl

/-- No work moves a reflection or its children. -/
theorem samePlace_effect (v : Revival) (d : Deferred) (r : Reflection) :
    SamePlace r (d.effect v r) := by
  obtain ⟨number, name, kind, flags, comment, parent, own, data, anchor, counts, variant⟩ := r
  cases d with
  | pendingTargets id =>
    have howns : ∀ t, (Reader.newType v t).declarations = t.declarations := by
      intro t
      exact Ty.declarations_adjust rfl t
    refine ⟨rfl, rfl, Eq.trans ?_ (variant.slots_mapTypes howns)⟩
    cases variant <;> rfl
  | groupings id groups categories => cases variant <;> exact ⟨rfl, rfl, rfl⟩
  | target id old => cases variant <;> exact ⟨rfl, rfl, rfl⟩
  | projectMaps | extension => exact .rfl

theorem samePlace_worked (v : Revival) (queue : List Deferred) (i : ReflectionId) (r : Reflection) :
    SamePlace r (worked v queue i r) := by
  rw [worked]
  generalize queue.filter (·.isAbout i) = works
  induction works generalizing r with
  | nil => exact .rfl
  | cons d rest ih => exact (samePlace_effect v d r).trans (ih (d.effect v r))

/-! ### Revived trees -/

/-- The tree of a revived project. Slots name children of their own, each once; every reflection but the
root has a parent that was registered before it, which holds it at most once, and exactly once if `W`
holds. -/
structure Project.Arranged (p : Project) (W : Prop) : Prop where
  root : ∃ r, p.get? ReflectionId.project = some r ∧ r.parent = none
  child : ∀ i r, p.get? i = some r → r.childIds.Nodup ∧
    ∀ c ∈ r.childIds, ∃ t, p.get? c = some t ∧ t.parent = some i
  held : ∀ i t, p.get? i = some t → i ≠ ReflectionId.project → ∃ j r, t.parent = some j ∧ j < i ∧
    p.get? j = some r ∧ r.childIds.count i ≤ 1 ∧ (W → r.childIds.count i = 1)

namespace FirstPass

variable {W : Prop} {name root : String} {fields : Fields} {r : Reflection} {y : Crop} {σ : Reading}

/-- Every reflection holds a family of the block. -/
theorem family (h : FirstPass W (.ofName name) ReflectionId.project fields root r y σ) {i : Nat}
    {t : Reflection} (ht : σ.revival.project.get? i = some t) : Family W y.block i t.childIds := by
  rcases h.cases ht with ⟨rfl, rfl⟩ | ⟨hi, hne, -⟩ | ⟨hmem, rfl, -⟩
  · exact h.sound.grove.own
  · exact absurd (Nat.lt_one_iff.mp hi) hne
  · exact h.sound.grove.kids t hmem

theorem arranged (h : FirstPass W (.ofName name) ReflectionId.project fields root r y σ)
    (hparent : r.parent = none) : σ.revival.project.Arranged W where
  root := ⟨r, h.get?_self, hparent⟩
  child := by
    intro i t ht
    have hfamily := h.family ht
    refine ⟨hfamily.nodup, ?_⟩
    intro c hc
    obtain ⟨u, hu, rfl, hparent⟩ := hfamily.child c hc
    exact ⟨u, h.get?_mem hu, hparent⟩
  held := by
    intro i t ht hi
    rcases h.cases ht with ⟨rfl, -⟩ | ⟨hlt, hne, -⟩ | ⟨hmem, rfl, hbase⟩
    · exact absurd rfl hi
    · exact absurd (Nat.lt_one_iff.mp hlt) hne
    · have hup : ∃ j u, t.parent = some j ∧ j < t.id ∧ σ.revival.project.get? j = some u := by
        rcases h.sound.grove.parent t hmem with hroot | ⟨u, hu, hparent, hlt⟩
        · exact ⟨_, r, hroot, hbase, h.get?_self⟩
        · exact ⟨_, u, hparent, hlt, h.get?_mem hu⟩
      obtain ⟨j, u, hparent, hlt, hu⟩ := hup
      have hfamily := h.family hu
      refine ⟨j, u, hparent, hlt, hu, List.nodup_iff_count.mp hfamily.nodup _, ?_⟩
      intro hW
      rw [List.Nodup.count hfamily.nodup, if_pos (hfamily.full hW t hmem hparent)]

end FirstPass

/-- The second pass keeps the tree arranged. -/
theorem Project.Arranged.settled {W : Prop} {v w : Revival} {queue : List Deferred}
    {symbols : List (Nat × Symbol)} {owners : List (Nat × Nat)} (h : v.project.Arranged W)
    (hw : Settled v queue symbols owners w) : w.project.Arranged W := by
  -- What is registered afterwards was registered before, at the same place, and the reverse.
  have hback : ∀ i t, w.project.get? i = some t → ∃ s, v.project.get? i = some s ∧ SamePlace s t := by
    intro i t ht
    rw [hw.get?] at ht
    obtain ⟨s, hs, rfl⟩ := Option.map_eq_some_iff.mp ht
    exact ⟨s, hs, samePlace_worked ..⟩
  have hforth : ∀ i s, v.project.get? i = some s → ∃ t, w.project.get? i = some t ∧ SamePlace s t := by
    intro i s hs
    exact ⟨worked v queue i s, by rw [hw.get?, hs]; rfl, samePlace_worked ..⟩
  refine ⟨?_, ?_, ?_⟩
  · obtain ⟨s, hs, hparent⟩ := h.root
    obtain ⟨t, ht, hsame⟩ := hforth _ s hs
    exact ⟨t, ht, hsame.parent.trans hparent⟩
  · intro i t ht
    obtain ⟨s, hs, hsame⟩ := hback i t ht
    obtain ⟨hnodup, hchild⟩ := h.child i s hs
    rw [hsame.childIds]
    refine ⟨hnodup, ?_⟩
    intro c hc
    obtain ⟨u, hu, hparent⟩ := hchild c hc
    obtain ⟨u', hu', hsame'⟩ := hforth c u hu
    exact ⟨u', hu', hsame'.parent.trans hparent⟩
  · intro i t ht hi
    obtain ⟨s, hs, hsame⟩ := hback i t ht
    obtain ⟨j, u, hparent, hlt, hu, hcount⟩ := h.held i s hs hi
    obtain ⟨u', hu', hsame'⟩ := hforth j u hu
    refine ⟨j, u', hsame.parent.trans hparent, hlt, hu', ?_⟩
    rw [hsame'.childIds]
    exact hcount

/-- Every tree that is revived is arranged; where the types that are described are whole, every
reflection but the root stands in exactly one slot. -/
theorem revived_arranged {value : Json} {name : Option String} {root : String} {q : Revived}
    (h : Deserializer.standard.revive value name root = .ok q) : q.project.Arranged value.Whole := by
  obtain ⟨ids, hread⟩ := reviveWithIds_of_revive h
  obtain ⟨fields, r, y, σ, u, v, rfl, hcourse, rfl, rfl⟩ := course_of_reviveWithIds hread
  exact (hcourse.first.arranged hcourse.parent).settled hcourse.settled

/-- A project with a declaration and a reference to it. -/
def pair : Json := .obj
  [("variant", .str "project"), ("name", .str "p"), ("children", .arr
    [.obj [("variant", .str "declaration"), ("name", .str "A"), ("id", .ofNat 7)],
     .obj [("variant", .str "reference"), ("name", .str "B"), ("target", .ofNat 7)]])]

theorem revived_arranged_pair : ∃ q, Deserializer.standard.revive pair none "/repo" = .ok q ∧
    q.project.Arranged pair.Whole := by
  have hsome : (Deserializer.standard.revive pair none "/repo").isOk = true := by decide +kernel
  cases h : Deserializer.standard.revive pair none "/repo" with
  | error reason =>
    rw [h] at hsome
    cases hsome
  | ok q => exact ⟨q, rfl, revived_arranged h⟩

/-! ### A type that lacks a part -/

/-- A project with one declaration. Of the four parts of its type only one is described, which owns a
declaration. -/
def unfinished : Json := .obj
  [("variant", .str "project"), ("name", .str "p"), ("children", .arr [.obj
    [("variant", .str "declaration"), ("name", .str "A"), ("kind", .ofNat 2097152), ("type", .obj
      [("type", .str "conditional"), ("checkType", .obj
        [("type", .str "reflection"), ("declaration", .obj
          [("variant", .str "declaration"), ("name", .str "__type"), ("kind", .ofNat 65536)])])])]])]

/-- Three reflections are registered; the last one is a child of the second, which holds nothing. -/
theorem revived_unfinished :
    ((Deserializer.standard.revive unfinished none "/repo").toOption.map fun q =>
      (q.project.parent? 2, q.project.reflections.map Reflection.childIds)) =
        some (some 1, [[1], [], []]) := by
  decide +kernel

/-- Not every reflection of a revived project stands in exactly one slot of its parent. -/
theorem not_forall_held : ¬ ∀ (value : Json) (name : Option String) (root : String) (q : Revived),
    Deserializer.standard.revive value name root = .ok q → ∀ i t, q.project.get? i = some t →
      i ≠ ReflectionId.project → ∃ j r, t.parent = some j ∧ q.project.get? j = some r ∧
        r.childIds.count i = 1 := by
  intro h
  obtain ⟨q, hq, hfacts⟩ := Option.map_eq_some_iff.mp revived_unfinished
  obtain ⟨hparent, hkids⟩ := Prod.mk.inj hfacts
  have hread : Deserializer.standard.revive unfinished none "/repo" = .ok q := by
    cases hr : Deserializer.standard.revive unfinished none "/repo" with
    | error reason =>
      rw [hr] at hq
      cases hq
    | ok q' =>
      rw [hr] at hq
      rw [Option.some.inj hq]
  obtain ⟨t, ht, -⟩ := Option.bind_eq_some_iff.mp hparent
  obtain ⟨j, r, -, hr, hcount⟩ := h _ _ _ q hread 2 t ht (by decide)
  have hmem : r.childIds ∈ q.project.reflections.map Reflection.childIds :=
    List.mem_map_of_mem (Project.mem_reflections.mpr ⟨j, hr⟩)
  rw [hkids] at hmem
  have hnone : ∀ kids ∈ [[1], [], []], List.count 2 kids = 0 := by decide
  rw [hnone _ hmem] at hcount
  cases hcount

end DocTree
