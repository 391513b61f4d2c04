import DocTree.Proofs.Registry.Symbols
import DocTree.Proofs.Registry.Structural
import DocTree.Proofs.Writing.Reach

/-!
What a project that was built by the operations of its registry is written as. Every reflection that is
linked to the root stands in the output, as often as it is held, and no other; and the output mentions
no number of a reflection that was removed.
-/

namespace DocTree.Project

variable {p : Project} {name root : String} {ids : List ReflectionId}

/-! ### Runs -/

/-- A run that leaves slots to the registry, and in which symbols are registered for registered
reflections. -/
abbrev Run.Tidy (name : String) (ids : List ReflectionId) (p : Project) : Prop :=
  Run (fun p c => p.Proper c ∧ p.Indexing c) (ofName name) ids p

theorem SymbolRun.of_run (hrun : Run.Tidy name ids p) : ∃ dropped left, SymbolRun name p dropped left := by
  generalize hstart : ofName name = start at hrun
  induction hrun with
  | refl =>
    subst hstart
    exact ⟨[], [], .new⟩
  | step _ hc hq ih =>
    obtain ⟨dropped, left, hsymbols⟩ := ih
    exact ⟨_, _, hsymbols.step hc.2 hq⟩

theorem Catalogued.symbolMap {dropped left : List (ReflectionId × Symbol)}
    (h : Catalogued p dropped left) : ∀ entry ∈ p.symbolMap, p.contains entry.1 = true := by
  intro entry hentry
  have hmem : entry ∈ p.symbols := (List.mergeSort_perm ..).mem_iff.mp hentry
  cases hs : p.symbolOf? entry.1 with
  | some s => exact h.held _ s hs
  | none =>
    have hne := List.lookup_eq_none_iff.mp hs entry hmem
    exact absurd hne (by simp)

theorem Linked.parented (h : p.Linked) (hp : p.Sound) : p.Parented where
  child i r hr x hx := by
    obtain ⟨role, hrole⟩ := Variant.mem_childIds.mp hx
    exact (h i r role x hr hrole).1
  top := by
    obtain ⟨r, hr, -, hparent⟩ := hp.numbered.root
    rw [parent?_of_get? hr, hparent]

/-! ### The output -/

/-- Writing a project ends, and its output covers the reflections that are linked to the root. -/
structure Covered (p : Project) (root : String) (output : Json) : Prop where
  /-- Every chain of slots and types from the root ends. -/
  ends : Acc (fun j i => p.Child i j) ReflectionId.project
  /-- On these chains a reflection is written by writing what is inside it, however deep that is. -/
  step : ∀ i, Relation.ReflTransGen p.Child ReflectionId.project i →
    Writer.reflection ⟨.standard, p, root⟩ i =
      Writer.step ⟨.standard, p, root⟩ (Writer.reflection ⟨.standard, p, root⟩) i
  whole : Writer.reflection ⟨.standard, p, root⟩ ReflectionId.project = some output
  /-- The reflections in the output are those on the chains. -/
  linked : ∀ i, i ∈ output.reflectionIds ↔ Relation.ReflTransGen p.Child ReflectionId.project i
  once : output.reflectionIds.count ReflectionId.project = 1
  /-- Each but the root is written once for each place in which its parent holds it, wherever the
  parent is written. -/
  places : ∀ j, j ≠ ReflectionId.project → output.reflectionIds.count j =
    (p.parent? j).elim 0 fun i => output.reflectionIds.count i * (p.childrenOf i).count j

end DocTree.Project
