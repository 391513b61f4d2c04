import DocTree.Proofs.Reading.Works
import DocTree.Proofs.Registry.SymbolIndex

/-!
The end of the second pass. Once all work about reflections is done, symbols and owners are entered
under the new numbers, and what has none is reported. `Settled` says what the whole second pass leaves.
-/

namespace DocTree

/-! ### Symbols and owners -/

theorem mem_foldl_enterOnce {ids before : List ReflectionId} {i : ReflectionId} :
    i ∈ ids.foldl enterOnce before ↔ i ∈ before ∨ i ∈ ids := by
  induction ids generalizing before with
  | nil => simp
  | cons id rest ih => rw [List.foldl_cons, ih, mem_enterOnce, List.mem_cons, or_assoc]

namespace Project

/-- Reflections entered under their symbols, one after the other. -/
def enterSymbols (p : Project) (entries : List (ReflectionId × Symbol)) : Project :=
  entries.foldl (fun p entry => p.registerSymbolId entry.1 entry.2) p

variable {p : Project} {entries : List (ReflectionId × Symbol)}

theorem arena_enterSymbols : (p.enterSymbols entries).arena = p.arena := by
  induction entries generalizing p with
  | nil => rfl
  | cons entry rest ih => exact ih (p := p.registerSymbolId entry.1 entry.2)

theorem files_enterSymbols : (p.enterSymbols entries).files = p.files := by
  induction entries generalizing p with
  | nil => rfl
  | cons entry rest ih => exact ih (p := p.registerSymbolId entry.1 entry.2)

theorem symbols_enterSymbols : (p.enterSymbols entries).symbols =
    entries.foldl (fun table entry => Assoc.insert entry.1 entry.2 table) p.symbols := by
  induction entries generalizing p with
  | nil => rfl
  | cons entry rest ih => exact ih (p := p.registerSymbolId entry.1 entry.2)

/-- What is entered under a symbol stands behind what was there, each number once. -/
theorem indexed_enterSymbols (p : Project) (entries : List (ReflectionId × Symbol)) (s : Symbol) :
    (p.enterSymbols entries).indexed s =
      ((entries.filter (·.2 = s)).map (·.1)).foldl enterOnce (p.indexed s) := by
  induction entries generalizing p with
  | nil => rfl
  | cons entry rest ih =>
    have hrest := ih (p.registerSymbolId entry.1 entry.2)
    rw [indexed_registerSymbolId] at hrest
    refine hrest.trans ?_
    by_cases h : entry.2 = s
    · simp only [if_pos h, List.filter_cons, decide_eq_true h, if_true, List.map_cons, List.foldl_cons]
    · simp only [if_neg h, List.filter_cons, decide_eq_false h, Bool.false_eq_true, if_false]

theorem mem_indexed_enterSymbols {i : ReflectionId} {s : Symbol} :
    i ∈ (p.enterSymbols entries).indexed s ↔ i ∈ p.indexed s ∨ (i, s) ∈ entries := by
  induction entries generalizing p with
  | nil => simp [enterSymbols]
  | cons entry rest ih =>
    refine (ih (p := p.registerSymbolId entry.1 entry.2)).trans ?_
    rw [mem_indexed_registerSymbolId, List.mem_cons, Prod.ext_iff, or_assoc]

end Project

namespace Revival

/-- Symbols by the new numbers, where there are such. -/
def symbolEntries (v : Revival) (work : List (Nat × Symbol)) : List (ReflectionId × Symbol) :=
  work.filterMap fun entry => (v.id? entry.1).map (·, entry.2)

/-- What is amiss in a symbol: its reflection has no new number. -/
def symbolIssue? (v : Revival) (entry : Nat × Symbol) : Option Issue :=
  match v.id? entry.1 with
  | none => some (.missingReflection entry.1 .symbolMap)
  | some _ => none

/-- Owners by the new numbers, where there are such. -/
def ownerEntries (v : Revival) (work : List (Nat × Nat)) : List (FileId × ReflectionId) :=
  work.filterMap fun entry => (v.fileId? entry.1).bind fun file => (v.id? entry.2).map (file, ·)

/-- What is amiss in an owner: the file is not listed, or the reflection has no new number. -/
def ownerIssue? (v : Revival) (entry : Nat × Nat) : Option Issue :=
  match v.fileId? entry.1, v.id? entry.2 with
  | none, _ => some (.missingFile entry.1)
  | some _, none => some (.missingReflection entry.2 .fileTable)
  | some _, some _ => none

variable {v w : Revival}

theorem foldl_setSymbol (work : List (Nat × Symbol)) : work.foldl Reader.setSymbol v = { v with
    project := v.project.enterSymbols (v.symbolEntries work)
    issues := v.issues ++ work.filterMap v.symbolIssue? } := by
  induction work generalizing v with
  | nil =>
    rw [List.filterMap_nil, List.append_nil]
    rfl
  | cons entry rest ih =>
    rw [List.foldl_cons, ih]
    cases hid : v.id? entry.1 with
    | some id =>
      have hstep : Reader.setSymbol v entry =
          { v with project := v.project.registerSymbolId id entry.2 } := by
        rw [Reader.setSymbol, Revival.expect, hid]
      have hissue : v.symbolIssue? entry = none := by rw [symbolIssue?, hid]
      rw [hstep]
      simp only [symbolEntries, List.filterMap_cons, hid, hissue, Option.map_some]
      rfl
    | none =>
      have hstep : Reader.setSymbol v entry = v.report (.missingReflection entry.1 .symbolMap) := by
        rw [Reader.setSymbol, Revival.expect, hid]
      have hissue : v.symbolIssue? entry = some (.missingReflection entry.1 .symbolMap) := by
        rw [symbolIssue?, hid]
      rw [hstep]
      simp only [symbolEntries, List.filterMap_cons, hid, hissue, Option.map_none, report,
        List.append_assoc, List.singleton_append]
      rfl

theorem foldl_setOwner (work : List (Nat × Nat)) : work.foldl Reader.setOwner v = { v with
    project := { v.project with
      files := (v.ownerEntries work).foldl (fun t e => t.setOwner e.1 e.2) v.project.files }
    issues := v.issues ++ work.filterMap v.ownerIssue? } := by
  induction work generalizing v with
  | nil =>
    rw [List.filterMap_nil, List.append_nil]
    rfl
  | cons entry rest ih =>
    rw [List.foldl_cons, ih]
    cases hfile : v.fileId? entry.1 with
    | none =>
      have hstep : Reader.setOwner v entry = v.report (.missingFile entry.1) := by
        rw [Reader.setOwner, hfile]
      have hissue : v.ownerIssue? entry = some (.missingFile entry.1) := by
        rw [ownerIssue?, hfile]
      rw [hstep]
      simp only [ownerEntries, List.filterMap_cons, hfile, hissue, Option.bind_none, report,
        List.append_assoc, List.singleton_append]
      rfl
    | some file =>
      cases hid : v.id? entry.2 with
      | none =>
        have hstep : Reader.setOwner v entry =
            v.report (.missingReflection entry.2 .fileTable) := by
          rw [Reader.setOwner, hfile, Revival.expect, hid]
        have hissue : v.ownerIssue? entry = some (.missingReflection entry.2 .fileTable) := by
          rw [ownerIssue?, hfile, hid]
        rw [hstep]
        simp only [ownerEntries, List.filterMap_cons, hfile, hid, hissue, Option.bind_some,
          Option.map_none, report, List.append_assoc, List.singleton_append]
        rfl
      | some id =>
        have hstep : Reader.setOwner v entry = { v with
            project := { v.project with files := v.project.files.setOwner file id } } := by
          rw [Reader.setOwner, hfile, Revival.expect, hid]
        have hissue : v.ownerIssue? entry = none := by
          rw [ownerIssue?, hfile, hid]
        rw [hstep]
        simp only [ownerEntries, List.filterMap_cons, hfile, hid, hissue, Option.bind_some,
          Option.map_some]
        rfl

theorem symbolIssues_eq_nil {work : List (Nat × Symbol)}
    (h : ∀ entry ∈ work, (v.id? entry.1).isSome = true) : work.filterMap v.symbolIssue? = [] := by
  refine List.filterMap_eq_nil_iff.mpr fun entry hentry => ?_
  obtain ⟨id, hid⟩ := Option.isSome_iff_exists.mp (h entry hentry)
  rw [symbolIssue?, hid]

theorem ownerIssues_eq_nil {work : List (Nat × Nat)}
    (h : ∀ entry ∈ work, (v.fileId? entry.1).isSome = true ∧ (v.id? entry.2).isSome = true) :
    work.filterMap v.ownerIssue? = [] := by
  refine List.filterMap_eq_nil_iff.mpr fun entry hentry => ?_
  obtain ⟨hfile, hid⟩ := h entry hentry
  obtain ⟨file, hfile⟩ := Option.isSome_iff_exists.mp hfile
  obtain ⟨id, hid⟩ := Option.isSome_iff_exists.mp hid
  rw [ownerIssue?, hfile, hid]

theorem fileId?_congr (h : v.fileIds = w.fileIds) : v.fileId? = w.fileId? := by
  funext old
  rw [fileId?, fileId?, h]

theorem symbolEntries_congr (h : v.ids = w.ids) : v.symbolEntries = w.symbolEntries := by
  funext work
  rw [symbolEntries, symbolEntries, id?_congr h]

theorem symbolIssue?_congr (h : v.ids = w.ids) : v.symbolIssue? = w.symbolIssue? := by
  funext entry
  rw [symbolIssue?, symbolIssue?, id?_congr h]

theorem ownerEntries_congr (hids : v.ids = w.ids) (hfiles : v.fileIds = w.fileIds) :
    v.ownerEntries = w.ownerEntries := by
  funext work
  rw [ownerEntries, ownerEntries, id?_congr hids, fileId?_congr hfiles]

theorem ownerIssue?_congr (hids : v.ids = w.ids) (hfiles : v.fileIds = w.fileIds) :
    v.ownerIssue? = w.ownerIssue? := by
  funext entry
  rw [ownerIssue?, ownerIssue?, id?_congr hids, fileId?_congr hfiles]

end Revival

/-! ### The whole second pass -/

theorem Project.symbolIndex_enterSymbols {p q : Project} (h : p.symbolIndex = q.symbolIndex)
    (entries : List (ReflectionId × Symbol)) :
    (p.enterSymbols entries).symbolIndex = (q.enterSymbols entries).symbolIndex := by
  induction entries generalizing p q with
  | nil => exact h
  | cons entry rest ih =>
    refine ih ?_
    simp only [registerSymbolId, indexed, h]
    congr

/-- The second pass took the state `v` with the works of the queue, the symbols and the owners to the
state `w`. -/
structure Settled (v : Revival) (queue : List Deferred) (symbols : List (Nat × Symbol))
    (owners : List (Nat × Nat)) (w : Revival) : Prop where
  get? : ∀ i, w.project.get? i = (v.project.get? i).map (worked v queue i)
  size : w.project.arena.size = v.project.arena.size
  ids : w.ids = v.ids
  fileIds : w.fileIds = v.fileIds
  symbolIndex : w.project.symbolIndex =
    (v.project.enterSymbols (v.symbolEntries symbols)).symbolIndex
  symbols : w.project.symbols = (v.symbolEntries symbols).foldl
    (fun table entry => Assoc.insert entry.1 entry.2 table) v.project.symbols
  files : w.project.files =
    (v.ownerEntries owners).foldl (fun t e => t.setOwner e.1 e.2) v.project.files

/-- After the work about reflections the symbols and owners are entered. -/
theorem carryOutAll_settled {queue : List Deferred} {v : Revival}
    (h : ∀ d ∈ queue, d.subject?.isSome = true) (symbols : List (Nat × Symbol))
    (owners : List (Nat × Nat)) :
    ∃ u w, Reader.carryOutAll queue v = .ok u ∧
      Reader.carryOutAll (queue ++ [.projectMaps symbols owners]) v = .ok w ∧
      (AllKnown v → (∀ d ∈ queue, d.Known v) → u.issues = v.issues) ∧
      w.issues = u.issues ++ symbols.filterMap v.symbolIssue? ++ owners.filterMap v.ownerIssue? ∧
      Settled v queue symbols owners w := by
  obtain ⟨u, hall, hpatch, hquiet⟩ := carryOutAll_patched (v := v) h
  have hmap : Reader.carryOutAll [.projectMaps symbols owners] u =
      .ok (owners.foldl Reader.setOwner (symbols.foldl Reader.setSymbol u)) := rfl
  refine ⟨u, _, ?_, (hall _).trans hmap, hquiet, ?_, ?_⟩
  · rw [← List.append_nil queue]
    exact hall []
  · rw [Revival.foldl_setSymbol, Revival.foldl_setOwner, ← Revival.symbolIssue?_congr hpatch.ids,
      ← Revival.ownerIssue?_congr hpatch.ids hpatch.fileIds]
    rfl
  · have hentries : u.symbolEntries = v.symbolEntries := Revival.symbolEntries_congr hpatch.ids
    have howners : u.ownerEntries = v.ownerEntries :=
      Revival.ownerEntries_congr hpatch.ids hpatch.fileIds
    rw [Revival.foldl_setSymbol, Revival.foldl_setOwner]
    refine ⟨?_, ?_, hpatch.ids, hpatch.fileIds, ?_, ?_, ?_⟩
    · intro i
      have harena : (u.project.enterSymbols (u.symbolEntries symbols)).get? i = u.project.get? i :=
        Project.get?_of_arena_eq Project.arena_enterSymbols i
      exact harena.trans (hpatch.get? i)
    · exact (congrArg Array.size Project.arena_enterSymbols).trans hpatch.size
    · rw [← hentries]
      exact Project.symbolIndex_enterSymbols hpatch.symbolIndex _
    · rw [← hentries, ← hpatch.symbols]
      exact Project.symbols_enterSymbols
    · rw [← howners, ← hpatch.table]
      change List.foldl _ (u.project.enterSymbols (u.symbolEntries symbols)).files _ = _
      rw [Project.files_enterSymbols]
      rfl

end DocTree
