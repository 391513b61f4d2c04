import DocTree.Proofs.RoundTrip.Lasting
import DocTree.Proofs.RoundTrip.Shelf

/-!
The maps of a project, written and read again. Where everything that is entered is there, and paths and
symbols are found again as they are, every file keeps its number, and symbols and owners are entered
again under the new numbers of their reflections.
-/

namespace DocTree

/-- The files, symbols and owners of a project are registered and found again as they are. -/
structure Project.Mapped (p : Project) (root : String) : Prop where
  kept : ∀ path ∈ p.files.paths, path.Kept root
  filesNodup : p.files.paths.Nodup
  filesSmall : p.files.size < Json.wordBound
  owners : ∀ entry ∈ p.files.owners, (p.files.path? entry.1).isSome = true ∧
    p.contains entry.2 = true
  ownersNodup : (p.files.owners.map (·.1)).Nodup
  symbols : ∀ entry ∈ p.symbols, p.contains entry.1 = true ∧ entry.2.reread root = entry.2
  symbolsNodup : (p.symbols.map (·.1)).Nodup

namespace Project

variable {p : Project} {root : String} {μ : Renaming} {clean : Prop} {spots : List Copying.Spot}
  {w : Revival}

theorem nodup_symbolMap (h : (p.symbols.map (·.1)).Nodup) : (p.symbolMap.map (·.1)).Nodup :=
  ((List.mergeSort_perm _ _).map _).nodup_iff.mpr h

namespace Mapped

/-! ### What is written -/

theorem symbol (h : p.Mapped root) {entry : ReflectionId × Symbol} (hentry : entry ∈ p.symbolMap) :
    p.contains entry.1 = true ∧ entry.2.reread root = entry.2 :=
  h.symbols entry (List.mem_mergeSort.mp hentry)

theorem fileCopy (h : p.Mapped root) : (Copying.ofProject p root).fileCopy =
    (⟨p.files.paths, [], [], [], []⟩, Copying.sameFiles p.files.size) :=
  Copying.fileCopy_of_kept (c := .ofProject p root) h.kept h.filesNodup h.filesSmall

theorem file_lt_wordBound (h : p.Mapped root) {file : FileId}
    (hfile : (p.files.path? file).isSome = true) : file < Json.wordBound := by
  obtain ⟨path, hpath⟩ := Option.isSome_iff_exists.mp hfile
  exact Nat.lt_of_le_of_lt (FileTable.le_size_of_path? hpath) h.filesSmall

/-- Every file has its number again. -/
theorem lookup_fileCopy (h : p.Mapped root) {file : FileId}
    (hfile : (p.files.path? file).isSome = true) :
    (Copying.ofProject p root).fileCopy.2.lookup file = some file := by
  obtain ⟨path, hpath⟩ := Option.isSome_iff_exists.mp hfile
  rw [FileTable.path?] at hpath
  split at hpath
  · next hfirst =>
    have hlt : file - FileId.first < p.files.size := (List.getElem?_eq_some_iff.mp hpath).1
    rw [h.fileCopy, ← Nat.sub_add_cancel hfirst]
    exact Copying.lookup_sameFiles hlt
  · cases hpath

theorem file? (h : p.Mapped root) {file : FileId} (hfile : (p.files.path? file).isSome = true) :
    (Copying.ofProject p root).file? file = some file := by
  rw [Copying.file?, if_pos (h.file_lt_wordBound hfile), Copying.files_ofProject]
  exact h.lookup_fileCopy hfile

theorem symbolWork (h : p.Mapped root) (hsmall : p.arena.size ≤ Json.wordBound) :
    (Copying.ofProject p root).symbolWork = p.symbolMap := by
  have hkept : p.symbolMap.filter (·.1 < Json.wordBound) = p.symbolMap :=
    List.filter_eq_self.mpr fun entry hentry =>
      decide_eq_true (Nat.lt_of_lt_of_le (lt_size_of_contains (h.symbol hentry).1) hsmall)
  change (p.symbolMap.filter (·.1 < Json.wordBound)).map _ = _
  rw [hkept]
  exact Ty.map_of_id fun entry hentry => Prod.ext rfl (h.symbol hentry).2

theorem ownerWork (h : p.Mapped root) :
    (Copying.ofProject p root).ownerWork = p.files.owners := by
  have hlive : p.files.owners.filter (fun entry => p.contains entry.2) = p.files.owners :=
    List.filter_eq_self.mpr fun entry hentry => (h.owners entry hentry).2
  have hkept : p.files.owners.filter (·.1 < Json.wordBound) = p.files.owners :=
    List.filter_eq_self.mpr fun entry hentry =>
      decide_eq_true (h.file_lt_wordBound (h.owners entry hentry).1)
  change (p.files.owners.filter fun entry => p.contains entry.2).filter _ = _
  rw [hlive, hkept]

/-! ### What is read -/

variable (h : p.Mapped root) (hsmall : p.arena.size ≤ Json.wordBound)
  (hfollows : (Copying.ofProject p root).Follows w μ)
  (hrevives : (Copying.ofProject p root).Revives clean spots w)

include h

include hrevives in
theorem paths_read : w.project.files.paths = p.files.paths := by
  rw [hrevives.files, FileTable.paths_foldl_setOwner, h.fileCopy]

include hfollows

include hsmall in
/-- Symbols are entered in the order of the old numbers. -/
theorem symbolEntries : w.symbolEntries (Copying.ofProject p root).symbolWork =
    p.symbolMap.map (Prod.map μ.number id) := by
  rw [h.symbolWork hsmall, Revival.symbolEntries, ← List.filterMap_eq_map]
  refine List.filterMap_congr fun entry hentry => ?_
  rw [hfollows.ids _ (h.symbol hentry).1]
  rfl

include hrevives

theorem ownerEntries : w.ownerEntries (Copying.ofProject p root).ownerWork =
    p.files.owners.map μ.entry := by
  rw [h.ownerWork, Revival.ownerEntries, ← List.filterMap_eq_map]
  refine List.filterMap_congr fun entry hentry => ?_
  obtain ⟨hfile, hlive⟩ := h.owners entry hentry
  rw [Revival.fileId?, hrevives.fileIds, h.lookup_fileCopy hfile, hfollows.ids _ hlive]
  rfl

theorem owners_read : w.project.files.owners = p.files.owners.map μ.entry := by
  have hlisted : ∀ entry ∈ p.files.owners.map μ.entry,
      ((Copying.ofProject p root).fileCopy.1.path? entry.1).isSome = true := by
    intro entry hentry
    obtain ⟨old, hold, rfl⟩ := List.mem_map.mp hentry
    rw [h.fileCopy]
    exact (h.owners old hold).1
  have hnodup : (([] ++ p.files.owners.map μ.entry).map Prod.fst).Nodup := by
    rw [List.nil_append, List.map_map]
    exact h.ownersNodup
  rw [hrevives.files, h.ownerEntries hfollows hrevives, FileTable.owners_foldl_setOwner hlisted,
    h.fileCopy, Assoc.foldl_insert_of_nodup hnodup, List.nil_append]

include hsmall

/-- Where different reflections have different new numbers, each has its symbol again. -/
theorem symbols_read (hinj : ∀ x y, p.contains x = true → p.contains y = true →
    μ.number x = μ.number y → x = y) :
    w.project.symbols = p.symbolMap.map (Prod.map μ.number id) := by
  have hnodup : (([] ++ p.symbolMap.map (Prod.map μ.number id)).map Prod.fst).Nodup := by
    have hkeys : (p.symbolMap.map (Prod.map μ.number id)).map Prod.fst =
        (p.symbolMap.map (·.1)).map μ.number := by
      rw [List.map_map, List.map_map]
      rfl
    rw [List.nil_append, hkeys]
    refine List.Nodup.map_on (fun x hx y hy => ?_) (nodup_symbolMap h.symbolsNodup)
    obtain ⟨entry, hentry, rfl⟩ := List.mem_map.mp hx
    obtain ⟨other, hother, rfl⟩ := List.mem_map.mp hy
    exact hinj _ _ (h.symbol hentry).1 (h.symbol hother).1
  rw [hrevives.symbols, h.symbolEntries hsmall hfollows, Assoc.foldl_insert_of_nodup hnodup,
    List.nil_append]

/-- A symbol leads to the new numbers of the reflections that have it, in the order of the old ones. -/
theorem indexed_read (s : Symbol) : w.project.indexed s =
    ((p.symbolMap.filter (·.2 = s)).map fun entry => μ.number entry.1).foldl enterOnce [] := by
  rw [hrevives.indexed, h.symbolEntries hsmall hfollows, List.filter_map, List.map_map]
  rfl

/-- Nothing is amiss in what is read. -/
theorem issues (hclean : clean) : w.issues = [] := by
  refine hrevives.issues hclean (fun x hx => ?_) (fun e he => ?_) fun e he => ?_
  · rw [hfollows.ids x hx]
    rfl
  · rw [h.symbolWork hsmall] at he
    rw [hfollows.ids _ (h.symbol he).1]
    rfl
  · rw [h.ownerWork] at he
    obtain ⟨hfile, hlive⟩ := h.owners e he
    rw [Revival.fileId?, hrevives.fileIds, h.lookup_fileCopy hfile, hfollows.ids _ hlive]
    exact ⟨rfl, rfl⟩

end Mapped

end Project

end DocTree
