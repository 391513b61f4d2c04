import DocTree.Proofs.Reading.Passes
import Mathlib.Data.List.Forall2

/-!
Files under other numbers. A project that is read on its own and one that is read into another list the
same files, each in its own table; where a file has another number, it has the same path.
-/

namespace DocTree

/-! ### The same files in two states -/

/-- Two states list the same files: the same old numbers lead to numbers of the same paths. -/
structure SameFiles (v v' : Revival) : Prop where
  root : v'.root = v.root
  paths : ∀ path ∈ v.project.files.paths, path ∈ v'.project.files.paths
  ids : List.Forall₂ (fun a b => a.1 = b.1 ∧ ∃ path, v.project.files.find? path = some a.2 ∧
    v'.project.files.find? path = some b.2) v.fileIds v'.fileIds

theorem Assoc.forall₂_insert {κ ν ν' : Type} [DecidableEq κ] {R : ν → ν' → Prop} {key : κ} {a : ν}
    {b : ν'} {table : List (κ × ν)} {table' : List (κ × ν')}
    (h : List.Forall₂ (fun x y => x.1 = y.1 ∧ R x.2 y.2) table table') (hR : R a b) :
    List.Forall₂ (fun x y => x.1 = y.1 ∧ R x.2 y.2) (insert key a table) (insert key b table') := by
  induction h with
  | nil => exact .cons ⟨rfl, hR⟩ .nil
  | @cons x y rest rest' hxy hrest ih =>
    obtain ⟨k, a'⟩ := x
    obtain ⟨k', b'⟩ := y
    obtain rfl : k = k' := hxy.1
    rw [insert, insert]
    split
    · exact .cons ⟨rfl, hR⟩ hrest
    · exact .cons hxy ih

theorem SameFiles.fileEntry {v v' : Revival} (h : SameFiles v v') (entry : String × Json) :
    SameFiles (Reader.fileEntry v entry) (Reader.fileEntry v' entry) := by
  rw [Reader.fileEntry, Reader.fileEntry]
  cases Reader.word? entry.1 with
  | none => exact h
  | some old =>
    cases entry.2.asString? with
    | none => exact h
    | some path =>
      simp only [h.root]
      refine ⟨rfl, ?_, ?_⟩
      · intro p hp
        rw [FileTable.mem_paths_register] at hp ⊢
        exact hp.imp_left (h.paths p)
      · let text := (Path.resolve v.root path).text
        let table := (v.project.files.register text).1
        let table' := (v'.project.files.register text).1
        refine Assoc.forall₂_insert
          (R := fun a b => ∃ p, table.find? p = some a ∧ table'.find? p = some b) (h.ids.imp ?_)
          ⟨FileTable.named text, FileTable.find?_register .., FileTable.find?_register ..⟩
        rintro a b ⟨hkey, p, ha, hb⟩
        exact ⟨hkey, p, FileTable.find?_of_prefix (FileTable.prefix_register ..) ha,
          FileTable.find?_of_prefix (FileTable.prefix_register ..) hb⟩

/-- Where the same files are listed, one numbering is a renaming of the other. -/
theorem SameFiles.exists_renaming {v v' : Revival} (h : SameFiles v v') :
    ∃ file : FileId → FileId, v'.fileIds = v.fileIds.map (fun entry => (entry.1, file entry.2)) ∧
      ∀ f path, v.project.files.path? f = some path → v'.project.files.path? (file f) = some path := by
  -- A file keeps its path.
  obtain ⟨file, hfile⟩ : ∃ file : FileId → FileId, ∀ f path f', v.project.files.path? f = some path →
      v'.project.files.find? path = some f' → file f = f' := by
    refine ⟨fun f => ((v.project.files.path? f).bind v'.project.files.find?).getD f, ?_⟩
    intro f path f' hpath hfind
    simp only [hpath, Option.bind_some, hfind, Option.getD_some]
  refine ⟨file, ?_, ?_⟩
  · have hids := h.ids
    revert hids
    generalize v.fileIds = ids, v'.fileIds = ids'
    intro hids
    induction hids with
    | nil => rfl
    | @cons a b rest rest' hab hrest ih =>
      obtain ⟨hkey, path, ha, hb⟩ := hab
      rw [List.map_cons, ← ih, hfile a.2 path b.2 (FileTable.path?_of_find? ha) hb]
      exact congrArg (· :: rest') (Prod.ext hkey.symm rfl)
  · intro f path hpath
    obtain ⟨f', hf'⟩ := FileTable.exists_find? (h.paths path (FileTable.mem_paths_of_path? hpath))
    rw [hfile f path f' hpath hf']
    exact FileTable.path?_of_find? hf'

/-- The files are listed before the tree is read, whatever was registered before. -/
theorem sameFiles_opened (p p' : Project) (hp : p.files.paths = []) (n n' : ReflectionId)
    (fields : Fields) (root : String) :
    SameFiles (Reader.opened p n fields root) (Reader.opened p' n' fields root) := by
  have hstart : ∀ v v' : Revival, SameFiles v v' → ∀ entries : Fields,
      SameFiles (entries.foldl Reader.fileEntry v) (entries.foldl Reader.fileEntry v') := by
    intro v v' hv entries
    induction entries generalizing v v' with
    | nil => exact hv
    | cons entry rest ih => exact ih _ _ (hv.fileEntry entry)
  rw [Reader.opened, Reader.opened, Reader.fileEntries, Reader.fileEntries]
  refine hstart _ _ ?_ _
  have hempty : ∀ path ∈ p.files.paths, path ∈ p'.files.paths := by
    intro path hpath
    rw [hp] at hpath
    cases hpath
  cases fields.word? "id" <;> exact ⟨rfl, hempty, .nil⟩

/-- Listing files drops none. -/
theorem prefix_opened (p : Project) (n : ReflectionId) (fields : Fields) (root : String) :
    p.files.paths <+: (Reader.opened p n fields root).project.files.paths := by
  have hfold : ∀ (entries : Fields) (v : Revival), v.project.files.paths <+:
      (entries.foldl Reader.fileEntry v).project.files.paths := by
    intro entries v
    induction entries generalizing v with
    | nil => exact List.prefix_refl _
    | cons entry rest ih =>
      refine List.IsPrefix.trans ?_ (ih (Reader.fileEntry v entry))
      rw [Reader.fileEntry]
      split
      · exact FileTable.prefix_register ..
      · exact List.prefix_refl _
  rw [Reader.opened, Reader.fileEntries]
  refine List.IsPrefix.trans ?_ (hfold _ _)
  cases fields.word? "id" <;> exact List.prefix_refl _

end DocTree
