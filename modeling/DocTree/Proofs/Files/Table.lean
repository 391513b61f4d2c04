import DocTree.FileTable

/-!
What the table of files says after it was read and written: paths and numbers determine one another,
registering only ever adds a path at the end, and making a reflection the owner of a file changes no
path.
-/

namespace DocTree

namespace FileTable

variable {t t' : FileTable} {path : Path} {file : FileId} {text : String}

theorem path?_of_find? (h : t.find? path = some file) : t.path? file = some path := by
  obtain ⟨i, hi, rfl⟩ := Option.map_eq_some_iff.mp h
  obtain ⟨hlt, hpath, -⟩ := List.findIdx?_eq_some_iff_getElem.mp hi
  have hplace : t.paths[i]? = some path := by
    rw [List.getElem?_eq_getElem hlt, of_decide_eq_true hpath]
  rw [path?, if_pos (Nat.le_add_left ..), Nat.add_sub_cancel, hplace]

theorem mem_paths_of_path? (h : t.path? file = some path) : path ∈ t.paths := by
  rw [path?] at h
  split at h
  · exact List.mem_of_getElem? h
  · cases h

theorem mem_entries : (file, path) ∈ t.entries ↔ t.path? file = some path := by
  rw [entries, List.mem_map, path?]
  constructor
  · rintro ⟨⟨q, i⟩, hmem, heq⟩
    obtain ⟨rfl, rfl⟩ := Prod.mk.inj heq
    rw [List.mk_mem_zipIdx_iff_getElem?] at hmem
    rw [if_pos (Nat.le_add_left ..), Nat.add_sub_cancel]
    exact hmem
  · intro h
    split at h
    · next hle =>
      exact ⟨(path, file - FileId.first), List.mk_mem_zipIdx_iff_getElem?.mpr h,
        Prod.ext (Nat.sub_add_cancel hle) rfl⟩
    · cases h

theorem le_size_of_path? (h : t.path? file = some path) : file ≤ t.size := by
  rw [path?] at h
  split at h
  · exact Nat.le_of_pred_lt (List.getElem?_eq_some_iff.mp h).1
  · cases h

theorem exists_find? (h : path ∈ t.paths) : ∃ file, t.find? path = some file := by
  have hsome : (t.paths.findIdx? (· = path)).isSome = true := by
    rw [List.findIdx?_isSome]
    exact List.any_eq_true.mpr ⟨path, h, decide_eq_true rfl⟩
  obtain ⟨i, hi⟩ := Option.isSome_iff_exists.mp hsome
  exact ⟨_, congrArg (Option.map _) hi⟩

/-- Files that are registered later do not change the numbers of those before. -/
theorem find?_of_prefix (h : t.paths <+: t'.paths) (hfind : t.find? path = some file) :
    t'.find? path = some file := by
  obtain ⟨rest, hrest⟩ := h
  obtain ⟨i, hi, rfl⟩ := Option.map_eq_some_iff.mp hfind
  rw [find?, ← hrest, List.findIdx?_append, hi]
  rfl

theorem path?_of_extension (h : t.paths <+: t'.paths) (hpath : t.path? file = some path) :
    t'.path? file = some path := by
  rw [path?] at hpath ⊢
  split at hpath
  · next hfirst =>
    obtain ⟨hlt, heq⟩ := List.getElem?_eq_some_iff.mp hpath
    rw [if_pos hfirst, List.getElem?_eq_some_iff]
    exact ⟨Nat.lt_of_lt_of_le hlt h.length_le, (h.getElem hlt).symm.trans heq⟩
  · cases hpath

/-- The path that a text names, which may carry an anchor. -/
def named (text : String) : Path := .ofText (splitAnchor text).1

theorem paths_register (t : FileTable) (text : String) : (t.register text).1.paths =
    if (t.find? (named text)).isSome then t.paths else t.paths ++ [named text] := by
  cases h : t.find? (named text) with
  | some file => simp only [register, show t.find? (.ofText _) = _ from h]; rfl
  | none => simp only [register, show t.find? (.ofText _) = _ from h]; rfl

theorem prefix_register (t : FileTable) (text : String) :
    t.paths <+: (t.register text).1.paths := by
  rw [paths_register]
  split
  · exact List.prefix_refl _
  · exact List.prefix_append ..

theorem find?_of_append (h : t.find? path = none) (hpaths : t'.paths = t.paths ++ [path]) :
    t'.find? path = some (t.size + FileId.first) := by
  rw [find?, hpaths, List.findIdx?_append, Option.map_eq_none_iff.mp h, List.findIdx?_singleton,
    if_pos (decide_eq_true rfl)]
  exact congrArg (fun i => some (i + FileId.first)) (Nat.zero_add t.paths.length)

theorem find?_register (t : FileTable) (text : String) :
    (t.register text).1.find? (named text) = some (t.register text).2.file := by
  cases h : t.find? (named text) with
  | some file =>
    simp only [register, show t.find? (.ofText _) = _ from h]
    exact h
  | none =>
    simp only [register, show t.find? (.ofText _) = _ from h]
    exact find?_of_append h rfl

theorem mem_paths_register (t : FileTable) (text : String) :
    path ∈ (t.register text).1.paths ↔ path ∈ t.paths ∨ path = named text := by
  rw [paths_register]
  split
  · next hsome =>
    obtain ⟨file, hfile⟩ := Option.isSome_iff_exists.mp hsome
    have hmem := mem_paths_of_path? (path?_of_find? hfile)
    exact ⟨.inl, fun h => h.elim id fun heq => heq ▸ hmem⟩
  · rw [List.mem_append, List.mem_singleton]

/-- Registering a file makes no reflection an owner. -/
theorem owners_register (t : FileTable) (text : String) : (t.register text).1.owners = t.owners := by
  simp only [register]
  split <;> rfl

/-- Nor does it change what is registered for a reflection. -/
theorem owned_register (t : FileTable) (text : String) : (t.register text).1.owned = t.owned := by
  simp only [register]
  split <;> rfl

theorem paths_foldl_setOwner (entries : List (FileId × ReflectionId)) (t : FileTable) :
    (entries.foldl (fun t e => t.setOwner e.1 e.2) t).paths = t.paths := by
  induction entries generalizing t with
  | nil => rfl
  | cons entry rest ih =>
    have hone : (t.setOwner entry.1 entry.2).paths = t.paths := by
      rw [setOwner]
      split <;> rfl
    exact (ih _).trans hone

/-- Owners do not change which files there are. -/
theorem path?_foldl_setOwner (entries : List (FileId × ReflectionId)) (t : FileTable)
    (file : FileId) : (entries.foldl (fun t e => t.setOwner e.1 e.2) t).path? file = t.path? file := by
  rw [path?, paths_foldl_setOwner, path?]

/-- Files that are listed get their owners. -/
theorem owners_foldl_setOwner {entries : List (FileId × ReflectionId)}
    (h : ∀ entry ∈ entries, (t.path? entry.1).isSome = true) :
    (entries.foldl (fun t e => t.setOwner e.1 e.2) t).owners =
      entries.foldl (fun table e => Assoc.insert e.1 e.2 table) t.owners := by
  induction entries generalizing t with
  | nil => rfl
  | cons entry rest ih =>
    obtain ⟨path, hpath⟩ := Option.isSome_iff_exists.mp (h entry (List.mem_cons_self ..))
    have hone : t.setOwner entry.1 entry.2 = ⟨t.paths, Assoc.insert entry.1 entry.2 t.owners,
        Assoc.insert entry.2 path t.owned, t.names, t.usage⟩ := by
      rw [setOwner, hpath]
    rw [List.foldl_cons, List.foldl_cons, hone]
    exact ih fun e he => h e (List.mem_cons_of_mem entry he)

end FileTable

end DocTree
