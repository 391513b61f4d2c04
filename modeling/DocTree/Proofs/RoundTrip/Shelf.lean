import DocTree.Proofs.Reading.Files
import DocTree.Proofs.RoundTrip.Landed

/-!
The files of a project that was read. Their paths stay when they are written and read again, no two are
the same, and none has an anchor; so they are registered again in the same order and get the numbers
that they had.
-/

namespace DocTree

/-- A cleaned path that stays when it is written and read again, and has no anchor. -/
structure Path.Kept (root : String) (p : Path) : Prop where
  cleaned : ∃ r S, p.Cleaned r S
  stays : reread root p = p
  whole : '#' ∉ p.text.toList

theorem FileTable.named_of_kept {root : String} {p : Path} (h : p.Kept root) : named p.text = p := by
  obtain ⟨r, S, hcleaned⟩ := h.cleaned
  rw [named, splitAnchor, Text.cutFirst_eq_none.mpr h.whole]
  exact hcleaned.ofText

/-- A path that is not known gets the next number. -/
theorem FileTable.register_of_kept {root : String} {t : FileTable} {p : Path} (hp : p.Kept root)
    (hnew : p ∉ t.paths) : t.register p.text =
      (⟨t.paths ++ [p], t.owners, t.owned, t.names, t.usage⟩, ⟨t.size + FileId.first, none⟩) := by
  have hnone : t.find? p = none := by
    rw [find?, Option.map_eq_none_iff, List.findIdx?_eq_none_iff]
    exact fun q hq => decide_eq_false fun heq => hnew (heq ▸ hq)
  have hnamed := named_of_kept hp
  rw [named] at hnamed
  have hanchor : (splitAnchor p.text).2 = none := by
    rw [splitAnchor, Text.cutFirst_eq_none.mpr hp.whole]
  simp only [register, hnamed, hnone, hanchor]

namespace Copying

variable {c : Copying}

/-- The path under which a file is registered again. -/
theorem kept_named_filePath (hroot : Path.Rooted c.root) {path : Path} (h : path.Absolute) :
    (FileTable.named (c.filePath path)).Kept c.root := by
  obtain ⟨⟨r, S, hcleaned⟩, hstays⟩ := h.reread hroot
  obtain ⟨S', hcut, hreread, hwhole⟩ := Path.cut_of_reread hroot hcleaned hstays
  exact ⟨⟨r, S', hcut⟩, hreread, hwhole⟩

/-! ### The first time -/

/-- Files that were registered anew: their paths differ and are kept, the new numbers are theirs, and
there are no more of them than were read. -/
structure Shelved (c : Copying) (n : Nat) (state : FileTable × List (Nat × FileId)) : Prop where
  kept : ∀ path ∈ state.1.paths, path.Kept c.root
  nodup : state.1.paths.Nodup
  owners : state.1.owners = []
  ids : ∀ old file, state.2.lookup old = some file → (state.1.path? file).isSome = true
  size : state.1.paths.length ≤ n

theorem Shelved.fileStep {n : Nat} {state : FileTable × List (Nat × FileId)} (h : c.Shelved n state)
    (hroot : Path.Rooted c.root) {entry : FileId × Path} (hentry : entry.2.Absolute) :
    c.Shelved (n + 1) (c.fileStep state entry) := by
  have hkept := kept_named_filePath hroot hentry
  have howners := FileTable.owners_register state.1 (c.filePath entry.2)
  have hfound := FileTable.find?_register state.1 (c.filePath entry.2)
  have hpaths := FileTable.paths_register state.1 (c.filePath entry.2)
  have hprefix := FileTable.prefix_register state.1 (c.filePath entry.2)
  rw [Copying.fileStep]
  -- From here on only what these say of the path and of the new table counts.
  generalize FileTable.named (c.filePath entry.2) = path at *
  generalize state.1.register (c.filePath entry.2) = registered at *
  split
  · refine ⟨fun p hp => ?_, ?_, howners.trans h.owners, fun old file hold => ?_, ?_⟩
    · rw [hpaths] at hp
      split at hp
      · exact h.kept p hp
      · rcases List.mem_append.mp hp with hp | hp
        · exact h.kept p hp
        · exact List.mem_singleton.mp hp ▸ hkept
    · rw [hpaths]
      split
      · exact h.nodup
      · next hnone =>
        refine List.nodup_append.mpr ⟨h.nodup, List.nodup_singleton _, fun p hp q hq heq => hnone ?_⟩
        rw [List.mem_singleton.mp hq] at heq
        exact Option.isSome_iff_exists.mpr (FileTable.exists_find? (heq ▸ hp))
    · by_cases hsame : old = entry.1
      · rw [hsame, Assoc.lookup_insert_self] at hold
        obtain rfl := Option.some.inj hold
        exact Option.isSome_iff_exists.mpr ⟨_, FileTable.path?_of_find? hfound⟩
      · rw [Assoc.lookup_insert_of_ne hsame] at hold
        obtain ⟨p, hp⟩ := Option.isSome_iff_exists.mp (h.ids old file hold)
        exact Option.isSome_iff_exists.mpr ⟨p, FileTable.path?_of_extension hprefix hp⟩
    · rw [hpaths]
      split
      · exact Nat.le_succ_of_le h.size
      · rw [List.length_append]
        exact Nat.succ_le_succ h.size
  · exact ⟨h.kept, h.nodup, h.owners, h.ids, Nat.le_succ_of_le h.size⟩

theorem shelved_fileCopy (hroot : Path.Rooted c.root)
    (hfiles : ∀ path ∈ c.project.files.paths, path.Absolute) :
    c.Shelved c.project.files.size c.fileCopy := by
  have hfold : ∀ (entries : List (FileId × Path)) (n : Nat) (state : FileTable × List (Nat × FileId)),
      (∀ entry ∈ entries, entry.2.Absolute) → c.Shelved n state →
      c.Shelved (n + entries.length) (entries.foldl c.fileStep state) := by
    intro entries
    induction entries with
    | nil => exact fun n state _ h => h
    | cons entry rest ih =>
      intro n state hall h
      have hstep := h.fileStep hroot (hall entry (List.mem_cons_self ..))
      rw [List.length_cons, Nat.add_comm rest.length, ← Nat.add_assoc]
      exact ih (n + 1) _ (fun e he => hall e (List.mem_cons_of_mem entry he)) hstep
  have hlength : c.project.files.entries.length = c.project.files.size := by
    rw [FileTable.entries, List.length_map, List.length_zipIdx, FileTable.size]
  have hall := hfold c.project.files.entries 0 (.empty, []) (fun entry hentry => ?_)
    ⟨fun path hpath => (List.not_mem_nil hpath).elim, List.nodup_nil, rfl,
      fun old file h => (Option.some_ne_none file h.symm).elim, Nat.le_refl 0⟩
  · rwa [Nat.zero_add, hlength] at hall
  · exact hfiles _ (FileTable.mem_paths_of_path? (FileTable.mem_entries.mp hentry))

/-! ### From then on -/

/-- Each of so many files with its own number. -/
def sameFiles (n : Nat) : List (Nat × FileId) :=
  (List.range n).map fun i => (i + FileId.first, i + FileId.first)

theorem sameFiles_succ (n : Nat) : sameFiles (n + 1) =
    Assoc.insert (n + FileId.first) (n + FileId.first) (sameFiles n) := by
  rw [Assoc.insert_of_not_mem, sameFiles, List.range_succ, List.map_append]
  · rfl
  · intro hmem
    rw [sameFiles, List.map_map] at hmem
    obtain ⟨i, hi, heq⟩ := List.mem_map.mp hmem
    exact absurd (Nat.add_right_cancel heq) (Nat.ne_of_lt (List.mem_range.mp hi))

theorem lookup_sameFiles {n i : Nat} (h : i < n) :
    (sameFiles n).lookup (i + FileId.first) = some (i + FileId.first) := by
  induction n with
  | zero => exact absurd h (Nat.not_lt_zero i)
  | succ n ih =>
    rw [sameFiles_succ]
    by_cases heq : i = n
    · rw [heq, Assoc.lookup_insert_self]
    · rw [Assoc.lookup_insert_of_ne fun h => heq (Nat.add_right_cancel h)]
      exact ih (Nat.lt_of_le_of_ne (Nat.le_of_lt_succ h) heq)

/-- Files whose paths are kept are registered again in their order. -/
theorem fileCopy_of_kept (hkept : ∀ path ∈ c.project.files.paths, path.Kept c.root)
    (hnodup : c.project.files.paths.Nodup) (hsize : c.project.files.size < Json.wordBound) :
    c.fileCopy = (⟨c.project.files.paths, [], [], [], []⟩, sameFiles c.project.files.size) := by
  have hfold : ∀ (rest before : List Path), before ++ rest = c.project.files.paths →
      ((rest.zipIdx before.length).map fun entry => (entry.2 + FileId.first, entry.1)).foldl
        c.fileStep (⟨before, [], [], [], []⟩, sameFiles before.length) =
      (⟨c.project.files.paths, [], [], [], []⟩, sameFiles c.project.files.size) := by
    intro rest
    induction rest with
    | nil =>
      intro before hall
      rw [List.append_nil] at hall
      rw [← hall, FileTable.size, ← hall]
      rfl
    | cons path rest ih =>
      intro before hall
      have hpath := hkept path (hall ▸ List.mem_append_right _ (List.mem_cons_self ..))
      have hlt : before.length + FileId.first < Json.wordBound := by
        rw [FileTable.size, ← hall, List.length_append, List.length_cons] at hsize
        exact Nat.lt_of_le_of_lt (Nat.add_le_add_left (Nat.le_add_left ..) _) hsize
      have hnew : path ∉ before := fun hmem =>
        (List.nodup_append.mp (hall ▸ hnodup)).2.2 path hmem path (List.mem_cons_self ..) rfl
      have hwritten : c.filePath path = path.text := congrArg Path.text hpath.stays
      have hstep : c.fileStep (⟨before, [], [], [], []⟩, sameFiles before.length)
          (before.length + FileId.first, path) =
          (⟨before ++ [path], [], [], [], []⟩, sameFiles (before.length + 1)) := by
        rw [fileStep, if_pos hlt, hwritten, FileTable.register_of_kept hpath hnew, sameFiles_succ]
        rfl
      rw [List.zipIdx_cons, List.map_cons, List.foldl_cons, hstep]
      have hrest := ih (before ++ [path]) (by rw [List.append_assoc]; exact hall)
      rwa [List.length_append, List.length_singleton] at hrest
  exact hfold c.project.files.paths [] rfl

end Copying

end DocTree
