import DocTree.Proofs.Files.Numbering
import DocTree.Proofs.Registry.Enrolment

/-!
The tables of a project have keys. Whatever is done with a project and with its files, no reflection has
two symbols, no file two owners and no path two numbers; and no path has an anchor, since anchors are cut
off before a path is registered.
-/

namespace DocTree

/-! ### Files -/

namespace FileTable

/-- No file has two owners, no path two numbers, and no path an anchor. -/
structure Keyed (t : FileTable) : Prop where
  owners : (t.owners.map (·.1)).Nodup
  paths : t.paths.Nodup
  whole : ∀ path ∈ t.paths, '#' ∉ path.text.toList

theorem keyed_empty : empty.Keyed := ⟨List.nodup_nil, List.nodup_nil, List.forall_mem_nil _⟩

namespace Keyed

variable {t : FileTable}

theorem register (h : t.Keyed) (text : String) : (t.register text).1.Keyed where
  owners := owners_register t text ▸ h.owners
  paths := nodup_paths_register h.paths
  whole path hpath := by
    rcases (mem_paths_register t text).mp hpath with hpath | rfl
    · exact h.whole path hpath
    · exact hash_not_mem_named text

theorem setOwner (h : t.Keyed) (file : FileId) (id : ReflectionId) : (t.setOwner file id).Keyed := by
  cases hpath : t.path? file with
  | none => rwa [setOwner_of_path?_eq_none hpath]
  | some path =>
    rw [setOwner_of_path? hpath]
    exact ⟨Assoc.nodup_insert h.owners, h.paths, h.whole⟩

theorem disown (h : t.Keyed) (id : ReflectionId) : (t.disown id).Keyed := by
  have howners : ((t.disown id).owners.map (·.1)).Nodup := by
    rw [FileTable.disown]
    cases t.ownedPath? id with
    | none => exact h.owners
    | some path =>
      dsimp only
      split
      · split
        · exact Assoc.nodup_erase _ h.owners
        · exact h.owners
      · exact h.owners
  exact ⟨howners, paths_disown t id ▸ h.paths, paths_disown t id ▸ h.whole⟩

theorem perform (h : t.Keyed) (c : Command) : (t.perform c).Keyed := by
  cases c with
  | register text => exact h.register text
  | registerLink source link => exact h.register _
  | registerOwned text id => exact (h.register text).setOwner _ id
  | setOwner file id => exact h.setOwner file id
  | disown id => exact h.disown id

/-- Names leave paths and owners as they are, so a table that is asked anything keeps its keys. -/
theorem after (h : t.Keyed) (rs : List Request) : (t.after rs).Keyed :=
  after_induction (fun _ c _ h => h.perform c) (fun t file h =>
    have hsame := sameFiles_name t file
    ⟨hsame.owners ▸ h.owners, hsame.paths ▸ h.paths, hsame.paths ▸ h.whole⟩) h

end Keyed

end FileTable

/-! ### Projects -/

namespace Project

variable {p q : Project} {id : ReflectionId} {s : Symbol}

/-- No reflection has two symbols, and the table of files has its keys. -/
structure Tabled (p : Project) : Prop where
  symbols : (p.symbols.map (·.1)).Nodup
  files : p.files.Keyed

theorem tabled_ofName (name : String) : (ofName name).Tabled :=
  ⟨List.nodup_nil, FileTable.keyed_empty⟩

namespace Tabled

theorem of_eq (h : p.Tabled) (hsymbols : q.symbols = p.symbols) (hfiles : q.files = p.files) :
    q.Tabled :=
  ⟨hsymbols ▸ h.symbols, hfiles ▸ h.files⟩

theorem purgeSymbol (h : p.Tabled) (id : ReflectionId) : (p.purgeSymbol id).Tabled := by
  rw [Project.purgeSymbol]
  split
  · exact h
  · exact ⟨Assoc.nodup_erase id h.symbols, h.files⟩

theorem unindex (h : p.Tabled) (id : ReflectionId) : (p.unindex id).Tabled :=
  ⟨(h.purgeSymbol id).symbols, (h.purgeSymbol id).files.disown id⟩

theorem unlink (h : p.Tabled) (id : ReflectionId) : (p.unlink id).1.Tabled := by
  rw [Project.unlink]
  split
  · exact h
  · exact h.of_eq (by simp) (by simp)

theorem referencing (h : p.Tabled) (id : ReflectionId) : (p.referencing id).1.Tabled := by
  have hsettled := (looked_foldl_settle p.referenceIds p).1
  rw [Project.referencing]
  split
  · exact h.of_eq hsettled.symbols hsettled.files
  · exact h

/-- The tables keep their keys however much goes with a reflection. -/
theorem keeps : Removal.Keeps fun p q => p.Tabled → q.Tabled where
  refl _ h := h
  trans h k := k ∘ h
  start _ _ h := h.of_eq rfl rfl
  referencing _ id h := h.referencing id
  cutOff _ id h := ((h.unindex id).unlink id).of_eq rfl rfl

theorem removed (h : p.Tabled) (id : ReflectionId) : (p.removed id).Tabled :=
  keeps.removeWithin _ id ⟨p, []⟩ h

theorem update (h : p.Tabled) (f : Reflection → Reflection) : (p.update id f).Tabled :=
  h.of_eq (symbols_update f) (files_update f)

theorem registerSymbolId (h : p.Tabled) (id : ReflectionId) (s : Symbol) :
    (p.registerSymbolId id s).Tabled :=
  ⟨Assoc.nodup_insert h.symbols, h.files⟩

/-- One command. -/
theorem perform {c : Command} {new : List ReflectionId} (h : p.Tabled)
    (hq : p.perform c = .ok (q, new)) : q.Tabled := by
  cases c with
  | add parent role r =>
    obtain ⟨⟨q', id⟩, hadd, ⟨⟩⟩ := map_eq_ok hq
    exact h.of_eq (tables_add hadd).2.1 (tables_add hadd).2.2
  | setType id type =>
    obtain ⟨q', hset, ⟨⟩⟩ := map_eq_ok hq
    obtain ⟨r, v, old, -, -, rfl⟩ := setType_eq_ok hset
    have hput : (p.put id (some { r with variant := v })).Tabled := h.of_eq rfl rfl
    exact (foldl_dropLiteral id (fun _ d ht _ => ht.removed d) old _ hput).of_eq rfl rfl
  | reparent id parent role =>
    obtain ⟨q', hmove, ⟨⟩⟩ := map_eq_ok hq
    exact h.of_eq (tables_reparent hmove).2.1 (tables_reparent hmove).2.2
  | remove id =>
    obtain ⟨q', hremove, ⟨⟩⟩ := map_eq_ok hq
    obtain ⟨-, rfl⟩ := remove_eq_ok hremove
    exact h.removed id
  | registerSymbol id declared =>
    cases hq
    rw [registerSymbol]
    split
    · exact h
    · refine registerSymbolId ?_ id declared.symbol
      exact h.of_eq rfl rfl
  | registerSymbolId id s =>
    cases hq
    exact h.registerSymbolId id s
  | setTarget id target =>
    cases hq
    rw [setTarget]
    split
    · exact (h.update _).of_eq rfl rfl
    · exact h
  | edit id f =>
    cases hq
    exact (h.update f).of_eq rfl rfl

/-- Whatever the files of a project are asked, the project keeps its keys. -/
theorem serve (h : p.Tabled) (rs : List FileTable.Request) :
    Tabled { p with files := p.files.after rs } :=
  ⟨h.symbols, h.files.after rs⟩

end Tabled

/-- The tables have their keys after every run. -/
theorem tabled_run {allowed : Project → Command → Prop} {name : String} {ids : List ReflectionId}
    (h : Run allowed (ofName name) ids p) : p.Tabled := by
  generalize hstart : ofName name = start at h
  induction h with
  | refl => exact hstart ▸ tabled_ofName name
  | step _ _ hq ih => exact ih.perform hq

end Project

end DocTree
