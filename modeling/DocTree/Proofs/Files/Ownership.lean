import DocTree.Proofs.Files.Table
import Mathlib.Data.List.Nodup

/-!
Who owns which file, over whole runs. Ownership is kept twice: the owner of a file, and for a
reflection the path that was last registered for it. The two agree as long as files are given to
reflections that own nothing else and nobody else owns the file; the first call that displaces
something makes them differ, and then a file may go on leading to a reflection that was forgotten.
-/

namespace DocTree.FileTable

/-- An operation on the files of a project with what it is given. -/
inductive Command where
  | register (text : String)
  | registerLink (source link : String)
  | registerOwned (text : String) (id : ReflectionId)
  | setOwner (file : FileId) (id : ReflectionId)
  | disown (id : ReflectionId)

def perform (t : FileTable) : Command → FileTable
  | .register text => (t.register text).1
  | .registerLink source link => (t.registerLink source link).1
  | .registerOwned text id => (t.registerOwned text id).1
  | .setOwner file id => t.setOwner file id
  | .disown id => t.disown id

/-- The files after a sequence of operations on a new table. -/
def run (cs : List Command) : FileTable := cs.foldl perform empty

/-- The path of a reflection is that of a file which leads to the reflection, and only then. -/
def Consistent (t : FileTable) : Prop :=
  ∀ id path, t.ownedPath? id = some path ↔
    ∃ file, t.path? file = some path ∧ t.resolve? file = some (.reflection id)

/-- Giving a registered file to a reflection displaces nothing: nobody else owns the file, and the
reflection has no other path. -/
def free (t : FileTable) (file : FileId) (id : ReflectionId) : Bool :=
  match t.path? file with
  | some path => (t.owners.lookup file).all (· = id) && (t.ownedPath? id).all (· = path)
  | none => true

/-- A command that displaces no owner and no path. -/
def displacesNothing (t : FileTable) : Command → Bool
  | .registerOwned text id => (t.register text).1.free (t.register text).2.file id
  | .setOwner file id => t.free file id
  | _ => true

/-- No command of a sequence displaces an owner or a path. -/
def orderly (t : FileTable) : List Command → Bool
  | [] => true
  | c :: cs => t.displacesNothing c && (t.perform c).orderly cs

variable {t : FileTable} {file other : FileId} {path : Path} {id r : ReflectionId} {text : String}
  {c : Command}

theorem resolve?_eq_reflection_iff :
    t.resolve? file = some (.reflection id) ↔ t.owners.lookup file = some id := by
  rw [resolve?]
  cases t.owners.lookup file with
  | some r => simp
  | none => simp

/-! ### Tables that are well kept -/

/-- No path has two numbers, and whatever is owned is registered. -/
structure Tidy (t : FileTable) : Prop where
  nodup : t.paths.Nodup
  owners : ∀ file id, t.owners.lookup file = some id → ∃ path, t.path? file = some path
  owned : ∀ id path, t.ownedPath? id = some path → path ∈ t.paths

theorem Tidy.path?_inj (h : t.Tidy) (hfile : t.path? file = some path)
    (hother : t.path? other = some path) : file = other := by
  rw [path?] at hfile hother
  split at hfile
  · next hfirst =>
    split at hother
    · next hfirst' =>
      have hplace := (List.getElem?_inj (List.getElem?_eq_some_iff.mp hfile).1 h.nodup).mp
        (hfile.trans hother.symm)
      rw [← Nat.sub_add_cancel hfirst, hplace, Nat.sub_add_cancel hfirst']
    · cases hother
  · cases hfile

theorem Tidy.find? (h : t.Tidy) (hpath : t.path? file = some path) : t.find? path = some file := by
  obtain ⟨other, hother⟩ := exists_find? (mem_paths_of_path? hpath)
  rw [hother, h.path?_inj (path?_of_find? hother) hpath]

theorem Tidy.exists_file (h : t.Tidy) (howned : t.ownedPath? id = some path) :
    ∃ file, t.path? file = some path := by
  obtain ⟨file, hfile⟩ := exists_find? (h.owned id path howned)
  exact ⟨file, path?_of_find? hfile⟩

theorem tidy_empty : empty.Tidy where
  nodup := List.nodup_nil
  owners file id h := by cases h
  owned id path h := by cases h

/-- A path that is known gets no second number. -/
theorem nodup_paths_register (h : t.paths.Nodup) : (t.register text).1.paths.Nodup := by
  rw [paths_register]
  split
  · exact h
  · next hnone =>
    refine List.nodup_append.mpr ⟨h, List.nodup_singleton _, ?_⟩
    rintro p hp q hq rfl
    rw [List.mem_singleton] at hq
    subst hq
    exact hnone (Option.isSome_iff_exists.mpr (exists_find? hp))

theorem Tidy.register (h : t.Tidy) : (t.register text).1.Tidy where
  nodup := nodup_paths_register h.nodup
  owners file id howner := by
    rw [owners_register] at howner
    obtain ⟨path, hpath⟩ := h.owners file id howner
    exact ⟨path, path?_of_extension (prefix_register t text) hpath⟩
  owned id path howned := by
    rw [ownedPath?, owned_register] at howned
    exact (prefix_register t text).subset (h.owned id path howned)

/-! ### Giving and taking a file -/

theorem setOwner_of_path? (hpath : t.path? file = some path) : t.setOwner file id =
    ⟨t.paths, Assoc.insert file id t.owners, Assoc.insert id path t.owned, t.names, t.usage⟩ := by
  rw [setOwner, hpath]

/-- A file that is not registered has no path to be given. -/
theorem setOwner_of_path?_eq_none (hpath : t.path? file = none) : t.setOwner file id = t := by
  rw [setOwner, hpath]

theorem lookup_owners_setOwner (hpath : t.path? file = some path) (other : FileId) :
    (t.setOwner file id).owners.lookup other =
      if other = file then some id else t.owners.lookup other := by
  rw [setOwner_of_path? hpath]
  split
  · next heq => rw [heq, Assoc.lookup_insert_self]
  · next hne => rw [Assoc.lookup_insert_of_ne hne]

theorem ownedPath?_setOwner (hpath : t.path? file = some path) (r : ReflectionId) :
    (t.setOwner file id).ownedPath? r = if r = id then some path else t.ownedPath? r := by
  rw [setOwner_of_path? hpath, ownedPath?, ownedPath?]
  split
  · next heq => rw [heq, Assoc.lookup_insert_self]
  · next hne => rw [Assoc.lookup_insert_of_ne hne]

theorem path?_setOwner (t : FileTable) (file : FileId) (id : ReflectionId) (other : FileId) :
    (t.setOwner file id).path? other = t.path? other :=
  path?_foldl_setOwner [(file, id)] t other

theorem Tidy.setOwner (h : t.Tidy) : (t.setOwner file id).Tidy := by
  cases hpath : t.path? file with
  | none => rwa [setOwner_of_path?_eq_none hpath]
  | some path =>
    refine ⟨?_, fun other r howner => ?_, fun r q howned => ?_⟩
    · rw [setOwner_of_path? hpath]
      exact h.nodup
    · rw [lookup_owners_setOwner hpath] at howner
      rw [path?_setOwner]
      split at howner
      · next heq => exact ⟨path, heq ▸ hpath⟩
      · exact h.owners other r howner
    · rw [ownedPath?_setOwner hpath] at howned
      rw [setOwner_of_path? hpath]
      split at howned
      · obtain rfl := Option.some.inj howned
        exact mem_paths_of_path? hpath
      · exact h.owned r q howned

theorem ownedPath?_disown (t : FileTable) (id r : ReflectionId) :
    (t.disown id).ownedPath? r = if r = id then none else t.ownedPath? r := by
  rw [disown]
  split
  · next hnone =>
    split
    · next heq => rw [heq, hnone]
    · rfl
  · simp only [ownedPath?]
    split
    · next heq => rw [heq, Assoc.lookup_erase_self]
    · next hne => rw [Assoc.lookup_erase_of_ne hne]

theorem path?_disown (t : FileTable) (id : ReflectionId) (file : FileId) :
    (t.disown id).path? file = t.path? file := by
  rw [disown]
  split <;> rfl

/-- Forgetting a reflection takes from it the one file of its path; another file that it owns stays
with it. -/
theorem Tidy.lookup_owners_disown (h : t.Tidy) (file : FileId) :
    (t.disown id).owners.lookup file =
      if t.owners.lookup file = some id ∧ t.path? file = t.ownedPath? id then none
      else t.owners.lookup file := by
  cases hid : t.ownedPath? id with
  | none =>
    rw [disown, hid, if_neg]
    rintro ⟨howner, hnone⟩
    obtain ⟨path, hpath⟩ := h.owners file id howner
    rw [hpath] at hnone
    cases hnone
  | some path =>
    obtain ⟨given, hgiven⟩ := h.exists_file hid
    have hpath : t.path? file = some path ↔ file = given :=
      ⟨fun hfile => h.path?_inj hfile hgiven, fun heq => heq ▸ hgiven⟩
    simp only [disown, hid, h.find? hgiven, hpath]
    by_cases howner : t.owners.lookup given = some id
    · rw [if_pos howner]
      by_cases heq : file = given
      · rw [heq, Assoc.lookup_erase_self, if_pos ⟨howner, rfl⟩]
      · rw [Assoc.lookup_erase_of_ne heq, if_neg fun hand => heq hand.2]
    · rw [if_neg howner, if_neg]
      rintro ⟨hfile, rfl⟩
      exact howner hfile

theorem Tidy.disown (h : t.Tidy) : (t.disown id).Tidy where
  nodup := by
    rw [FileTable.disown]
    split <;> exact h.nodup
  owners file r howner := by
    rw [h.lookup_owners_disown] at howner
    split at howner
    · cases howner
    · rw [path?_disown]
      exact h.owners file r howner
  owned r path howned := by
    rw [ownedPath?_disown] at howned
    split at howned
    · cases howned
    · have hmem := h.owned r path howned
      rw [FileTable.disown]
      split <;> exact hmem

theorem Tidy.perform (h : t.Tidy) (c : Command) : (t.perform c).Tidy := by
  cases c with
  | register text => exact h.register
  | registerLink source link => exact h.register
  | registerOwned text id => exact h.register.setOwner
  | setOwner file id => exact h.setOwner
  | disown id => exact h.disown

theorem tidy_run (cs : List Command) : (run cs).Tidy := by
  have hfold : ∀ (cs : List Command) (t : FileTable), t.Tidy → (cs.foldl FileTable.perform t).Tidy := by
    intro cs
    induction cs with
    | nil => exact fun t h => h
    | cons c cs ih => exact fun t h => ih _ (h.perform c)
  exact hfold cs empty tidy_empty

/-! ### When both sides agree -/

/-- Of each file that is registered, both sides say the same. -/
theorem Tidy.consistent_iff (h : t.Tidy) : t.Consistent ↔ ∀ file path, t.path? file = some path →
    ∀ id, t.owners.lookup file = some id ↔ t.ownedPath? id = some path := by
  simp only [Consistent, resolve?_eq_reflection_iff]
  constructor
  · intro hc file path hpath id
    constructor
    · intro howner
      exact (hc id path).mpr ⟨file, hpath, howner⟩
    · intro howned
      obtain ⟨other, hother, howner⟩ := (hc id path).mp howned
      rwa [h.path?_inj hpath hother]
  · intro hall id path
    constructor
    · intro howned
      obtain ⟨file, hpath⟩ := h.exists_file howned
      exact ⟨file, hpath, (hall file path hpath id).mpr howned⟩
    · rintro ⟨file, hpath, howner⟩
      exact (hall file path hpath id).mp howner

theorem consistent_empty : empty.Consistent := by
  rw [tidy_empty.consistent_iff]
  intro file path hpath
  cases mem_paths_of_path? hpath

/-- A file that is registered anew has no owner, and its path is nobody's. -/
theorem Tidy.consistent_register (h : t.Tidy) :
    (t.register text).1.Consistent ↔ t.Consistent := by
  have hprefix := prefix_register t text
  rw [h.register.consistent_iff, h.consistent_iff]
  simp only [ownedPath?, owners_register, owned_register]
  constructor
  · intro hall file path hpath
    exact hall file path (path?_of_extension hprefix hpath)
  · intro hall file path hpath id
    constructor
    · intro howner
      obtain ⟨q, hq⟩ := h.owners file id howner
      obtain rfl := Option.some.inj ((path?_of_extension hprefix hq).symm.trans hpath)
      exact (hall file q hq id).mp howner
    · intro howned
      obtain ⟨other, hother⟩ := h.exists_file howned
      obtain rfl := h.register.path?_inj hpath (path?_of_extension hprefix hother)
      exact (hall file path hother id).mpr howned

/-- Giving a file away keeps both sides in step exactly when nothing is displaced. -/
theorem Tidy.consistent_setOwner (h : t.Tidy) (hc : t.Consistent) :
    (t.setOwner file id).Consistent ↔ t.free file id = true := by
  cases hpath : t.path? file with
  | none => simp [setOwner_of_path?_eq_none hpath, free, hpath, hc]
  | some path =>
    rw [h.consistent_iff] at hc
    simp only [h.setOwner.consistent_iff, path?_setOwner, lookup_owners_setOwner hpath,
      ownedPath?_setOwner hpath, free, hpath, Bool.and_eq_true, Option.all_eq_true,
      decide_eq_true_eq]
    constructor
    · intro hall
      constructor
      · -- The one who owned the file keeps its path, so it has to be the new owner.
        intro r howner
        by_contra hne
        have hpair := hall file path hpath r
        rw [if_pos rfl, if_neg hne] at hpair
        exact hne (Option.some.inj (hpair.mpr ((hc file path hpath r).mp howner))).symm
      · -- The file of the path that the reflection had before is still its own.
        intro q howned
        by_contra hne
        obtain ⟨given, hgiven⟩ := h.exists_file howned
        have hother : given ≠ file := by
          rintro rfl
          exact hne (Option.some.inj (hgiven.symm.trans hpath))
        have hpair := hall given q hgiven id
        rw [if_neg hother, if_pos rfl] at hpair
        exact hne (Option.some.inj (hpair.mp ((hc given q hgiven id).mpr howned))).symm
    · rintro ⟨hnobody, hnowhere⟩ other q hother r
      by_cases hfile : other = file
      · subst hfile
        obtain rfl := Option.some.inj (hpath.symm.trans hother)
        rw [if_pos rfl]
        by_cases hr : r = id
        · simp [hr]
        · rw [if_neg hr, ← hc other path hpath r]
          exact ⟨fun heq => absurd (Option.some.inj heq).symm hr,
            fun howner => absurd (hnobody r howner) hr⟩
      · rw [if_neg hfile]
        by_cases hr : r = id
        · subst hr
          rw [if_pos rfl, hc other q hother r]
          constructor
          · intro howned
            exact congrArg some (hnowhere q howned).symm
          · intro heq
            obtain rfl := Option.some.inj heq
            exact absurd (h.path?_inj hother hpath) hfile
        · rw [if_neg hr, hc other q hother r]

/-- Forgetting a reflection keeps both sides in step. -/
theorem Tidy.consistent_disown (h : t.Tidy) (hc : t.Consistent) : (t.disown id).Consistent := by
  rw [h.consistent_iff] at hc
  simp only [h.disown.consistent_iff, path?_disown, h.lookup_owners_disown, ownedPath?_disown]
  intro file path hpath r
  have hboth := hc file path hpath r
  by_cases hr : r = id
  · -- The file of its path was its only one.
    subst hr
    rw [if_pos rfl]
    refine ⟨fun howner => ?_, fun hnone => by cases hnone⟩
    split at howner
    · cases howner
    · next hnot => exact absurd ⟨howner, hpath.trans (hboth.mp howner).symm⟩ hnot
  · rw [if_neg hr, ← hboth]
    split
    · next hgone =>
      rw [hgone.1]
      exact ⟨fun hnone => (by cases hnone), fun heq => absurd (Option.some.inj heq).symm hr⟩
    · rfl

/-- What a command does to tables in which both sides agree: they go on agreeing exactly when the
command displaces nothing. -/
theorem Tidy.consistent_perform (h : t.Tidy) (hc : t.Consistent) :
    (t.perform c).Consistent ↔ t.displacesNothing c = true := by
  cases c with
  | register text => simp [FileTable.perform, displacesNothing, h.consistent_register, hc]
  | registerLink source link =>
    simp [FileTable.perform, displacesNothing, registerLink, h.consistent_register, hc]
  | registerOwned text id =>
    exact h.register.consistent_setOwner (h.consistent_register.mpr hc)
  | setOwner file id => exact h.consistent_setOwner hc
  | disown id => simp [FileTable.perform, displacesNothing, h.consistent_disown hc]

theorem Tidy.consistent_foldl (h : t.Tidy) (cs : List Command) (hc : t.Consistent)
    (horderly : t.orderly cs = true) : (cs.foldl FileTable.perform t).Consistent := by
  induction cs generalizing t with
  | nil => exact hc
  | cons c cs ih =>
    rw [orderly, Bool.and_eq_true] at horderly
    exact ih (h.perform c) ((h.consistent_perform hc).mpr horderly.1) horderly.2

/-! ### Whole runs -/

/-- After every sequence of operations, forgetting a reflection leaves it without a path, leaves every
file of another as it was, and takes from it the file of its path alone. As long as no command displaced
an owner or a path, the path of a reflection is that of a file which leads to it, so that no file leads
to a reflection that was forgotten; and a command makes both sides differ exactly when it displaces
something. -/
theorem ownership_run (cs : List Command) :
    (empty.orderly cs = true → (run cs).Consistent) ∧
    ((run cs).Consistent → (∀ c, ((run cs).perform c).Consistent ↔ (run cs).displacesNothing c = true) ∧
      ∀ id file, ((run cs).disown id).resolve? file ≠ some (.reflection id)) ∧
    ∀ id, ((run cs).disown id).ownedPath? id = none ∧
      (∀ file, (run cs).resolve? file ≠ some (.reflection id) →
        ((run cs).disown id).resolve? file = (run cs).resolve? file) ∧
      ∀ file, ((run cs).disown id).resolve? file = some (.reflection id) ↔
        (run cs).resolve? file = some (.reflection id) ∧ (run cs).path? file ≠ (run cs).ownedPath? id := by
  have h := tidy_run cs
  have hleft : ∀ id file, ((run cs).disown id).resolve? file = some (.reflection id) ↔
      (run cs).resolve? file = some (.reflection id) ∧
        (run cs).path? file ≠ (run cs).ownedPath? id := by
    intro id file
    rw [resolve?_eq_reflection_iff, resolve?_eq_reflection_iff, h.lookup_owners_disown]
    split
    · next hgone => simp [hgone.2]
    · next hnot => exact ⟨fun howner => ⟨howner, fun hpath => hnot ⟨howner, hpath⟩⟩, And.left⟩
  refine ⟨tidy_empty.consistent_foldl cs consistent_empty,
    fun hc => ⟨fun c => h.consistent_perform hc, fun id file hleads => ?_⟩,
    fun id => ⟨?_, fun file hother => ?_, hleft id⟩⟩
  · obtain ⟨howner, hpath⟩ := (hleft id file).mp hleads
    obtain ⟨path, hfile⟩ := h.owners file id (resolve?_eq_reflection_iff.mp howner)
    exact hpath (hfile.trans ((hc id path).mpr ⟨file, hfile, howner⟩).symm)
  · rw [ownedPath?_disown, if_pos rfl]
  · rw [ne_eq, resolve?_eq_reflection_iff] at hother
    rw [resolve?, resolve?, h.lookup_owners_disown, path?_disown, if_neg fun hgone => hother hgone.1]

/-- A reflection is given a file, forgotten, and the file goes to the next. -/
theorem ownership_run_passedOn :
    let cs := [Command.registerOwned "/a.md" 1, .disown 1, .registerOwned "/a.md" 2]
    empty.orderly cs = true ∧ (run cs).Consistent ∧
      (run cs).resolve? 1 = some (.reflection 2) ∧
      ((run cs).disown 2).resolve? 1 = some (.path (.ofText "/a.md")) ∧
      ∀ file, ((run cs).disown 2).resolve? file ≠ some (.reflection 2) := by
  intro cs
  have horderly : empty.orderly cs = true := by decide +kernel
  have hc := (ownership_run cs).1 horderly
  exact ⟨horderly, hc, by decide +kernel, by decide +kernel, ((ownership_run cs).2.1 hc).2 2⟩

/-- A reflection that was given two files is forgotten, and the first of them still leads to it. -/
theorem not_forall_consistent : ¬ ∀ cs : List Command, (run cs).Consistent ∧
    ∀ id file, ((run cs).disown id).resolve? file ≠ some (.reflection id) := by
  intro h
  exact (h [.registerOwned "/a.md" 1, .registerOwned "/b.md" 1]).2 1 1 (by decide +kernel)

end DocTree.FileTable
