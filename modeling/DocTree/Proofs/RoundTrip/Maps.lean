import DocTree.Proofs.RoundTrip.Content

/-!
The maps of a project: the symbols of its reflections, its files and their owners. They are written
under the numbers of the project in decimal digits. Files are registered before the tree is read, so
that links find them; symbols and owners are entered at the end, under the new numbers.
-/

namespace DocTree

/-! ### Numbers as texts -/

theorem Json.natOfDigits_toDigits (n : Nat) : natOfDigits (Nat.toDigits 10 n) = n := by
  have hstep : (fun n c => n * 10 + digitValue c) = fun n c => 10 * n + (c.toNat - '0'.toNat) := by
    funext n c
    rw [digitValue, Nat.mul_comm]
  have h := Nat.ofDigitChars_ten_toDigits (n := n)
  rw [Nat.ofDigitChars_eq_foldl] at h
  rw [natOfDigits, hstep, h]

theorem Reader.word?_toString (n : Nat) :
    word? (toString n) = if n < Json.wordBound then some n else none := by
  have hdigit : ∀ c ∈ Nat.toDigits 10 n, c.isDigit = true := fun c hc =>
    Nat.isDigit_of_mem_toDigits (by decide) (by decide) hc
  have hlist : (toString n).toList = Nat.toDigits 10 n := Nat.toList_repr
  have hempty : (Nat.toDigits 10 n).isEmpty = false :=
    List.isEmpty_eq_false_iff.mpr Nat.toDigits_ne_nil
  have hall : (Nat.toDigits 10 n).all Char.isDigit = true := List.all_eq_true.mpr hdigit
  simp only [word?, hlist]
  split
  · next rest heq =>
    have hplus := hdigit '+' (heq ▸ List.mem_cons_self ..)
    exact absurd hplus (by decide)
  · simp only [hempty, hall, Json.natOfDigits_toDigits, Bool.not_true, Bool.or_self,
      Bool.false_eq_true, if_false, Option.filter_some, decide_eq_true_eq]

namespace Copying

variable {c : Copying} {inside : ReflectionId → Option Json} {r : Reflection}

/-! ### What is read from the maps -/

/-- The symbols by old numbers. -/
def symbolWork (c : Copying) : List (Nat × Symbol) :=
  (c.project.symbolMap.filter (·.1 < Json.wordBound)).map fun entry => (entry.1, entry.2.reread c.root)

/-- The registered owners, by old numbers of files and reflections. -/
def ownerWork (c : Copying) : List (Nat × Nat) :=
  (c.project.files.owners.filter fun entry => c.project.contains entry.2).filter
    (·.1 < Json.wordBound)

/-- The path of a file written and read again. -/
def filePath (c : Copying) (p : Path) : String := (Path.resolve c.root (c.writer.path p)).text

/-- A file that was written is registered anew. -/
def fileStep (c : Copying) (state : FileTable × List (Nat × FileId)) (entry : FileId × Path) :
    FileTable × List (Nat × FileId) :=
  if entry.1 < Json.wordBound then
    ((state.1.register (c.filePath entry.2)).1,
      Assoc.insert entry.1 (state.1.register (c.filePath entry.2)).2.file state.2)
  else state

/-- The files that were written, with their new numbers by the old ones. -/
def fileCopy (c : Copying) : FileTable × List (Nat × FileId) :=
  c.project.files.entries.foldl c.fileStep (.empty, [])

theorem filterMap_ite {α β : Type} (p : α → Prop) [DecidablePred p] (f : α → β) (l : List α) :
    l.filterMap (fun a => if p a then some (f a) else none) = (l.filter p).map f := by
  induction l with
  | nil => rfl
  | cons a rest ih =>
    by_cases h : p a
    · rw [List.filterMap_cons, if_pos h, ih, List.filter_cons_of_pos (by simpa using h), List.map_cons]
    · rw [List.filterMap_cons, if_neg h, ih, List.filter_cons_of_neg (by simpa using h)]

theorem symbolEntries_written {v : Revival} {d : ProjectData} (hv : r.variant = .project d)
    (hroot : v.root = c.root) :
    Reader.symbolEntries v (c.objectFields inside r) = c.symbolWork := by
  have hmap : (c.objectFields inside r).object? "symbolIdMap" =
      some (c.project.symbolMap.map fun entry => (entry.1.text, c.writer.symbol entry.2)) := by
    rw [Fields.object?, value?_variant .project (by simp [variantKeys]), variantFields, hv]
    simp [projectFields, Writer.symbolMap, writer, Writer.project]
  rw [Reader.symbolEntries, hmap, Option.getD_some, List.filterMap_map]
  refine Eq.trans ?_ (filterMap_ite
    (fun entry : ReflectionId × Symbol => entry.1 < Json.wordBound) _ _)
  congr 1
  funext entry
  rw [Function.comp_apply, symbol_written]
  simp only [ReflectionId.text, Reader.word?_toString, Json.asObject?_obj, Option.bind_eq_bind,
    Option.bind_some, symbol?_written hroot]
  split <;> rfl

theorem files_written (d : ProjectData) (hv : r.variant = .project d) :
    (c.objectFields inside r).object? "files" = some
      [("entries", .obj (c.project.files.entries.map fun entry =>
          (toString entry.1, .str (c.writer.path entry.2)))),
       ("reflections", .obj ((c.project.files.owners.filter fun entry =>
          c.project.contains entry.2).map fun entry => (toString entry.1, .ofNat entry.2)))] := by
  have hfiles : c.writer.files c.project.files = .obj _ :=
    Component.compose_whole ((Fields.keyed_nil.cons _ _).cons _ _) (by simp)
  have hvalue : (c.objectFields inside r).value? "files" =
      some (c.writer.files c.project.files) := by
    rw [value?_variant .project (by simp [variantKeys]), variantFields, hv]
    simp [projectFields]
  rw [Fields.object?, hvalue, hfiles]
  rfl

theorem ownerEntries_written (hleg : c.Legible) {d : ProjectData} (hv : r.variant = .project d) :
    Reader.ownerEntries (c.objectFields inside r) = c.ownerWork := by
  have hlive : ∀ entry ∈ c.project.files.owners.filter fun entry => c.project.contains entry.2,
      entry.2 < Json.wordBound := fun entry hentry =>
    lt_wordBound hleg (List.mem_filter.mp hentry).2
  rw [Reader.ownerEntries, files_written d hv, ownerWork]
  revert hlive
  generalize c.project.files.owners.filter (fun entry => c.project.contains entry.2) = owners
  intro hlive
  have hobject : ∀ E : Fields, Fields.object? [("entries", .obj E), ("reflections",
      .obj (owners.map fun entry => (toString entry.1, .ofNat entry.2)))] "reflections" =
      some (owners.map fun entry => (toString entry.1, .ofNat entry.2)) := fun _ => rfl
  rw [Option.bind_some, hobject, Option.getD_some, List.filterMap_map]
  clear hobject
  induction owners with
  | nil => rfl
  | cons entry rest ih =>
    have hrest := ih fun e he => hlive e (List.mem_cons_of_mem entry he)
    rw [List.filterMap_cons, hrest, Function.comp_apply, List.filter_cons]
    simp only [Reader.word?_toString, Json.asWord?_ofNat, Option.bind_eq_bind,
      if_pos (hlive entry (List.mem_cons_self ..)), decide_eq_true_eq]
    by_cases h : entry.1 < Json.wordBound
    · rw [if_pos h, if_pos h]
      rfl
    · rw [if_neg h, if_neg h]
      rfl

theorem fileEntries_written {v : Revival} {d : ProjectData} (hv : r.variant = .project d)
    (hroot : v.root = c.root) :
    Reader.fileEntries v (c.objectFields inside r) =
      { v with
        project := { v.project with
          files := (c.project.files.entries.foldl c.fileStep (v.project.files, v.fileIds)).1 }
        fileIds := (c.project.files.entries.foldl c.fileStep (v.project.files, v.fileIds)).2 } := by
  rw [Reader.fileEntries, files_written d hv, Option.bind_some]
  change (c.project.files.entries.map fun entry =>
    (toString entry.1, Json.str (c.writer.path entry.2))).foldl Reader.fileEntry v = _
  rw [List.foldl_map]
  generalize c.project.files.entries = entries
  induction entries generalizing v with
  | nil => rfl
  | cons entry rest ih =>
    rw [List.foldl_cons, List.foldl_cons]
    have hstep : Reader.fileEntry v (toString entry.1, .str (c.writer.path entry.2)) =
        { v with
          project := { v.project with
            files := (c.fileStep (v.project.files, v.fileIds) entry).1 }
          fileIds := (c.fileStep (v.project.files, v.fileIds) entry).2 } := by
      rw [Reader.fileEntry, Reader.word?_toString, fileStep, filePath, ← hroot]
      by_cases h : entry.1 < Json.wordBound
      · simp only [if_pos h, Json.asString?_str]
      · simp only [if_neg h]
    rw [hstep]
    exact ih hroot

end Copying

end DocTree
