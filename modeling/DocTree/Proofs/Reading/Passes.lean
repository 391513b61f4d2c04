import DocTree.Proofs.Files.Table
import DocTree.Proofs.Reading.Constructed
import DocTree.Proofs.Reading.SecondPass

/-!
Reading a serialized project into a registered reflection. Neither pass can fail. `FirstPass` says what
the first one leaves: the reflection with what was read into it, and everything inside it registered
behind all that was there; `Settled` says what the second one makes of that.
-/

namespace DocTree

/-! ### Before the tree is read -/

namespace Reader

variable (p : Project) (n : ReflectionId) (fields : Fields) (root : String)

/-- The place where a serialized project is read. -/
def siteOf : Site := ⟨root, (opened p n fields root).fileIds, False⟩

theorem foldl_fileEntry (entries : Fields) (v : Revival) : ∃ table files,
    entries.foldl fileEntry v =
        { v with project := { v.project with files := table }, fileIds := files } ∧
      table.owners = v.project.files.owners := by
  induction entries generalizing v with
  | nil => exact ⟨v.project.files, v.fileIds, rfl, rfl⟩
  | cons entry rest ih =>
    obtain ⟨table, files, hrest, howners⟩ := ih (fileEntry v entry)
    refine ⟨table, files, ?_, howners.trans ?_⟩
    · rw [List.foldl_cons, hrest, fileEntry]
      split <;> rfl
    · rw [fileEntry]
      split
      · exact FileTable.owners_register ..
      · rfl

/-- Nothing but files was registered, and only the reflection itself has a new number. -/
theorem opened_eq : ∃ table files, opened p n fields root =
      ⟨{ p with files := table }, root, [], (fields.word? "id").toList.map (·, n), files, 0, [], []⟩ ∧
    table.owners = p.files.owners := by
  obtain ⟨table, files, heq, howners⟩ := foldl_fileEntry
    ((((Fields.object? fields "files").bind (Fields.object? · "entries")).getD []))
    ((fields.word? "id").elim (Revival.start p root) ((Revival.start p root).record · n))
  refine ⟨table, files, ?_, howners.trans ?_⟩
  · rw [opened, fileEntries, heq]
    cases fields.word? "id" <;> rfl
  · cases fields.word? "id" <;> rfl

end Reader

/-! ### The first pass -/

variable {W : Prop} {p : Project} {n : Nat} {fields : Fields} {root : String} {s r : Reflection}
  {y : Crop} {σ : Reading} {v : Revival}

/-- The first pass read the object into the reflection `n`, which is then `r`, and added the crop; the
state is then `σ`. -/
structure FirstPass (W : Prop) (p : Project) (n : Nat) (fields : Fields) (root : String)
    (r : Reflection) (y : Crop) (σ : Reading) : Prop where
  read : Reader.readTree Deserializer.standard p n fields root = .ok σ
  grows : Grows (Reader.siteOf p n fields root) n r y ⟨Reader.opened p n fields root, []⟩ σ
  lt : n < p.arena.size
  number : r.id = n
  sound : y.Sound n p.arena.size W r.childIds
  raw : r.Raw y.queue

/-- The new numbers that a first pass recorded. -/
theorem Grows.ids_opened (h : Grows (Reader.siteOf p n fields root) n r y
    ⟨Reader.opened p n fields root, []⟩ σ) : σ.revival.ids =
    ((fields.word? "id").toList.map (·, n) ++ y.ids).foldl
      (fun table entry => Assoc.insert entry.1 entry.2 table) [] := by
  obtain ⟨table, files, hopened, -⟩ := Reader.opened_eq p n fields root
  rw [h.ids, hopened, List.foldl_append]
  cases fields.word? "id" <;> rfl

/-- A reflection whose fields were read without failure holds what was read. -/
theorem readTree_grows (hs : p.get? n = some s)
    (h : Reads (Reader.siteOf p n fields root) n p.arena.size (Reader.standardFields
      (Deserializer.standard.constructors (Json.obj fields).depth) n fields) s () r y) :
    ∃ σ, Reader.readTree Deserializer.standard p n fields root = .ok σ ∧
      Grows (Reader.siteOf p n fields root) n r y ⟨Reader.opened p n fields root, []⟩ σ := by
  obtain ⟨table, files, hopened, -⟩ := Reader.opened_eq p n fields root
  have hview : View (Reader.siteOf p n fields root) n p.arena.size s
      (Reading.inside ⟨Reader.opened p n fields root, []⟩ n) := by
    refine ⟨rfl, ?_, ?_, ?_, rfl⟩
    · change (Reader.opened p n fields root).project.arena.size = _
      rw [hopened]
    · change (Reader.opened p n fields root).project.get? n = _
      rw [hopened]
      exact hs
    · change (Reader.opened p n fields root).root = _
      rw [hopened]
      rfl
  obtain ⟨σ, hrun, hgrows⟩ := h.readReflection hview
  refine ⟨σ, ?_, hgrows⟩
  rw [Reader.readTree]
  rw [hrun]
  rfl

/-- A bare reflection can be read into, whatever the object says. -/
theorem exists_firstPass (W : Prop) (fields : Fields) (root : String) (tag : VariantTag)
    (hs : p.get? n = some s) (hid : s.id = n) (hblank : s.variant = .blank tag)
    (hnone : s.comment = none) (hW : W → (Json.obj fields).Whole) :
    ∃ r y σ, FirstPass W p n fields root r y σ ∧ r.parent = s.parent ∧ r.name = s.name ∧
      r.kind = s.kind ∧ r.tag = tag := by
  have hlt : n < p.arena.size := Project.lt_size_of_get? hs
  have hwithin : fields.Within ((Json.obj fields).depth + 1) W := ⟨Nat.le_succ _, hW⟩
  have hclean : ¬ (Reader.siteOf p n fields root).clean := not_false
  obtain ⟨flags, m, w, kids, y, htag, hsound, hkids, hraw, hreads⟩ := reads_standardFields
    (constructors_sound hclean (Json.obj fields).depth) hwithin hclean tag hlt
  have hread := hreads .still s hblank hnone
  rw [Relocation.toRenaming_still, Renaming.site_still, Renaming.crop_still, Renaming.variant_still] at hread
  obtain ⟨σ, hrun, hgrows⟩ := readTree_grows hs hread
  have hcomment : m.map Renaming.still.comment = m := by
    cases m with
    | none => rfl
    | some m => exact congrArg some (Renaming.comment_still m)
  exact ⟨_, y, σ, ⟨hrun, hgrows, hlt, hid, hsound.perm hkids, hraw _ hid hcomment rfl⟩, rfl, rfl, rfl,
    htag⟩

namespace FirstPass

theorem queue (h : FirstPass W p n fields root r y σ) : σ.queue = y.queue :=
  h.grows.queue.trans (List.nil_append _)

theorem arena (h : FirstPass W p n fields root r y σ) :
    σ.revival.project.arena.toList = p.arena.toList.set n (some r) ++ y.block.map some := by
  obtain ⟨table, files, hopened, -⟩ := Reader.opened_eq p n fields root
  rw [h.grows.arena, hopened]

theorem size (h : FirstPass W p n fields root r y σ) :
    σ.revival.project.arena.size = p.arena.size + y.block.length := by
  rw [← Array.length_toList, h.arena, List.length_append, List.length_set, List.length_map,
    Array.length_toList]

theorem get?_self (h : FirstPass W p n fields root r y σ) :
    σ.revival.project.get? n = some r := by
  have hlt : n < p.arena.toList.length := h.lt
  rw [Project.get?_eq_toList, h.arena, List.getElem?_append_left (by rwa [List.length_set]),
    List.getElem?_set_self hlt]
  rfl

theorem symbolIndex (h : FirstPass W p n fields root r y σ) :
    σ.revival.project.symbolIndex = p.symbolIndex := by
  obtain ⟨table, files, hopened, -⟩ := Reader.opened_eq p n fields root
  rw [h.grows.symbolIndex, hopened]

theorem symbols (h : FirstPass W p n fields root r y σ) :
    σ.revival.project.symbols = p.symbols := by
  obtain ⟨table, files, hopened, -⟩ := Reader.opened_eq p n fields root
  rw [h.grows.symbols, hopened]

theorem owners (h : FirstPass W p n fields root r y σ) :
    σ.revival.project.files.owners = p.files.owners := by
  obtain ⟨table, files, hopened, howners⟩ := Reader.opened_eq p n fields root
  rw [h.grows.table, hopened]
  exact howners

/-- No number was reported as missing. -/
theorem found (h : FirstPass W p n fields root r y σ) :
    σ.revival.issues.filter Issue.isMissing = [] := by
  obtain ⟨table, files, hopened, -⟩ := Reader.opened_eq p n fields root
  rw [h.grows.found, hopened]
  rfl

/-- What was registered before stays, the reflection that is read into apart. -/
theorem get?_before (h : FirstPass W p n fields root r y σ) {i : Nat} (hi : i < p.arena.size)
    (hne : i ≠ n) : σ.revival.project.get? i = p.get? i := by
  have hlt : i < p.arena.toList.length := hi
  rw [Project.get?_eq_toList, h.arena, List.getElem?_append_left (by rwa [List.length_set]),
    List.getElem?_set_ne hne.symm, Project.get?_eq_toList]

theorem get?_block (h : FirstPass W p n fields root r y σ) (k : Nat) :
    σ.revival.project.get? (p.arena.size + k) = y.block[k]? := by
  have hlength : (p.arena.toList.set n (some r)).length = p.arena.size := List.length_set
  rw [Project.get?_eq_toList, h.arena, List.getElem?_append_right (by omega), hlength,
    Nat.add_sub_cancel_left, List.getElem?_map]
  cases y.block[k]? <;> rfl

/-- A registered reflection is the one that was read into, one that was there before, or one that was
registered. -/
theorem cases (h : FirstPass W p n fields root r y σ) {i : Nat} {t : Reflection}
    (ht : σ.revival.project.get? i = some t) :
    (i = n ∧ t = r) ∨ (i < p.arena.size ∧ i ≠ n ∧ p.get? i = some t) ∨
      (t ∈ y.block ∧ t.id = i ∧ p.arena.size ≤ i) := by
  by_cases hi : i < p.arena.size
  · by_cases hne : i = n
    · subst hne
      exact .inl ⟨rfl, (Option.some.inj (h.get?_self.symm.trans ht)).symm⟩
    · rw [h.get?_before hi hne] at ht
      exact .inr (.inl ⟨hi, hne, ht⟩)
  · obtain ⟨k, rfl⟩ := Nat.exists_eq_add_of_le (Nat.le_of_not_lt hi)
    rw [h.get?_block] at ht
    exact .inr (.inr ⟨List.mem_of_getElem? ht, h.sound.grove.id_getElem? ht, Nat.le_add_right ..⟩)

/-- What was registered stands under its number. -/
theorem get?_mem (h : FirstPass W p n fields root r y σ) {t : Reflection} (ht : t ∈ y.block) :
    σ.revival.project.get? t.id = some t := by
  obtain ⟨k, hid, hplace⟩ := h.sound.grove.getElem? ht
  rw [hid, h.get?_block, hplace]

/-- Work was put off about the reflection that was read into, and about those that were registered. -/
theorem subject (h : FirstPass W p n fields root r y σ) {d : Deferred} (hd : d ∈ σ.queue) :
    d.subject? = some n ∨ ∃ t ∈ y.block, d.subject? = some t.id :=
  h.sound.subject d (h.queue ▸ hd)

theorem isSome_subject? (h : FirstPass W p n fields root r y σ) :
    ∀ d ∈ σ.queue, d.subject?.isSome = true := by
  intro d hd
  rcases h.subject hd with heq | ⟨t, -, heq⟩ <;> rw [heq] <;> rfl

/-- No work is about what was there before. -/
theorem worked_before (h : FirstPass W p n fields root r y σ) {i : Nat} (hi : i < p.arena.size)
    (hne : i ≠ n) (w : Revival) (t : Reflection) : worked w σ.queue i t = t := by
  have hnone : σ.queue.filter (·.isAbout i) = [] := by
    refine List.filter_eq_nil_iff.mpr ?_
    intro d hd habout
    have habout : d.subject? = some i := of_decide_eq_true habout
    rcases h.subject hd with heq | ⟨u, hu, heq⟩
    · exact hne (Option.some.inj (habout.symm.trans heq))
    · have hu := h.sound.grove.number_mem hu
      rw [← Option.some.inj (habout.symm.trans heq)] at hu
      omega
  rw [worked, hnone]
  rfl

/-- New numbers are those of the reflection that was read into and of registered ones. -/
theorem ids (h : FirstPass W p n fields root r y σ) : σ.revival.ids =
    ((fields.word? "id").toList.map (·, n) ++ y.ids).foldl
      (fun table entry => Assoc.insert entry.1 entry.2 table) [] := h.grows.ids_opened

theorem root_eq (h : FirstPass W p n fields root r y σ) : σ.revival.root = root := by
  obtain ⟨table, files, hopened, -⟩ := Reader.opened_eq p n fields root
  rw [h.grows.root, hopened]

/-- What was read and registered does not depend on how it is described. -/
theorem unique (h : FirstPass W p n fields root r y σ) {z : Crop}
    (h' : Grows (Reader.siteOf p n fields root) n s z ⟨Reader.opened p n fields root, []⟩ σ) :
    s = r ∧ z.block = y.block ∧ z.queue = y.queue := by
  have harena : σ.revival.project.arena.toList = p.arena.toList.set n (some s) ++ z.block.map some := by
    obtain ⟨table, files, hopened, -⟩ := Reader.opened_eq p n fields root
    rw [h'.arena, hopened]
  obtain ⟨hset, hblock⟩ := List.append_inj (harena.symm.trans h.arena) (by simp)
  have hn : n < p.arena.toList.length := h.lt
  have hplace := congrArg (·[n]?) hset
  simp only [List.getElem?_set_self hn, Option.some.injEq] at hplace
  refine ⟨hplace, ?_, (List.nil_append _).symm.trans (h'.queue.symm.trans h.queue)⟩
  exact List.map_inj_right (fun _ _ => Option.some.inj) |>.mp hblock

/-- What was there before is the same after both passes. -/
theorem settled_before (h : FirstPass W p n fields root r y σ) {symbols : List (Nat × Symbol)}
    {owners : List (Nat × Nat)} (hv : Settled σ.revival σ.queue symbols owners v) {i : Nat}
    (hi : i < p.arena.size) (hne : i ≠ n) : v.project.get? i = p.get? i := by
  have hsame : worked σ.revival σ.queue i = id := funext (h.worked_before hi hne σ.revival)
  rw [hv.get?, hsame, Option.map_id, h.get?_before hi hne]
  rfl

/-- The second pass follows. -/
theorem settles (h : FirstPass W p n fields root r y σ) :
    ∃ u v, Reader.reviveInto Deserializer.standard p n fields root = .ok v ∧
      Reader.carryOutAll σ.queue σ.revival = .ok u ∧
      v.issues = u.issues ++
        (Reader.symbolEntries σ.revival fields).filterMap σ.revival.symbolIssue? ++
        (Reader.ownerEntries fields).filterMap σ.revival.ownerIssue? ∧
      Settled σ.revival σ.queue (Reader.symbolEntries σ.revival fields) (Reader.ownerEntries fields)
        v := by
  obtain ⟨u, v, hu, hv, -, hissues, hsettled⟩ := carryOutAll_settled h.isSome_subject?
    (Reader.symbolEntries σ.revival fields) (Reader.ownerEntries fields)
  refine ⟨u, v, ?_, hu, hissues, hsettled⟩
  rw [Reader.reviveInto, h.read]
  exact hv

end FirstPass

end DocTree
