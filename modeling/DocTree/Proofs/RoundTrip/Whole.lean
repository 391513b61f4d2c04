import DocTree.Proofs.Reading.SecondPass
import DocTree.Proofs.RoundTrip.Maps

/-!
A whole project written and read again. Reading never fails; the new project has exactly the places of
the old one, each with the image of what is copied there, and it has the symbols, files and owners
that were written, as far as they could be found.
-/

namespace DocTree

namespace Copying

variable {c : Copying} {clean : Prop} {spots : List Spot}

/-- The image depends on the new numbers alone. -/
theorem image_congr {v w : Revival} (h : v.ids = w.ids) (s : Spot) : c.image v s = c.image w s := by
  have hregrouped : c.regrouped v = c.regrouped w := by
    funext r k
    simp only [regrouped, Reader.newGroup_congr h, Reader.newCategory_congr h]
  rw [image, image, hregrouped]
  simp only [Reflection.renewed, Reader.newType_congr h, Reader.newPart_congr h,
    Revival.id?_congr h]

/-- What reading makes of a project that was written. -/
structure Revives (c : Copying) (clean : Prop) (spots : List Spot) (w : Revival) : Prop where
  get? : ∀ k, w.project.get? k = spots[k]?.map (c.image w)
  size : w.project.arena.size = spots.length
  ids : w.ids = idTable spots
  fileIds : w.fileIds = c.fileCopy.2
  symbols : w.project.symbols = (w.symbolEntries c.symbolWork).foldl
    (fun table entry => Assoc.insert entry.1 entry.2 table) []
  indexed : ∀ s, w.project.indexed s =
    (((w.symbolEntries c.symbolWork).filter (·.2 = s)).map (·.1)).foldl enterOnce []
  files : w.project.files =
    (w.ownerEntries c.ownerWork).foldl (fun t e => t.setOwner e.1 e.2) c.fileCopy.1
  issues : clean → c.Covered w → (∀ e ∈ c.symbolWork, (w.id? e.1).isSome = true) →
    (∀ e ∈ c.ownerWork, (w.fileId? e.1).isSome = true ∧ (w.id? e.2).isSome = true) → w.issues = []

theorem Planted.get? {v : Revival} {σ : Reading} (h : c.Planted clean spots v σ) (k : Nat) :
    σ.revival.project.get? k = spots[k]?.map c.draft := by
  rw [Project.get?_eq_toList, h.arena, List.getElem?_map]
  cases spots[k]? <;> rfl

/-- The second pass, after the first. -/
theorem second_pass (hleg : c.Legible) (hlayout : c.Layout spots) {v : Revival} {σ : Reading}
    (hplanted : c.Planted clean spots v σ) (hv : v.project.symbolIndex = [] ∧ v.project.symbols = [])
    (hfiles : v.project.files = c.fileCopy.1) (hfileIds : v.fileIds = c.fileCopy.2)
    (hissues : v.issues = []) : ∃ w, Reader.carryOutAll
      (σ.queue ++ [.projectMaps c.symbolWork c.ownerWork]) σ.revival = .ok w ∧
      c.Revives clean spots w := by
  have hsubject : ∀ d ∈ σ.queue, d.subject?.isSome = true := fun d hd => by
    obtain ⟨s, -, habout⟩ := hplanted.about d hd
    rw [of_decide_eq_true habout]
    rfl
  obtain ⟨u, w, -, hrun, hquiet, hissues', hsettled⟩ :=
    carryOutAll_settled hsubject c.symbolWork c.ownerWork
  have hids : w.ids = idTable spots := hsettled.ids.trans hplanted.ids
  have hfileIds' : w.fileIds = c.fileCopy.2 :=
    hsettled.fileIds.trans (hplanted.fileIds.trans hfileIds)
  have hsymbols : w.symbolEntries = σ.revival.symbolEntries :=
    Revival.symbolEntries_congr hsettled.ids
  have howners : w.ownerEntries = σ.revival.ownerEntries :=
    Revival.ownerEntries_congr hsettled.ids hsettled.fileIds
  refine ⟨w, hrun, ?_, ?_, hids, hfileIds', ?_, ?_, ?_, ?_⟩
  · intro k
    rw [hsettled.get?, hplanted.get?, Option.map_map]
    refine Option.map_congr fun s hs => ?_
    have hnumber : s.number = k := hlayout.number_eq hs
    rw [Function.comp_apply, ← hnumber, worked_draft (hplanted.works s (List.mem_of_getElem? hs))]
    exact image_congr hsettled.ids.symm s
  · rw [hsettled.size, ← Array.length_toList, hplanted.arena, List.length_map]
  · rw [hsettled.symbols, hplanted.symbols, hv.2, hsymbols]
  · intro s
    rw [Project.indexed, hsettled.symbolIndex, hsymbols, ← Project.indexed,
      Project.indexed_enterSymbols, Project.indexed, hplanted.symbolIndex, hv.1]
    rfl
  · rw [hsettled.files, hplanted.table, hfiles, howners]
  · -- No work has anything to report when all numbers and files are known.
    intro hc hcovered hs ho
    have hcoveredσ : c.Covered σ.revival := by
      intro x hx
      rw [← Revival.id?_congr hsettled.ids]
      exact hcovered x hx
    have hknown : AllKnown σ.revival := by
      intro i r hr
      rw [hplanted.get?] at hr
      obtain ⟨s, -, rfl⟩ := Option.map_eq_some_iff.mp hr
      exact known_draft hleg hcoveredσ s
    have hworks : ∀ d ∈ σ.queue, d.Known σ.revival := by
      intro d hd
      obtain ⟨s, hs, habout⟩ := hplanted.about d hd
      exact known_work hcoveredσ (hplanted.works s hs) hd habout
    rw [Revival.id?_congr hsettled.ids] at hs ho
    rw [Revival.fileId?_congr hsettled.fileIds] at ho
    rw [hissues', hquiet hknown hworks, hplanted.issues hc, hissues,
      Revival.symbolIssues_eq_nil hs, Revival.ownerIssues_eq_nil ho]
    rfl

/-- The object that a project is written as. -/
theorem writeProject_output {r : Reflection}
    (hr : c.project.get? ReflectionId.project = some r) :
    (Serializer.standard.writeProject c.project c.root).output =
      c.objectFields (c.writer.reflectionWithin c.project.arena.size) r := by
  have hwritten : Writer.reflection ⟨Serializer.standard, ⟨c.project, c.root⟩⟩
      ReflectionId.project = some (.obj
        (c.objectFields (c.writer.reflectionWithin c.project.arena.size) r)) :=
    reflectionWithin_succ hr
  simp only [Serializer.writeProject, hwritten]
  rfl

/-- Reading what was written succeeds. -/
theorem reviveWithIds_written (hleg : c.Legible) (hlisted : c.AllListed clean) {r : Reflection}
    (hr : c.project.get? ReflectionId.project = some r) (hproject : r.isProject = true)
    (hfits : c.Fits (c.project.arena.size + 1) ReflectionId.project)
    (hfiles : c.files = c.fileCopy.2) : ∃ spots w, c.Layout spots ∧ c.Revives clean spots w ∧
      Deserializer.standard.reviveWithIds
        (.obj (Serializer.standard.writeProject c.project c.root).output) none c.root =
          .ok (⟨w.project, w.issues, w.journal⟩, w.ids) := by
  obtain ⟨d, hv⟩ : ∃ d, r.variant = .project d := by
    rw [Reflection.isProject, Reflection.tag] at hproject
    cases hv : r.variant with
    | project d => exact ⟨d, rfl⟩
    | _ => rw [hv] at hproject; cases hproject
  rw [writeProject_output hr]
  generalize hinside : c.writer.reflectionWithin c.project.arena.size = inside
  have hname : (c.objectFields inside r).text? "name" = some r.name := by
    rw [Fields.text?, value?_shared (by simp [sharedKeys])]
    simp [Writer.sharedFields]
  have hvariant : (c.objectFields inside r).text? "variant" = some VariantTag.project.name := by
    rw [Fields.text?, value?_shared (by simp [sharedKeys])]
    simp [Writer.sharedFields, Reflection.tag, hv, Variant.tag]
  have hid : (c.objectFields inside r).word? "id" = some ReflectionId.project := by
    rw [Fields.word?, value?_shared (by simp [sharedKeys])]
    simp [Writer.sharedFields, Json.asWord?_ofNat, hleg.id _ r hr, ReflectionId.project,
      Json.wordBound]
  let start := (Revival.start (.ofName r.name) c.root).record ReflectionId.project
    ReflectionId.project
  have hentries : Reader.fileEntries start (c.objectFields inside r) = _ :=
    fileEntries_written hv rfl
  obtain ⟨spots, σ, hlayout, hplanted, hread⟩ := first_pass hleg hlisted hr hproject hfits
    (v := Reader.fileEntries start (c.objectFields inside r)) (by rw [hentries]; rfl)
    (by rw [hentries]; rfl) (by rw [hentries]; rfl) (by rw [hentries, hfiles]; rfl)
    (by rw [hinside]; exact Nat.le_succ _)
  obtain ⟨w, hrun, hrevives⟩ := second_pass hleg hlayout hplanted (by rw [hentries]; exact ⟨rfl, rfl⟩)
    (by rw [hentries]; rfl) (by rw [hentries]; rfl) (by rw [hentries]; rfl)
  rw [hinside] at hread
  have hroot : σ.revival.root = c.root := hplanted.root.trans (by rw [hentries]; rfl)
  have hinto : Reader.reviveInto Deserializer.standard (.ofName r.name) ReflectionId.project
      (c.objectFields inside r) c.root = .ok w := by
    have htree : Reader.readTree Deserializer.standard (.ofName r.name) ReflectionId.project
        (c.objectFields inside r) c.root = .ok σ := by
      rw [Reader.readTree, Reader.opened, hid]
      exact congrArg (· >>= _) hread
    rw [← hrun, ← symbolEntries_written hv hroot, ← ownerEntries_written hleg hv, Reader.reviveInto,
      htree]
    rfl
  refine ⟨spots, w, hlayout, hrevives, ?_⟩
  rw [Deserializer.reviveWithIds, Reader.projectFields, if_pos hvariant]
  have hgiven : ((none : Option String).or ((c.objectFields inside r).text? "name")).getD "" =
      r.name := by rw [hname]; rfl
  change (Reader.orFault (Reader.reviveInto _ (.ofName (((none : Option String).or
    ((c.objectFields inside r).text? "name")).getD "")) _ _ _) >>= _) = _
  rw [hgiven, hinto]
  rfl

end Copying

end DocTree
