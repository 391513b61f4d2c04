import DocTree.Proofs.Reading.Walk
import DocTree.Proofs.Registry.Slot
import DocTree.Reader.Project

/-!
The second pass. A piece of work changes the one reflection that it is about, in a way that depends on
the new numbers alone; so what becomes of a reflection is what the works about it make of it, in their
order. Nothing is amiss when every old number that was stored has a new one.
-/

namespace DocTree

/-! ### Texts -/

/-- The texts of a variant. -/
def Variant.parts : Variant → List Part
  | .project d => d.readme.getD []
  | .declaration d => d.readme.getD []
  | .document d => d.content
  | _ => []

theorem Reflection.parts_eq (r : Reflection) :
    r.parts = r.comment.elim [] Comment.parts ++ r.variant.parts := by
  unfold Reflection.parts
  cases r.variant <;> rfl

/-- The texts of a variant replaced. -/
def Variant.mapParts (f : Part → Part) : Variant → Variant
  | .project d => .project { d with readme := d.readme.map (·.map f) }
  | .declaration d => .declaration { d with readme := d.readme.map (·.map f) }
  | .document d => .document { d with content := d.content.map f }
  | v => v

theorem Reflection.mapParts_eq (f : Part → Part) (r : Reflection) : r.mapParts f =
    { r with comment := r.comment.map (·.mapParts f), variant := r.variant.mapParts f } := by
  unfold Reflection.mapParts
  cases r.variant <;> rfl

/-! ### Values in which nothing waits -/

/-- Nothing in the text waits for a new number. -/
def Part.Still (p : Part) : Prop := ∀ v, Reader.newPart v p = p

/-- Nothing in the type waits for a new number. -/
def Ty.Still (t : Ty) : Prop := ∀ v, Reader.newType v t = t

/-- Nothing in the reflection waits for a new number. -/
def Reflection.Still (r : Reflection) : Prop :=
  ∀ v, (r.mapTypes (Reader.newType v)).mapParts (Reader.newPart v) = r

theorem Comment.mapParts_of_id {f : Part → Part} {m : Comment} (h : ∀ p ∈ m.parts, f p = p) :
    m.mapParts f = m := by
  obtain ⟨summary, tags, modifiers, label⟩ := m
  have hsummary : summary.map f = summary := Ty.map_of_id fun p hp => h p (List.mem_append_left _ hp)
  have htags : tags.map (fun tag => { tag with content := tag.content.map f }) = tags :=
    Ty.map_of_id fun tag htag => by
      rw [Ty.map_of_id fun p hp => h p (List.mem_append_right _ (List.mem_flatMap.mpr ⟨tag, htag, hp⟩))]
  rw [mapParts, hsummary, htags]

theorem Variant.mapParts_of_id {f : Part → Part} {v : Variant} (h : ∀ p ∈ v.parts, f p = p) :
    v.mapParts f = v := by
  have hreadme : ∀ {readme : Option (List Part)}, readme.getD [] = v.parts →
      readme.map (·.map f) = readme := fun {readme} heq => by
    cases readme with
    | none => rfl
    | some ps => exact congrArg some (Ty.map_of_id fun p hp => h p (heq ▸ hp))
  cases v with
  | project d => rw [mapParts, hreadme rfl]
  | declaration d => rw [mapParts, hreadme rfl]
  | document d =>
    have hcontent : d.content.map f = d.content := Ty.map_of_id h
    rw [mapParts, hcontent]
  | _ => rfl

theorem Reflection.still_of {r : Reflection} (htypes : ∀ t ∈ r.types, t.Still)
    (hparts : ∀ p ∈ r.parts, p.Still) : r.Still := fun v => by
  have hsame : r.mapTypes (Reader.newType v) = r := by
    have hid : r.variant.mapTypes (Reader.newType v) = r.variant :=
      (Variant.mapTypes_congr fun t ht => htypes t ht v).trans r.variant.mapTypes_id
    rw [mapTypes, hid]
  rw [parts_eq] at hparts
  have hcomment : r.comment.map (·.mapParts (Reader.newPart v)) = r.comment := by
    cases hm : r.comment with
    | none => rfl
    | some m =>
      rw [hm] at hparts
      exact congrArg some (Comment.mapParts_of_id fun p hp => hparts p (List.mem_append_left _ hp) v)
  rw [hsame, mapParts_eq, hcomment,
    Variant.mapParts_of_id fun p hp => hparts p (List.mem_append_right _ hp) v]

/-- New numbers for all old ones in types and texts. -/
def Reflection.renewed (v : Revival) (r : Reflection) : Reflection :=
  (r.mapTypes (Reader.newType v)).mapParts (Reader.newPart v)

theorem Reflection.renewed_mapContainer (v : Revival) (f : Container → Container) (r : Reflection) :
    (r.mapContainer f).renewed v = (r.renewed v).mapContainer f := by
  obtain ⟨id, name, kind, flags, comment, parent, own, data, anchor, counts, variant⟩ := r
  cases variant <;> rfl

theorem Reflection.renewed_mapTarget (v : Revival) (f : ReferenceTarget → ReferenceTarget)
    (r : Reflection) : (r.mapTarget f).renewed v = (r.renewed v).mapTarget f := by
  obtain ⟨id, name, kind, flags, comment, parent, own, data, anchor, counts, variant⟩ := r
  cases variant <;> rfl

/-! ### Works as changes of reflections -/

/-- The reflection that a piece of work changes. -/
def Deferred.subject? : Deferred → Option ReflectionId
  | .pendingTargets id | .groupings id _ _ | .target id _ => some id
  | .projectMaps .. | .extension _ => none

/-- The work changes this reflection. -/
def Deferred.isAbout (n : ReflectionId) (d : Deferred) : Bool := d.subject? = some n

/-- What a piece of work makes of the reflection that it is about. -/
def Deferred.effect (v : Revival) : Deferred → Reflection → Reflection
  | .pendingTargets _ => fun r => (r.mapTypes (Reader.newType v)).mapParts (Reader.newPart v)
  | .groupings _ groups categories => fun r => r.mapContainer fun k => { k with
      groups := groups.map (·.map (Reader.newGroup v))
      categories := categories.map (·.map (Reader.newCategory v)) }
  | .target _ old => fun r => r.mapTarget fun _ => .fixed (v.id? old)
  | .projectMaps .. | .extension _ => id

section Congruence

variable {v w : Revival}

theorem Revival.id?_congr (h : v.ids = w.ids) : v.id? = w.id? := by
  funext old
  rw [Revival.id?, Revival.id?, h]

theorem Reader.newPart_congr (h : v.ids = w.ids) : Reader.newPart v = Reader.newPart w := by
  have hlink : Reader.newLink? v = Reader.newLink? w := by
    funext target
    cases target <;> simp [Reader.newLink?, Revival.id?_congr h]
  funext p
  rw [Reader.newPart, Reader.newPart, hlink]

theorem Reader.newType_congr (h : v.ids = w.ids) : Reader.newType v = Reader.newType w := by
  have href : Reader.newRef v = Reader.newRef w := by
    funext target
    cases target <;> simp [Reader.newRef, Revival.id?_congr h]
  funext t
  rw [Reader.newType, Reader.newType, href, Reader.newPart_congr h]

theorem Reader.newCategory_congr (h : v.ids = w.ids) :
    Reader.newCategory v = Reader.newCategory w := by
  funext k
  rw [Reader.newCategory, Reader.newCategory, Reader.newMembers, Reader.newMembers,
    Revival.id?_congr h, Reader.newPart_congr h]

theorem Reader.newGroup_congr (h : v.ids = w.ids) : Reader.newGroup v = Reader.newGroup w := by
  funext g
  rw [Reader.newGroup, Reader.newGroup, Reader.newMembers, Reader.newMembers, Revival.id?_congr h,
    Reader.newPart_congr h, Reader.newCategory_congr h]

theorem Deferred.effect_congr (h : v.ids = w.ids) (d : Deferred) : d.effect v = d.effect w := by
  cases d with
  | pendingTargets id =>
    simp only [effect, Reader.newType_congr h, Reader.newPart_congr h]
  | groupings id groups categories =>
    simp only [effect, Reader.newGroup_congr h, Reader.newCategory_congr h]
  | target id old => simp only [effect, Revival.id?_congr h]
  | projectMaps | extension => rfl

end Congruence

/-! ### What is missing -/

/-- Every old number that the reflection holds has a new one. -/
structure Known (v : Revival) (r : Reflection) : Prop where
  refs : ∀ t ∈ r.types, Reader.missingRefs v t = []
  links : Reader.missingLinks v (r.types.flatMap Ty.parts ++ r.parts) = []

/-- Every old number in the work has a new one. -/
def Deferred.Known (v : Revival) : Deferred → Prop
  | .groupings _ groups categories =>
    (groups.getD []).flatMap (Reader.groupIssues v) = [] ∧
      (categories.getD []).flatMap (Reader.categoryIssues v) = []
  | .target _ old => (v.id? old).isSome = true
  | _ => True

/-- The state `w` is `v` with its reflections changed, and nothing else. -/
structure Patched (v w : Revival) (f : ReflectionId → Reflection → Reflection) : Prop where
  get? : ∀ i, w.project.get? i = (v.project.get? i).map (f i)
  size : w.project.arena.size = v.project.arena.size
  symbolIndex : w.project.symbolIndex = v.project.symbolIndex
  symbols : w.project.symbols = v.project.symbols
  table : w.project.files = v.project.files
  ids : w.ids = v.ids
  fileIds : w.fileIds = v.fileIds
  root : w.root = v.root

/-- One reflection is changed. -/
theorem Patched.of_update {v w : Revival} {n : ReflectionId} {f : Reflection → Reflection}
    {graph : Option (List (ReflectionId × List ReflectionId))}
    (hp : w.project = { v.project.update n f with graph := graph }) (hids : w.ids = v.ids)
    (hfiles : w.fileIds = v.fileIds) (hroot : w.root = v.root) :
    Patched v w fun i r => if n = i then f r else r := by
  have harena : w.project.arena = (v.project.update n f).arena := congrArg (·.arena) hp
  have hrest : (v.project.update n f).symbolIndex = v.project.symbolIndex ∧
      (v.project.update n f).symbols = v.project.symbols ∧
      (v.project.update n f).files = v.project.files := by
    rw [Project.update]
    split <;> exact ⟨rfl, rfl, rfl⟩
  refine ⟨fun i => ?_, (congrArg Array.size harena).trans (Project.size_update f),
    (congrArg (·.symbolIndex) hp).trans hrest.1, (congrArg (·.symbols) hp).trans hrest.2.1,
    (congrArg (·.files) hp).trans hrest.2.2, hids, hfiles, hroot⟩
  rw [Project.get?_of_arena_eq harena, Project.get?_update]
  by_cases h : n = i
  · simp only [h, if_true]
  · simp only [h, if_false]
    exact Option.map_id'.symm

/-! ### Numbers that are known -/

section Known

variable {v w : Revival} {r : Reflection}

theorem Reader.missing_eq_nil {olds : List Nat} :
    Reader.missing v olds = [] ↔ ∀ old ∈ olds, (v.id? old).isSome = true := by
  rw [missing, List.filter_eq_nil_iff]
  simp only [Option.isNone_iff_eq_none, ← ne_eq, Option.ne_none_iff_isSome]

theorem Reader.missingRefs_eq_nil {t : Ty} : Reader.missingRefs v t = [] ↔
    ∀ u ∈ t.subterms, ∀ head args, u.ref? = some (head, args) →
      ∀ old, oldRef? head.target = some old → (v.id? old).isSome = true := by
  rw [missingRefs, List.map_eq_nil_iff, missing_eq_nil]
  simp only [List.mem_filterMap, Ty.references]
  constructor
  · intro h u hu head args href old hold
    exact h old ⟨(head, args), ⟨u, hu, href⟩, hold⟩
  · rintro h old ⟨⟨head, args⟩, ⟨u, hu, href⟩, hold⟩
    exact h u hu head args href old hold

theorem Reader.missingLinks_eq_nil {ps : List Part} : Reader.missingLinks v ps = [] ↔
    ∀ p ∈ ps, ∀ old, oldLink? p = some old → (v.id? old).isSome = true := by
  rw [missingLinks, List.map_eq_nil_iff, missing_eq_nil]
  simp only [List.mem_filterMap]
  exact ⟨fun h p hp old hold => h old ⟨p, hp, hold⟩, fun h old ⟨p, hp, hold⟩ => h p hp old hold⟩

/-- A text with new numbers has no old ones. -/
theorem Reader.oldLink?_newPart (p : Part) : oldLink? (newPart v p) = none := by
  cases p with
  | inlineTag tag s target linkText =>
    rw [newPart, Part.mapTarget, oldLink?, Part.target?]
    cases target with
    | none => rfl
    | some target =>
      cases target with
      | pending old => rw [Option.bind_some, newLink?]; cases v.id? old <;> rfl
      | _ => rfl
  | _ => rfl

/-- A type with new numbers has no old ones. -/
theorem Reader.oldRef?_newType (t : Ty) : ∀ u ∈ (newType v t).subterms, ∀ head args,
    u.ref? = some (head, args) → oldRef? head.target = none := by
  have htarget : ∀ target, oldRef? (newRef v target) = none := fun target => by
    cases target with
    | pending old => rw [newRef]; cases v.id? old <;> rfl
    | _ => rfl
  refine Ty.forall_subterms_adjust rfl t fun u _ head args href => ?_
  cases u with
  | reference head' args' | query head' args' =>
    obtain ⟨rfl, -⟩ := Prod.mk.inj (Option.some.inj href)
    exact htarget head'.target
  | _ => cases href

theorem Known.congr (h : Known v r) (hids : w.ids = v.ids) : Known w r := by
  have hid := Revival.id?_congr hids
  refine ⟨fun t ht => ?_, ?_⟩
  · have hrefs := h.refs t ht
    rw [Reader.missingRefs_eq_nil] at hrefs ⊢
    rwa [hid]
  · have hlinks := h.links
    rw [Reader.missingLinks_eq_nil] at hlinks ⊢
    rwa [hid]

theorem types_mapParts (f : Part → Part) (r : Reflection) : (r.mapParts f).types = r.types := by
  rw [Reflection.mapParts_eq, Reflection.types, Reflection.types]
  cases r.variant <;> rfl

theorem types_mapTypes (f : Ty → Ty) (r : Reflection) : (r.mapTypes f).types = r.types.map f :=
  Variant.types_mapTypes f r.variant

theorem parts_mapTypes (f : Ty → Ty) (r : Reflection) : (r.mapTypes f).parts = r.parts := by
  rw [Reflection.parts_eq, Reflection.parts_eq, Reflection.mapTypes]
  cases r.variant <;> rfl

theorem parts_mapParts (f : Part → Part) (r : Reflection) : (r.mapParts f).parts = r.parts.map f := by
  rw [Reflection.parts_eq, Reflection.parts_eq, Reflection.mapParts_eq, List.map_append]
  congr 1
  · cases r.comment with
    | none => rfl
    | some m => simp [Comment.parts, Comment.mapParts, List.map_flatMap, List.flatMap_map]
  · cases r.variant with
    | project d => cases hd : d.readme <;> simp [Variant.mapParts, Variant.parts, hd]
    | declaration d => cases hd : d.readme <;> simp [Variant.mapParts, Variant.parts, hd]
    | _ => rfl

theorem types_mapContainer (f : Container → Container) (r : Reflection) :
    (r.mapContainer f).types = r.types := by
  rw [Reflection.mapContainer, Reflection.types, Reflection.types]
  cases hv : r.variant <;> simp only [hv] <;> rfl

theorem parts_mapContainer (f : Container → Container) (r : Reflection) :
    (r.mapContainer f).parts = r.parts := by
  rw [Reflection.parts_eq, Reflection.parts_eq, Reflection.mapContainer]
  cases hv : r.variant <;> simp only [hv] <;> rfl

theorem types_mapTarget (f : ReferenceTarget → ReferenceTarget) (r : Reflection) :
    (r.mapTarget f).types = r.types := by
  rw [Reflection.mapTarget, Reflection.types, Reflection.types]
  cases hv : r.variant <;> simp only [hv]
  rfl

theorem parts_mapTarget (f : ReferenceTarget → ReferenceTarget) (r : Reflection) :
    (r.mapTarget f).parts = r.parts := by
  rw [Reflection.parts_eq, Reflection.parts_eq, Reflection.mapTarget]
  cases hv : r.variant <;> simp only [hv]
  rfl

/-- No work makes a number unknown. -/
theorem Known.effect (h : Known v r) (d : Deferred) : Known v (d.effect v r) := by
  cases d with
  | pendingTargets id =>
    refine ⟨fun t ht => ?_, ?_⟩
    · rw [Deferred.effect, types_mapParts, types_mapTypes] at ht
      obtain ⟨t', -, rfl⟩ := List.mem_map.mp ht
      refine Reader.missingRefs_eq_nil.mpr fun u hu head args href old hold => ?_
      rw [Reader.oldRef?_newType t' u hu head args href] at hold
      cases hold
    · refine Reader.missingLinks_eq_nil.mpr fun p hp old hold => ?_
      have hnew : ∃ q, p = Reader.newPart v q := by
        rw [Deferred.effect, types_mapParts, types_mapTypes, parts_mapParts, List.mem_append,
          List.mem_flatMap] at hp
        rcases hp with ⟨t, ht, hp⟩ | hp
        · obtain ⟨t', -, rfl⟩ := List.mem_map.mp ht
          rw [Reader.newType, Ty.parts_adjust rfl] at hp
          obtain ⟨q, -, rfl⟩ := List.mem_map.mp hp
          exact ⟨q, rfl⟩
        · obtain ⟨q, -, rfl⟩ := List.mem_map.mp hp
          exact ⟨q, rfl⟩
      obtain ⟨q, rfl⟩ := hnew
      rw [Reader.oldLink?_newPart] at hold
      cases hold
  | groupings id groups categories =>
    refine ⟨fun t ht => h.refs t ?_, ?_⟩
    · rwa [Deferred.effect, types_mapContainer] at ht
    · rw [Deferred.effect, types_mapContainer, parts_mapContainer]
      exact h.links
  | target id old =>
    refine ⟨fun t ht => h.refs t ?_, ?_⟩
    · rwa [Deferred.effect, types_mapTarget] at ht
    · rw [Deferred.effect, types_mapTarget, parts_mapTarget]
      exact h.links
  | projectMaps | extension => exact h

end Known

/-! ### Carrying out -/

theorem Patched.rfl {v : Revival} : Patched v v fun _ r => r :=
  ⟨fun _ => Option.map_id'.symm, by rfl, by rfl, by rfl, by rfl, by rfl, by rfl, by rfl⟩

theorem Patched.trans {u v w : Revival} {f g : ReflectionId → Reflection → Reflection}
    (h : Patched u v f) (h' : Patched v w g) : Patched u w fun i r => g i (f i r) where
  get? := fun i => by
    rw [h'.get?, h.get?, Option.map_map]
    exact Option.map_congr fun _ _ => by rfl
  size := h'.size.trans h.size
  symbolIndex := h'.symbolIndex.trans h.symbolIndex
  symbols := h'.symbols.trans h.symbols
  table := h'.table.trans h.table
  ids := h'.ids.trans h.ids
  fileIds := h'.fileIds.trans h.fileIds
  root := h'.root.trans h.root

/-- The change of one piece of work, at the reflection that it is about. -/
def Deferred.patch (v : Revival) (d : Deferred) (i : ReflectionId) (r : Reflection) : Reflection :=
  if d.isAbout i then d.effect v r else r

/-- A project in which every old number is known. -/
def AllKnown (v : Revival) : Prop := ∀ i r, v.project.get? i = some r → Known v r

theorem patched_of_update {v w : Revival} {d : Deferred} {n : ReflectionId}
    (hd : d.subject? = some n) (h : Patched v w fun i r => if n = i then d.effect v r else r) :
    Patched v w (d.patch v) := by
  have heq : (fun i r => if n = i then d.effect v r else r) = d.patch v := by
    funext i r
    rw [Deferred.patch, Deferred.isAbout, hd]
    simp only [Option.some.injEq, decide_eq_true_eq]
  exact heq ▸ h

theorem mapTarget_of_not_isReference (f : ReferenceTarget → ReferenceTarget) {r : Reflection}
    (h : ¬ r.isReference = true) : r.mapTarget f = r := by
  rw [Reflection.isReference, Reflection.tag] at h
  rw [Reflection.mapTarget]
  cases hv : r.variant with
  | reference t => rw [hv] at h; exact absurd (decide_eq_true rfl) h
  | _ => rfl

/-- One piece of work. -/
theorem carryOut_patched {v : Revival} {d : Deferred} (hd : d.subject?.isSome = true) :
    ∃ w, Reader.carryOut v d = .ok w ∧ Patched v w (d.patch v) ∧
      (AllKnown v → d.Known v → w.issues = v.issues) := by
  cases d with
  | pendingTargets n =>
    refine ⟨_, rfl, patched_of_update rfl ?_, fun hall _ => ?_⟩
    · rw [Reader.resolvePending]
      cases hn : v.project.get? n with
      | none =>
        have hsame : v.project = { v.project.update n (fun r =>
            (r.mapTypes (Reader.newType v)).mapParts (Reader.newPart v)) with
              graph := v.project.graph } := by rw [Project.update, hn]
        exact .of_update hsame rfl rfl rfl
      | some r => exact .of_update rfl rfl rfl rfl
    · rw [Reader.resolvePending]
      cases hn : v.project.get? n with
      | none => rfl
      | some r =>
        have hrefs : r.types.flatMap (Reader.missingRefs v) = [] :=
          List.flatMap_eq_nil_iff.mpr (hall n r hn).refs
        simp only [hrefs, (hall n r hn).links, List.append_nil]
  | groupings n groups categories =>
    refine ⟨_, rfl, patched_of_update rfl (.of_update rfl rfl rfl rfl), fun _ hknown => ?_⟩
    simp only [Reader.setGroupings, hknown.1, hknown.2, List.append_nil]
  | target n old =>
    refine ⟨_, rfl, patched_of_update rfl ?_, fun _ hknown => ?_⟩
    · have hexpect : (v.expect old .referenceReflection).2 = v.id? old ∧
          ∃ issues, (v.expect old .referenceReflection).1 = { v with issues := issues } := by
        rw [Revival.expect]
        cases v.id? old <;> exact ⟨rfl, _, rfl⟩
      obtain ⟨hnew, issues, hrest⟩ := hexpect
      simp only [Reader.setTarget, hnew, hrest, Project.setTarget]
      by_cases href : (v.project.get? n).any (·.isReference) = true
      · rw [if_pos href]
        exact .of_update rfl rfl rfl rfl
      · rw [if_neg href]
        refine ⟨fun i => ?_, rfl, rfl, rfl, rfl, rfl, rfl, rfl⟩
        cases hi : v.project.get? i with
        | none => rfl
        | some r =>
          refine congrArg some ?_
          split
          · next heq =>
            rw [heq, hi, Option.any_some] at href
            exact (mapTarget_of_not_isReference _ href).symm
          · rfl
    · obtain ⟨new, hnew⟩ := Option.isSome_iff_exists.mp hknown
      simp only [Reader.setTarget, Revival.expect, hnew]
  | projectMaps | extension => cases hd

theorem Deferred.Known.congr {v w : Revival} (hids : w.ids = v.ids) {d : Deferred} (h : d.Known v) :
    d.Known w := by
  have hid := Revival.id?_congr hids
  have hmissing : Reader.missing w = Reader.missing v := by
    funext olds
    rw [Reader.missing, Reader.missing, hid]
  have hlinks : Reader.missingLinks w = Reader.missingLinks v := by
    funext ps
    rw [Reader.missingLinks, Reader.missingLinks, hmissing]
  have hcategory : Reader.categoryIssues w = Reader.categoryIssues v := by
    funext k
    rw [Reader.categoryIssues, Reader.categoryIssues, Reader.missingMembers, Reader.missingMembers,
      hmissing, hlinks]
  have hgroup : Reader.groupIssues w = Reader.groupIssues v := by
    funext g
    rw [Reader.groupIssues, Reader.groupIssues, Reader.missingMembers, Reader.missingMembers,
      hmissing, hlinks, hcategory]
  cases d with
  | groupings n groups categories =>
    rw [Deferred.Known, hgroup, hcategory]
    exact h
  | target n old =>
    rw [Deferred.Known, hid]
    exact h
  | _ => trivial

/-- What the works about a reflection make of it, in their order. -/
def worked (v : Revival) (queue : List Deferred) (i : ReflectionId) (r : Reflection) : Reflection :=
  (queue.filter (·.isAbout i)).foldl (fun s d => d.effect v s) r

theorem worked_cons (v : Revival) (d : Deferred) (rest : List Deferred) (i : ReflectionId)
    (r : Reflection) : worked v (d :: rest) i r = worked v rest i (d.patch v i r) := by
  rw [worked, worked, Deferred.patch]
  by_cases h : d.isAbout i = true
  · rw [List.filter_cons_of_pos h, if_pos h, List.foldl_cons]
  · rw [List.filter_cons_of_neg h, if_neg h]

/-- All work about reflections. -/
theorem carryOutAll_patched {queue : List Deferred} {v : Revival}
    (h : ∀ d ∈ queue, d.subject?.isSome = true) :
    ∃ w, (∀ rest, Reader.carryOutAll (queue ++ rest) v = Reader.carryOutAll rest w) ∧
      Patched v w (worked v queue) ∧
      (AllKnown v → (∀ d ∈ queue, d.Known v) → w.issues = v.issues) := by
  induction queue generalizing v with
  | nil => exact ⟨v, fun _ => rfl, Patched.rfl, fun _ _ => rfl⟩
  | cons d queue ih =>
    obtain ⟨u, hu, hpatch, hissues⟩ := carryOut_patched (v := v) (h d (List.mem_cons_self ..))
    obtain ⟨w, hw, hpatches, hissues'⟩ := ih (v := u) fun e he => h e (List.mem_cons_of_mem d he)
    have hworked : (fun i r => worked u queue i (d.patch v i r)) = worked v (d :: queue) := by
      funext i r
      rw [worked_cons, worked, worked]
      simp only [Deferred.effect_congr hpatch.ids]
    refine ⟨w, ?_, hworked ▸ hpatch.trans hpatches, fun hall hknown => ?_⟩
    · intro rest
      rw [List.cons_append, Reader.carryOutAll, hu]
      exact hw rest
    · have hkeep : AllKnown u := fun i r hr => by
        rw [hpatch.get?] at hr
        obtain ⟨s, hs, rfl⟩ := Option.map_eq_some_iff.mp hr
        rw [Deferred.patch]
        split
        · exact ((hall i s hs).effect d).congr hpatch.ids
        · exact (hall i s hs).congr hpatch.ids
      exact (hissues' hkeep fun e he => (hknown e (List.mem_cons_of_mem d he)).congr hpatch.ids).trans
        (hissues hall (hknown d (List.mem_cons_self ..)))

end DocTree
