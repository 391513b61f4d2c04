import DocTree.Proofs.Reading.Ledger

/-!
No number of a serialized project is left in the revived one. Whatever names a reflection in the end
names a registered one; a target that waited after the first pass has the new number of what it named,
or leads nowhere, and each one that leads nowhere for this reason is reported, once.
-/

namespace DocTree

/-! ### Resolved projects -/

/-- The target is no old number, and a registered reflection if it is one. -/
def RefTarget.Resolved (p : Project) : RefTarget → Prop
  | .pending _ => False
  | .reflection id => p.contains id = true
  | .symbol _ | .broken => True

/-- The target is no old number, and a registered reflection if it is one. -/
def LinkTarget.Resolved (p : Project) : LinkTarget → Prop
  | .pending _ => False
  | .reflection id => p.contains id = true
  | .symbol _ | .url _ => True

/-- The descriptions of groups and categories. -/
def groupTexts (g : Option (List Group) × Option (List Category)) : List Part :=
  (g.1.getD []).flatMap (fun group => group.description.getD [] ++
    (group.categories.getD []).flatMap fun k => k.description.getD []) ++
  (g.2.getD []).flatMap fun k => k.description.getD []

/-- The members of groups and categories. -/
def groupMembers (g : Option (List Group) × Option (List Category)) : List ReflectionId :=
  (g.1.getD []).flatMap (fun group => group.children ++
    (group.categories.getD []).flatMap fun k => k.children) ++
  (g.2.getD []).flatMap fun k => k.children

/-- Whatever names a reflection in the project names a registered one. -/
structure Project.Resolved (p : Project) : Prop where
  refs : ∀ i r, p.get? i = some r → ∀ target ∈ r.refTargets, target.Resolved p
  links : ∀ i r, p.get? i = some r → ∀ part ∈ r.ownTexts ++ groupTexts r.groupings,
    ∀ target, part.target? = some target → target.Resolved p
  members : ∀ i r, p.get? i = some r → ∀ c ∈ groupMembers r.groupings, p.contains c = true
  targets : ∀ i r, p.get? i = some r → ∀ target c, r.target? = some target → target.id? = some c →
    p.contains c = true
  symbols : ∀ entry ∈ p.symbols, p.contains entry.1 = true
  indexed : ∀ s, ∀ i ∈ p.indexed s, p.contains i = true
  owners : ∀ entry ∈ p.files.owners, p.contains entry.2 = true

/-! ### Inside a set of reflections -/

section Within

variable (P : ReflectionId → Prop)

/-- The target is no old number, and one of these reflections if it is one. -/
def RefTarget.Within : RefTarget → Prop
  | .pending _ => False
  | .reflection id => P id
  | .symbol _ | .broken => True

/-- The target is no old number, and one of these reflections if it is one. -/
def LinkTarget.Within : LinkTarget → Prop
  | .pending _ => False
  | .reflection id => P id
  | .symbol _ | .url _ => True

/-- Whatever the reflection names is one of these reflections. -/
structure Reflection.Within (r : Reflection) : Prop where
  refs : ∀ target ∈ r.refTargets, target.Within P
  links : ∀ part ∈ r.ownTexts ++ groupTexts r.groupings,
    ∀ target, part.target? = some target → target.Within P
  members : ∀ c ∈ groupMembers r.groupings, P c
  target : ∀ target c, r.target? = some target → target.id? = some c → P c

end Within

theorem RefTarget.resolved_iff {p : Project} {target : RefTarget} :
    target.Resolved p ↔ target.Within (p.contains · = true) := by
  cases target <;> rfl

theorem LinkTarget.resolved_iff {p : Project} {target : LinkTarget} :
    target.Resolved p ↔ target.Within (p.contains · = true) := by
  cases target <;> rfl

/-! ### After the first pass -/

theorem Reflection.mem_aims {r : Reflection} {x : Aim} : x ∈ r.aims ↔
    (∃ target ∈ r.refTargets, target.aim? = some x) ∨ ∃ p ∈ r.ownTexts, p.aim? = some x := by
  simp only [aims, refTargets, ownTexts, Ty.aims, Part.aims, List.mem_append, List.mem_flatMap,
    List.mem_filterMap, List.mem_map]
  grind

/-- If nothing is pointed at, nothing waits. -/
theorem Reflection.renumbered_of_aims {r : Reflection} (h : r.aims = [])
    (ids : List (Nat × ReflectionId)) : r.Renumbered ids where
  refs := by
    intro target htarget
    cases target with
    | pending old =>
      have hmem : Aim.old old ∈ r.aims := mem_aims.mpr (.inl ⟨_, htarget, rfl⟩)
      rw [h] at hmem
      cases hmem
    | _ => rfl
  texts := by
    intro p hp
    cases p with
    | inlineTag tag s target linkText =>
      cases target with
      | none => rfl
      | some target =>
        cases target with
        | pending old =>
          have hmem : Aim.old old ∈ r.aims := mem_aims.mpr (.inr ⟨_, hp, rfl⟩)
          rw [h] at hmem
          cases hmem
        | _ => rfl
    | _ => rfl

namespace FirstPass

variable {W : Prop} {p : Project} {n : Nat} {fields : Fields} {root : String} {r t : Reflection}
  {y : Crop} {σ : Reading} {v : Revival} {i : Nat}

/-- A new number is that of the reflection that was read into, or of one that was registered. -/
theorem inside_of_id? (h : FirstPass W p n fields root r y σ) {old : Nat} {new : ReflectionId}
    (hnew : σ.revival.id? old = some new) : new = n ∨ ∃ t ∈ y.block, t.id = new := by
  rw [Revival.id?, h.ids] at hnew
  rcases Assoc.mem_foldl_insert (Assoc.mem_of_lookup hnew) with hmem | hmem
  · rcases List.mem_append.mp hmem with hmem | hmem
    · obtain ⟨old', -, heq⟩ := List.mem_map.mp hmem
      exact .inl (congrArg Prod.snd heq).symm
    · exact .inr (h.sound.entries _ hmem)
  · cases hmem

/-- Every new number is that of a registered reflection. -/
theorem contains_of_id? (h : FirstPass W p n fields root r y σ) {old : Nat} {new : ReflectionId}
    (hnew : σ.revival.id? old = some new) : σ.revival.project.contains new = true := by
  rcases h.inside_of_id? hnew with rfl | ⟨u, hu, rfl⟩
  · exact Project.contains_of_get? h.get?_self
  · exact Project.contains_of_get? (h.get?_mem hu)

end FirstPass

namespace Course

variable {W : Prop} {name root : String} {fields : Fields} {r t : Reflection} {y : Crop} {σ : Reading}
  {u v : Revival} {i : Nat}

/-- In the first pass a project holds only reflections that were read. -/
theorem raw (h : Course W name fields root r y σ u v) (ht : σ.revival.project.get? i = some t) :
    t.id = i ∧ t.Raw σ.queue := by
  rw [h.first.queue]
  rcases h.first.cases ht with ⟨rfl, rfl⟩ | ⟨hlt, hne, -⟩ | ⟨hmem, hid, -⟩
  · exact ⟨h.first.number, h.first.raw⟩
  · exact absurd (Nat.lt_one_iff.mp hlt) hne
  · exact ⟨hid, h.first.sound.raw t hmem⟩

/-- In the end a reflection is what the works about it made of it. -/
theorem worked (h : Course W name fields root r y σ u v) (ht : v.project.get? i = some t) :
    ∃ s, σ.revival.project.get? i = some s ∧ t = DocTree.worked σ.revival σ.queue i s := by
  rw [h.settled.get?] at ht
  obtain ⟨s, hs, rfl⟩ := Option.map_eq_some_iff.mp ht
  exact ⟨s, hs, rfl⟩

theorem contains (h : Course W name fields root r y σ u v) (i : ReflectionId) :
    v.project.contains i = σ.revival.project.contains i := by
  rw [Project.contains, Project.contains, h.settled.get?, Option.isSome_map]

end Course

/-! ### Groups -/

theorem groupTexts_regrouped (ids : List (Nat × ReflectionId))
    (g : Option (List Group) × Option (List Category)) :
    groupTexts (regrouped ids g) = (groupTexts g).map (Part.renumbered ids) := by
  have hparts : ∀ ps : Option (List Part), (ps.map (·.map (Part.renumbered ids))).getD [] =
      (ps.getD []).map (Part.renumbered ids) := by
    intro ps
    cases ps <;> rfl
  have hcategories : ∀ ks : Option (List Category),
      ((ks.map (·.map (Category.renumbered ids))).getD []).flatMap (fun k => k.description.getD []) =
        ((ks.getD []).flatMap fun k => k.description.getD []).map (Part.renumbered ids) := by
    intro ks
    cases ks with
    | none => rfl
    | some ks =>
      simp only [Option.map_some, Option.getD_some, List.flatMap_map, List.map_flatMap,
        Category.renumbered, hparts]
  obtain ⟨groups, categories⟩ := g
  rw [groupTexts, groupTexts, regrouped, List.map_append, hcategories]
  congr 1
  cases groups with
  | none => rfl
  | some groups =>
    simp only [Option.map_some, Option.getD_some, List.flatMap_map, List.map_flatMap, Group.renumbered,
      hparts, hcategories, List.map_append]

theorem mem_groupMembers_regrouped {ids : List (Nat × ReflectionId)}
    {g : Option (List Group) × Option (List Category)} {c : ReflectionId}
    (hc : c ∈ groupMembers (regrouped ids g)) : ∃ old, ids.lookup old = some c := by
  have hmembers : ∀ olds : List Nat, c ∈ olds.filterMap (ids.lookup ·) → ∃ old, ids.lookup old = some c := by
    intro olds hmem
    obtain ⟨old, -, hold⟩ := List.mem_filterMap.mp hmem
    exact ⟨old, hold⟩
  have hcategories : ∀ ks : Option (List Category),
      c ∈ ((ks.map (·.map (Category.renumbered ids))).getD []).flatMap (fun k => k.children) →
        ∃ old, ids.lookup old = some c := by
    intro ks hmem
    obtain ⟨k, hk, hmem⟩ := List.mem_flatMap.mp hmem
    cases ks with
    | none => cases hk
    | some ks =>
      obtain ⟨k, -, rfl⟩ := List.mem_map.mp hk
      exact hmembers _ hmem
  obtain ⟨groups, categories⟩ := g
  rcases List.mem_append.mp hc with hmem | hmem
  · obtain ⟨group, hgroup, hmem⟩ := List.mem_flatMap.mp hmem
    cases groups with
    | none => cases hgroup
    | some groups =>
      obtain ⟨group, -, rfl⟩ := List.mem_map.mp hgroup
      rcases List.mem_append.mp hmem with hmem | hmem
      · exact hmembers _ hmem
      · exact hcategories _ hmem
  · exact hcategories _ hmem

/-- What was put off is in the queue. -/
theorem exists_of_putOff {queue : List Deferred} {i : ReflectionId}
    {g : Option (List Group) × Option (List Category)} (h : putOff queue i = some g) :
    ∃ d ∈ queue, d.aims = Part.aims (groupTexts g) := by
  obtain ⟨d, hd, hg⟩ := List.mem_filterMap.mp (List.mem_of_getLast? h)
  refine ⟨d, (List.mem_filter.mp hd).1, ?_⟩
  cases d with
  | groupings id groups categories =>
    obtain rfl := Option.some.inj hg
    simp only [groupTexts, Part.aims, List.filterMap_append, List.filterMap_flatMap]
    rfl
  | _ => cases hg

/-- The owners of files were owners before or were written. -/
theorem mem_owners_foldl {entries : List (FileId × ReflectionId)} {t : FileTable}
    {entry : FileId × ReflectionId}
    (h : entry ∈ (entries.foldl (fun t e => t.setOwner e.1 e.2) t).owners) :
    entry ∈ entries ∨ entry ∈ t.owners := by
  induction entries generalizing t with
  | nil => exact .inr h
  | cons first rest ih =>
    rcases ih h with h | (h : entry ∈ (t.setOwner first.1 first.2).owners)
    · exact .inl (List.mem_cons_of_mem _ h)
    · rw [FileTable.setOwner] at h
      split at h
      · rcases Assoc.mem_insert h with rfl | h
        · exact .inl (List.mem_cons_self ..)
        · exact .inr h
      · exact .inr h

/-! ### What the second pass enters -/

namespace Settled

variable {v w : Revival} {queue : List Deferred} {symbols : List (Nat × Symbol)}
  {owners : List (Nat × Nat)}

theorem exists_of_symbols (h : Settled v queue symbols owners w) {entry : ReflectionId × Symbol}
    (hentry : entry ∈ w.project.symbols) :
    entry ∈ v.project.symbols ∨ ∃ old, v.id? old = some entry.1 := by
  rw [h.symbols] at hentry
  rcases Assoc.mem_foldl_insert hentry with hmem | hmem
  · obtain ⟨work, -, hid⟩ := List.mem_filterMap.mp hmem
    obtain ⟨new, hnew, rfl⟩ := Option.map_eq_some_iff.mp hid
    exact .inr ⟨work.1, hnew⟩
  · exact .inl hmem

theorem exists_of_indexed (h : Settled v queue symbols owners w) {s : Symbol} {i : ReflectionId}
    (hi : i ∈ w.project.indexed s) : i ∈ v.project.indexed s ∨ ∃ old, v.id? old = some i := by
  rw [Project.indexed, h.symbolIndex, ← Project.indexed, Project.mem_indexed_enterSymbols] at hi
  refine hi.imp_right fun hmem => ?_
  obtain ⟨work, -, hid⟩ := List.mem_filterMap.mp hmem
  obtain ⟨new, hnew, heq⟩ := Option.map_eq_some_iff.mp hid
  obtain rfl : new = i := congrArg Prod.fst heq
  exact ⟨work.1, hnew⟩

theorem exists_of_owners (h : Settled v queue symbols owners w) {entry : FileId × ReflectionId}
    (hentry : entry ∈ w.project.files.owners) :
    entry ∈ v.project.files.owners ∨ ∃ old, v.id? old = some entry.2 := by
  rw [h.files] at hentry
  rcases mem_owners_foldl hentry with hmem | hmem
  · obtain ⟨work, -, hfile⟩ := List.mem_filterMap.mp hmem
    obtain ⟨file, -, hid⟩ := Option.bind_eq_some_iff.mp hfile
    obtain ⟨new, hnew, rfl⟩ := Option.map_eq_some_iff.mp hid
    exact .inr ⟨work.2, hnew⟩
  · exact .inl hmem

end Settled

/-! ### One reflection -/

section Worked

variable {P : ReflectionId → Prop} {ids : List (Nat × ReflectionId)}

/-- A target that was renumbered leads to one of the new numbers, if to any. -/
theorem RefTarget.within_renumbered (hnew : ∀ old new, ids.lookup old = some new → P new)
    {target : RefTarget} (hold : ∀ a, target.aim? = some a → a.isOld = true) :
    (target.renumbered ids).Within P := by
  cases target with
  | reflection id => cases hold _ rfl
  | pending old =>
    rw [RefTarget.renumbered]
    cases hid : ids.lookup old with
    | none => trivial
    | some new => exact hnew old new hid
  | _ => trivial

/-- A link that was renumbered leads to one of the new numbers, if to any. -/
theorem Part.within_renumbered (hnew : ∀ old new, ids.lookup old = some new → P new) {part : Part}
    (hold : ∀ a, part.aim? = some a → a.isOld = true) {target : LinkTarget}
    (htarget : (part.renumbered ids).target? = some target) : target.Within P := by
  cases part with
  | inlineTag tag s before linkText =>
    cases before with
    | none => cases htarget
    | some before =>
      have htarget : before.renumbered? ids = some target := htarget
      cases before with
      | reflection id => cases hold _ rfl
      | pending old =>
        obtain ⟨new, hid, rfl⟩ := Option.map_eq_some_iff.mp htarget
        exact hnew old new hid
      | symbol s | url address =>
        obtain rfl := Option.some.inj htarget
        trivial
  | _ => cases htarget

namespace Reflection.Raw

variable {v : Revival} {queue : List Deferred} {s : Reflection}

/-- All targets and texts of a reflection are renumbered. -/
theorem targets (h : s.Raw queue) (v : Revival) :
    (worked v queue s.id s).refTargets = s.refTargets.map (RefTarget.renumbered v.ids) ∧
      (worked v queue s.id s).ownTexts = s.ownTexts.map (Part.renumbered v.ids) := by
  refine worked_targets v ?_
  by_cases haims : s.aims = []
  · exact .inl (Reflection.renumbered_of_aims haims _)
  · exact .inr (h.noted haims)

/-- Groups and categories are those that were put off, renumbered. -/
theorem groupings (h : s.Raw queue)
    (hsome : (worked v queue s.id s).container?.isSome = true) :
    (worked v queue s.id s).groupings =
      ((putOff queue s.id).map (regrouped v.ids)).getD (none, none) := by
  have hplain : s.groupings = (none, none) := by
    have hplain := h.plain
    rw [Reflection.groupings, Reflection.container?]
    cases hv : s.variant with
    | project d | declaration d =>
      rw [hv] at hplain
      exact Prod.ext hplain.1 hplain.2
    | _ => rfl
  rw [worked_groupings v queue s.id s hsome, hplain]

/-- There are no groups and categories, or they were put off and are renumbered. -/
theorem groupings_cases (h : s.Raw queue) (v : Revival) :
    (worked v queue s.id s).groupings = (none, none) ∨
      ∃ g, putOff queue s.id = some g ∧
        (worked v queue s.id s).groupings = regrouped v.ids g := by
  by_cases hsome : (worked v queue s.id s).container?.isSome = true
  · rw [h.groupings hsome]
    cases hg : putOff queue s.id with
    | none => exact .inl rfl
    | some g => exact .inr ⟨g, rfl, rfl⟩
  · refine .inl ?_
    rw [Reflection.groupings, Option.not_isSome_iff_eq_none.mp hsome]
    rfl

/-- After the works about it a reflection names nothing but new numbers. -/
theorem within (h : s.Raw queue) (hold : ∀ d ∈ queue, ∀ a ∈ d.aims, a.isOld = true)
    (hnew : ∀ old new, v.ids.lookup old = some new → P new) :
    (worked v queue s.id s).Within P where
  refs := by
    intro target htarget
    rw [(h.targets v).1] at htarget
    obtain ⟨before, hbefore, rfl⟩ := List.mem_map.mp htarget
    refine RefTarget.within_renumbered hnew ?_
    intro a ha
    exact h.old a (Reflection.mem_aims.mpr (.inl ⟨before, hbefore, ha⟩))
  links := by
    intro part hpart target htarget
    rcases List.mem_append.mp hpart with hpart | hpart
    · rw [(h.targets v).2] at hpart
      obtain ⟨before, hbefore, rfl⟩ := List.mem_map.mp hpart
      refine Part.within_renumbered hnew ?_ htarget
      intro a ha
      exact h.old a (Reflection.mem_aims.mpr (.inr ⟨before, hbefore, ha⟩))
    · rcases h.groupings_cases v with hnone | ⟨g, hg, heq⟩
      · rw [hnone] at hpart
        cases hpart
      · rw [heq, groupTexts_regrouped] at hpart
        obtain ⟨before, hbefore, rfl⟩ := List.mem_map.mp hpart
        obtain ⟨d, hd, haims⟩ := exists_of_putOff hg
        refine Part.within_renumbered hnew ?_ htarget
        intro a ha
        refine hold d hd a ?_
        rw [haims]
        exact List.mem_filterMap.mpr ⟨before, hbefore, ha⟩
  members := by
    intro c hc
    rcases h.groupings_cases v with hnone | ⟨g, -, heq⟩
    · rw [hnone] at hc
      cases hc
    · rw [heq] at hc
      obtain ⟨old, hold⟩ := mem_groupMembers_regrouped hc
      exact hnew old c hold
  target := by
    intro target c htarget hc
    rcases worked_target v queue s.id s htarget with hbefore | ⟨old, rfl⟩
    · have hplain := h.plain
      rw [Reflection.target?] at hbefore
      cases hv : s.variant with
      | reference before =>
        rw [hv] at hplain hbefore
        obtain rfl := Option.some.inj hbefore
        obtain rfl : before = .broken := hplain
        cases hc
      | _ =>
        rw [hv] at hbefore
        cases hbefore
    · exact hnew old c hc

end Reflection.Raw

end Worked

/-! ### The whole project -/

namespace Course

variable {W : Prop} {name root : String} {fields : Fields} {r : Reflection} {y : Crop} {σ : Reading}
  {u v : Revival}

/-- All targets and texts of a reflection are renumbered. -/
theorem targets (h : Course W name fields root r y σ u v) {i : Nat} {s : Reflection}
    (hs : σ.revival.project.get? i = some s) :
    (DocTree.worked σ.revival σ.queue i s).refTargets =
        s.refTargets.map (RefTarget.renumbered σ.revival.ids) ∧
      (DocTree.worked σ.revival σ.queue i s).ownTexts =
        s.ownTexts.map (Part.renumbered σ.revival.ids) := by
  obtain ⟨rfl, hraw⟩ := h.raw hs
  exact hraw.targets σ.revival

/-- What a reflection names after both passes is registered. -/
theorem within (h : Course W name fields root r y σ u v) {i : Nat} {t : Reflection}
    (ht : v.project.get? i = some t) : t.Within (v.project.contains · = true) := by
  obtain ⟨s, hs, rfl⟩ := h.worked ht
  obtain ⟨rfl, hraw⟩ := h.raw hs
  refine hraw.within ?_ ?_
  · intro d hd
    exact h.first.sound.old d (h.first.queue ▸ hd)
  · intro old new hnew
    exact (h.contains new).trans (h.first.contains_of_id? hnew)

/-- After both passes whatever names a reflection names a registered one. -/
theorem resolved (h : Course W name fields root r y σ u v) : v.project.Resolved where
  refs := fun i t ht target htarget => RefTarget.resolved_iff.mpr ((h.within ht).refs target htarget)
  links := fun i t ht part hpart target htarget =>
    LinkTarget.resolved_iff.mpr ((h.within ht).links part hpart target htarget)
  members := fun i t ht => (h.within ht).members
  targets := fun i t ht => (h.within ht).target
  symbols := by
    intro entry hentry
    rcases h.settled.exists_of_symbols hentry with hmem | ⟨old, hnew⟩
    · rw [h.first.symbols] at hmem
      cases hmem
    · exact (h.contains _).trans (h.first.contains_of_id? hnew)
  indexed := by
    intro s i hi
    rcases h.settled.exists_of_indexed hi with hmem | ⟨old, hnew⟩
    · rw [Project.indexed, h.first.symbolIndex] at hmem
      cases hmem
    · exact (h.contains i).trans (h.first.contains_of_id? hnew)
  owners := by
    intro entry hentry
    rcases h.settled.exists_of_owners hentry with hmem | ⟨old, hnew⟩
    · rw [h.first.owners] at hmem
      cases hmem
    · exact (h.contains _).trans (h.first.contains_of_id? hnew)

/-- Nothing in the types and texts of a reflection waits after the second pass. -/
theorem renumbered (h : Course W name fields root r y σ u v) {i : Nat} {s : Reflection}
    (hs : σ.revival.project.get? i = some s) :
    (DocTree.worked σ.revival σ.queue i s).Renumbered σ.revival.ids := by
  obtain ⟨hrefs, htexts⟩ := h.targets hs
  constructor
  · intro target htarget
    rw [hrefs] at htarget
    obtain ⟨before, -, rfl⟩ := List.mem_map.mp htarget
    exact before.renumbered_renumbered _
  · intro part hpart
    rw [htexts] at hpart
    obtain ⟨before, -, rfl⟩ := List.mem_map.mp hpart
    exact before.renumbered_renumbered _

/-- Once the works are done no old number waits in a reflection. -/
theorem olds (h : Course W name fields root r y σ u v) (m : Mention) : u.project.olds m = [] := by
  obtain ⟨w, hall, hpatch, -⟩ := carryOutAll_patched (v := σ.revival) h.first.isSome_subject?
  have hw := hall []
  rw [List.append_nil, h.work] at hw
  obtain rfl : u = w := Except.ok.inj hw
  refine List.flatMap_eq_nil_iff.mpr ?_
  intro t ht
  obtain ⟨i, ht⟩ := Project.mem_reflections.mp ht
  rw [hpatch.get?] at ht
  obtain ⟨s, hs, rfl⟩ := Option.map_eq_some_iff.mp ht
  exact (h.renumbered hs).olds

end Course

/-! ### The account of a whole project -/

/-- What a type, a text, a group or a reference can name. The symbol map and the table of files have
accounts of their own. -/
def Mention.isInner : Mention → Bool
  | .group | .inlineTag | .referenceReflection | .referenceType => true
  | _ => false

/-- The old numbers that wait after the first pass, in reflections or in work that was put off. -/
def Reading.olds (σ : Reading) (m : Mention) : List Nat :=
  σ.revival.project.olds m ++ σ.queue.flatMap (Deferred.olds m)

/-- Nothing is missed where no number was reported as missing. -/
theorem missed_of_found {issues : List Issue} (h : issues.filter Issue.isMissing = []) (m : Mention) :
    missed m issues = [] := by
  refine List.filterMap_eq_nil_iff.mpr ?_
  intro issue hissue
  cases issue with
  | missingReflection old m' => exact absurd rfl (List.filter_eq_nil_iff.mp h _ hissue)
  | _ => rfl

/-- The symbol map is not where a type, a text or a group stands. -/
theorem missed_symbolIssues {m : Mention} (hm : m.isInner = true) (v : Revival)
    (entries : List (Nat × Symbol)) : missed m (entries.filterMap v.symbolIssue?) = [] := by
  refine List.filterMap_eq_nil_iff.mpr ?_
  intro issue hissue
  obtain ⟨entry, -, heq⟩ := List.mem_filterMap.mp hissue
  rw [Revival.symbolIssue?] at heq
  split at heq
  · obtain rfl := Option.some.inj heq
    cases m <;> first | rfl | cases hm
  · cases heq

/-- The table of files is not where a type, a text or a group stands. -/
theorem missed_ownerIssues {m : Mention} (hm : m.isInner = true) (v : Revival)
    (entries : List (Nat × Nat)) : missed m (entries.filterMap v.ownerIssue?) = [] := by
  refine List.filterMap_eq_nil_iff.mpr ?_
  intro issue hissue
  obtain ⟨entry, -, heq⟩ := List.mem_filterMap.mp hissue
  rw [Revival.ownerIssue?] at heq
  split at heq
  · obtain rfl := Option.some.inj heq
    rfl
  · obtain rfl := Option.some.inj heq
    cases m <;> first | rfl | cases hm
  · cases heq

/-- How a revived project comes from what the first pass left: the same reflections, with every target
and text renumbered where it stood, groups and categories put in place with new numbers, and every old
number without a new one reported once for each time it stood there. -/
structure Renumbers (σ : Reading) (q : Revived) : Prop where
  contains : ∀ i, q.project.contains i = σ.revival.project.contains i
  refs : ∀ i s t, σ.revival.project.get? i = some s → q.project.get? i = some t →
    t.refTargets = s.refTargets.map (RefTarget.renumbered σ.revival.ids)
  texts : ∀ i s t, σ.revival.project.get? i = some s → q.project.get? i = some t →
    t.ownTexts = s.ownTexts.map (Part.renumbered σ.revival.ids)
  groupings : ∀ i t, q.project.get? i = some t → t.container?.isSome = true →
    t.groupings = ((putOff σ.queue i).map (regrouped σ.revival.ids)).getD (none, none)
  issues : ∀ m : Mention, m.isInner = true → (missed m q.issues).Perm
    ((σ.olds m).filter fun old => (σ.revival.ids.lookup old).isNone)

namespace Course

variable {W : Prop} {name root : String} {fields : Fields} {r : Reflection} {y : Crop} {σ : Reading}
  {u v : Revival}

/-- What is reported is what waited and has no new number. -/
theorem missed_perm (h : Course W name fields root r y σ u v) {m : Mention} (hm : m.isInner = true) :
    (missed m v.issues).Perm ((σ.olds m).filter fun old => (σ.revival.ids.lookup old).isNone) := by
  have hbalance := carryOutAll_balanced h.first.isSome_subject? h.work m
  rw [h.olds, missed_of_found h.first.found, List.nil_append, ← Reader.missing_append] at hbalance
  rw [h.issues, missed_append, missed_append, missed_symbolIssues hm, missed_ownerIssues hm,
    List.append_nil]
  exact hbalance

theorem renumbers (h : Course W name fields root r y σ u v) :
    Renumbers σ ⟨v.project, v.issues, v.journal⟩ where
  contains := h.contains
  refs := by
    intro i s t hs ht
    obtain ⟨s', hs', rfl⟩ := h.worked ht
    obtain rfl := Option.some.inj (hs'.symm.trans hs)
    exact (h.targets hs).1
  texts := by
    intro i s t hs ht
    obtain ⟨s', hs', rfl⟩ := h.worked ht
    obtain rfl := Option.some.inj (hs'.symm.trans hs)
    exact (h.targets hs).2
  groupings := by
    intro i t ht hsome
    obtain ⟨s, hs, rfl⟩ := h.worked ht
    obtain ⟨rfl, hraw⟩ := h.raw hs
    exact hraw.groupings hsome
  issues := fun m hm => h.missed_perm hm

end Course

/-- No number of a serialized project is left in the revived one: whatever names a reflection there names
a registered one, and it comes from what the first pass left by giving new numbers for old ones,
dropping those that have none, and reporting each. -/
theorem revived_resolved {value : Json} {name : Option String} {root : String} {q : Revived}
    (h : Deserializer.standard.revive value name root = .ok q) :
    q.project.Resolved ∧ ∃ fields σ, value = .obj fields ∧
      Reader.readTree Deserializer.standard
        (.ofName ((name.or (Fields.text? fields "name")).getD "")) ReflectionId.project fields root =
          .ok σ ∧
      Deserializer.standard.reviveWithIds value name root = .ok (q, σ.revival.ids) ∧
      Renumbers σ q := by
  obtain ⟨ids, hread⟩ := reviveWithIds_of_revive h
  obtain ⟨fields, r, y, σ, u, v, rfl, hcourse, rfl, rfl⟩ := course_of_reviveWithIds hread
  refine ⟨hcourse.resolved, fields, σ, rfl, hcourse.first.read, ?_, hcourse.renumbers⟩
  rw [hread, hcourse.settled.ids]

/-- A project with a variable. Its type names the variable and a reflection that is not there. -/
def dangling : Json := .obj
  [("variant", .str "project"), ("name", .str "p"), ("children", .arr [.obj
    [("variant", .str "declaration"), ("name", .str "A"), ("id", .ofNat 7), ("kind", .ofNat 32),
      ("type", .obj [("type", .str "union"), ("types", .arr
        [.obj [("type", .str "reference"), ("name", .str "A"), ("target", .ofNat 7)],
          .obj [("type", .str "reference"), ("name", .str "B"), ("target", .ofNat 8)]])])]])]

theorem revived_resolved_dangling : ∃ q, Deserializer.standard.revive dangling none "/repo" = .ok q ∧
    q.project.Resolved ∧ q.issues = [.missingReflection 8 .referenceType] := by
  have hissues : (Deserializer.standard.revive dangling none "/repo").toOption.map Revived.issues =
      some [.missingReflection 8 .referenceType] := by decide +kernel
  cases h : Deserializer.standard.revive dangling none "/repo" with
  | error reason =>
    rw [h] at hissues
    cases hissues
  | ok q =>
    rw [h] at hissues
    exact ⟨q, rfl, (revived_resolved h).1, Option.some.inj hissues⟩

end DocTree
