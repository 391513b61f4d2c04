import DocTree.Proofs.Reading.Renumber

/-!
The account of what is missing. An old number stands in the types and texts of a reflection or in work
that was put off; carrying the work out either replaces it or, if it has no new number, reports it. So
the numbers without a new one that are reported and those that are still held are, together and counted
with repetitions, the same before and after each piece of work.
-/

namespace DocTree

/-! ### Old numbers -/

/-- The old number that is reported as missing where something of this sort named it. -/
def Issue.missed? (m : Mention) : Issue → Option Nat
  | .missingReflection old m' => if m' = m then some old else none
  | _ => none

/-- The old numbers that wait in the types and texts of a reflection. -/
def Reflection.olds (r : Reflection) : Mention → List Nat
  | .referenceType => r.refTargets.filterMap Reader.oldRef?
  | .inlineTag => r.ownTexts.filterMap Reader.oldLink?
  | _ => []

/-- The old numbers of the members and in the description of a category. -/
def Category.olds (k : Category) : Mention → List Nat
  | .group => k.children
  | .inlineTag => (k.description.getD []).filterMap Reader.oldLink?
  | _ => []

/-- The old numbers in a group and its categories. -/
def Group.olds (g : Group) (m : Mention) : List Nat :=
  Category.olds ⟨g.title, g.description, g.children⟩ m ++
    (g.categories.getD []).flatMap (Category.olds · m)

/-- The old numbers that wait in a piece of work. -/
def Deferred.olds (m : Mention) : Deferred → List Nat
  | .groupings _ groups categories =>
    (groups.getD []).flatMap (Group.olds · m) ++ (categories.getD []).flatMap (Category.olds · m)
  | .target _ old => if m = .referenceReflection then [old] else []
  | _ => []

/-- The old numbers that wait in the reflections of a project. -/
def Project.olds (p : Project) (m : Mention) : List Nat := p.reflections.flatMap (Reflection.olds · m)

/-- The numbers that were reported as missing where something of this sort named them. -/
def missed (m : Mention) (issues : List Issue) : List Nat := issues.filterMap (Issue.missed? m)

variable {v w : Revival} {m : Mention} {r : Reflection}

@[simp] theorem missed_append (issues issues' : List Issue) :
    missed m (issues ++ issues') = missed m issues ++ missed m issues' := List.filterMap_append

theorem missed_flatMap {α : Type} (f : α → List Issue) (xs : List α) :
    missed m (xs.flatMap f) = xs.flatMap fun x => missed m (f x) := List.filterMap_flatMap

@[simp] theorem Reader.missing_append (olds olds' : List Nat) :
    missing v (olds ++ olds') = missing v olds ++ missing v olds' := List.filter_append ..

theorem Reader.missing_flatMap {α : Type} (f : α → List Nat) (xs : List α) :
    missing v (xs.flatMap f) = xs.flatMap fun x => missing v (f x) := List.filter_flatMap

/-- Numbers that one sort of thing named are reported for that sort. -/
theorem missed_map (m' : Mention) (olds : List Nat) :
    missed m (olds.map (.missingReflection · m')) = if m' = m then olds else [] := by
  rw [missed, List.filterMap_map]
  split
  · next heq =>
    have hsome : (Issue.missed? m ∘ (Issue.missingReflection · m')) = some := by
      funext old
      exact if_pos heq
    rw [hsome, List.filterMap_some]
  · next hne => exact List.filterMap_eq_nil_iff.mpr fun old _ => if_neg hne

theorem missed_missingLinks (ps : List Part) : missed m (Reader.missingLinks v ps) =
    if .inlineTag = m then Reader.missing v (ps.filterMap Reader.oldLink?) else [] :=
  missed_map _ _

/-- What is reported about a reflection is what is missing of the numbers in it. -/
theorem missed_reflection (r : Reflection) :
    missed m (r.types.flatMap (Reader.missingRefs v) ++
      Reader.missingLinks v (r.types.flatMap Ty.parts ++ r.parts)) = Reader.missing v (r.olds m) := by
  have hrefs : missed m (r.types.flatMap (Reader.missingRefs v)) =
      if .referenceType = m then Reader.missing v (r.refTargets.filterMap Reader.oldRef?) else [] := by
    rw [missed_flatMap, Reflection.refTargets, List.filterMap_flatMap, Reader.missing_flatMap]
    simp only [Reader.missingRefs, missed_map, List.filterMap_map]
    split
    · rfl
    · exact List.flatMap_eq_nil_iff.mpr fun _ _ => rfl
  rw [missed_append, hrefs, missed_missingLinks]
  cases m <;> simp [Reflection.olds, Reflection.ownTexts, Reader.missing]

theorem missed_category (k : Category) :
    missed m (Reader.categoryIssues v k) = Reader.missing v (k.olds m) := by
  rw [Reader.categoryIssues, missed_append, Reader.missingMembers, missed_map, missed_missingLinks]
  cases m <;> simp [Category.olds, Reader.missing]

theorem missed_group (g : Group) :
    missed m (Reader.groupIssues v g) = Reader.missing v (g.olds m) := by
  rw [Reader.groupIssues, missed_append, missed_flatMap, Group.olds, Reader.missing_append,
    Reader.missing_flatMap]
  congr 1
  · exact missed_category ⟨g.title, g.description, g.children⟩
  · exact congrArg List.flatten (List.map_congr_left fun k _ => missed_category k)

/-! ### One piece of work -/

/-- One registered reflection is changed, all others stay in their order. -/
theorem Project.reflections_update {p : Project} {i : ReflectionId} (f : Reflection → Reflection)
    (h : p.get? i = some r) : ∃ before after, p.reflections = before ++ r :: after ∧
      (p.update i f).reflections = before ++ f r :: after := by
  have hi : i < p.arena.toList.length := lt_size_of_get? h
  have hplace : p.arena.toList[i] = some r := by
    rw [get?_eq_toList, List.getElem?_eq_getElem hi] at h
    exact h
  refine ⟨(p.arena.toList.take i).filterMap id, (p.arena.toList.drop (i + 1)).filterMap id, ?_, ?_⟩
  · have hsplit : p.arena.toList = p.arena.toList.take i ++ some r :: p.arena.toList.drop (i + 1) := by
      rw [← hplace, List.getElem_cons_drop, List.take_append_drop]
    rw [reflections, hsplit, List.filterMap_append, ← hsplit]
    rfl
  · have hset : (p.update i f).arena.toList =
        p.arena.toList.take i ++ some (f r) :: p.arena.toList.drop (i + 1) := by
      rw [update, h]
      refine (Array.toList_setIfInBounds ..).trans ?_
      rw [List.set_eq_take_append_cons_drop, if_pos hi]
    rw [reflections, hset, List.filterMap_append]
    rfl

/-- A change that leaves old numbers as they are. -/
theorem Project.olds_update {p : Project} {i : ReflectionId} {f : Reflection → Reflection}
    (h : ∀ s, (f s).olds m = s.olds m) : (p.update i f).olds m = p.olds m := by
  cases hr : p.get? i with
  | none => rw [update, hr]
  | some r =>
    obtain ⟨before, after, heq, heq'⟩ := reflections_update f hr
    rw [olds, olds, heq, heq']
    simp only [List.flatMap_append, List.flatMap_cons, h]

theorem olds_of_eq {s : Reflection} (hrefs : s.refTargets = r.refTargets)
    (htexts : s.ownTexts = r.ownTexts) : s.olds m = r.olds m := by
  cases m <;> simp only [Reflection.olds, hrefs, htexts]

/-- Nothing waits in a reflection that was renumbered. -/
theorem Reflection.Renumbered.olds {ids : List (Nat × ReflectionId)} (h : r.Renumbered ids) :
    r.olds m = [] := by
  have hrefs : r.refTargets.filterMap Reader.oldRef? = [] := by
    refine List.filterMap_eq_nil_iff.mpr ?_
    intro target htarget
    rw [← h.refs target htarget]
    cases target with
    | pending old =>
      rw [RefTarget.renumbered]
      cases ids.lookup old <;> rfl
    | _ => rfl
  have htexts : r.ownTexts.filterMap Reader.oldLink? = [] := by
    refine List.filterMap_eq_nil_iff.mpr ?_
    intro p hp
    rw [← h.texts p hp]
    cases p with
    | inlineTag tag s target linkText =>
      cases target with
      | none => rfl
      | some target =>
        cases target with
        | pending old =>
          rw [Part.renumbered, Part.mapTarget, Option.bind_some, LinkTarget.renumbered?]
          cases ids.lookup old <;> rfl
        | _ => rfl
    | _ => rfl
  cases m <;> simp only [olds, hrefs, htexts]

/-- The account of renumbering a reflection: what waited in it is replaced or reported. -/
theorem resolvePending_balanced (v : Revival) (i : ReflectionId) (m : Mention) :
    (missed m (Reader.resolvePending v i).issues ++
      Reader.missing v ((Reader.resolvePending v i).project.olds m)).Perm
      (missed m v.issues ++ Reader.missing v (v.project.olds m)) := by
  rw [Reader.resolvePending]
  cases hr : v.project.get? i with
  | none => exact .refl _
  | some r =>
    obtain ⟨before, after, heq, heq'⟩ := Project.reflections_update (Reflection.renewed v) hr
    have hafter : (v.project.edit i (Reflection.renewed v)).olds m =
        before.flatMap (Reflection.olds · m) ++ after.flatMap (Reflection.olds · m) := by
      change (v.project.update i (Reflection.renewed v)).reflections.flatMap _ = _
      rw [heq', List.flatMap_append, List.flatMap_cons, (renumbered_renewed v r).olds, List.nil_append]
    have hissues := missed_reflection (m := m) (v := v) r
    change (missed m (v.issues ++ _) ++
      Reader.missing v ((v.project.edit i (Reflection.renewed v)).olds m)).Perm _
    rw [missed_append, hissues, hafter, Project.olds, heq]
    refine List.perm_iff_count.mpr fun x => ?_
    simp only [List.flatMap_append, List.flatMap_cons, Reader.missing_append, List.count_append]
    omega

/-- Groups and categories are not among what waits in reflections; what they name is reported. -/
theorem setGroupings_balanced (v : Revival) (i : ReflectionId) (groups : Option (List Group))
    (categories : Option (List Category)) (m : Mention) :
    (Reader.setGroupings v i groups categories).project.olds m = v.project.olds m ∧
      missed m (Reader.setGroupings v i groups categories).issues =
        missed m v.issues ++ Reader.missing v (Deferred.olds m (.groupings i groups categories)) := by
  constructor
  · exact Project.olds_update fun s => olds_of_eq (refTargets_of_types (types_mapContainer _ s))
      (ownTexts_of_eq (types_mapContainer _ s) (parts_mapContainer _ s))
  · have hissues : missed m ((groups.getD []).flatMap (Reader.groupIssues v) ++
        (categories.getD []).flatMap (Reader.categoryIssues v)) =
        Reader.missing v (Deferred.olds m (.groupings i groups categories)) := by
      rw [missed_append, missed_flatMap, missed_flatMap, Deferred.olds, Reader.missing_append,
        Reader.missing_flatMap, Reader.missing_flatMap]
      simp only [missed_group, missed_category]
    rw [Reader.setGroupings, missed_append, hissues]

/-- Neither is the target of a reference. -/
theorem setTarget_balanced (v : Revival) (i : ReflectionId) (old : Nat) (m : Mention) :
    (Reader.setTarget v i old).project.olds m = v.project.olds m ∧
      missed m (Reader.setTarget v i old).issues =
        missed m v.issues ++ Reader.missing v (Deferred.olds m (.target i old)) := by
  constructor
  · have holds : ∀ target, (v.project.setTarget i target).olds m = v.project.olds m := by
      intro target
      rw [Project.setTarget]
      split
      · exact Project.olds_update fun s => olds_of_eq (refTargets_of_types (types_mapTarget _ s))
          (ownTexts_of_eq (types_mapTarget _ s) (parts_mapTarget _ s))
      · rfl
    have hproject : (v.expect old .referenceReflection).1.project = v.project := by
      rw [Revival.expect]
      cases v.id? old <;> rfl
    simp only [Reader.setTarget, hproject, holds]
  · change missed m (v.expect old .referenceReflection).1.issues = _
    rw [Revival.expect, Deferred.olds]
    cases hid : v.id? old with
    | some id =>
      by_cases hm : m = .referenceReflection <;> simp [Reader.missing, hid, hm]
    | none =>
      have hmissed := missed_map (m := m) .referenceReflection [old]
      rw [List.map_singleton] at hmissed
      simp only [Revival.report, missed_append, hmissed, eq_comm (a := m)]
      split <;> simp [Reader.missing, hid]

/-- The account of one piece of work. -/
theorem carryOut_balanced {d : Deferred} (hd : d.subject?.isSome = true)
    (h : Reader.carryOut v d = .ok w) (m : Mention) :
    (missed m w.issues ++ Reader.missing v (w.project.olds m)).Perm
      (missed m v.issues ++ Reader.missing v (v.project.olds m) ++ Reader.missing v (d.olds m)) := by
  -- Where the projects agree on what waits, the reports are all that is new.
  have hmoved : w.project.olds m = v.project.olds m ∧
      missed m w.issues = missed m v.issues ++ Reader.missing v (d.olds m) →
      (missed m w.issues ++ Reader.missing v (w.project.olds m)).Perm
        (missed m v.issues ++ Reader.missing v (v.project.olds m) ++ Reader.missing v (d.olds m)) := by
    rintro ⟨hproject, hissues⟩
    rw [hproject, hissues]
    refine List.perm_iff_count.mpr fun x => ?_
    simp only [List.count_append]
    omega
  cases d with
  | pendingTargets i =>
    obtain rfl := Except.ok.inj h
    have hnone : Reader.missing v (Deferred.olds m (.pendingTargets i)) = [] := rfl
    rw [hnone, List.append_nil]
    exact resolvePending_balanced v i m
  | groupings i groups categories =>
    obtain rfl := Except.ok.inj h
    exact hmoved (setGroupings_balanced v i groups categories m)
  | target i old =>
    obtain rfl := Except.ok.inj h
    exact hmoved (setTarget_balanced v i old m)
  | projectMaps | extension => cases hd

/-! ### All work -/

theorem Reader.missing_congr (h : v.ids = w.ids) : missing v = missing w := by
  funext olds
  rw [missing, missing, Revival.id?_congr h]

/-- The account of all work that was put off. -/
theorem carryOutAll_balanced {queue : List Deferred} (hqueue : ∀ d ∈ queue, d.subject?.isSome = true)
    (h : Reader.carryOutAll queue v = .ok w) (m : Mention) :
    (missed m w.issues ++ Reader.missing v (w.project.olds m)).Perm
      (missed m v.issues ++ Reader.missing v (v.project.olds m) ++
        Reader.missing v (queue.flatMap (Deferred.olds m))) := by
  induction queue generalizing v with
  | nil =>
    obtain rfl := Except.ok.inj h
    exact .of_eq (List.append_nil _).symm
  | cons d rest ih =>
    have hd := hqueue d (List.mem_cons_self ..)
    obtain ⟨u, hu, hpatch, -⟩ := carryOut_patched (v := v) hd
    rw [Reader.carryOutAll, hu] at h
    have hrest := ih (fun e he => hqueue e (List.mem_cons_of_mem d he)) h
    have hone := carryOut_balanced hd hu m
    rw [Reader.missing_congr hpatch.ids] at hrest
    rw [List.flatMap_cons, Reader.missing_append]
    refine List.perm_iff_count.mpr fun x => ?_
    have hrest := List.perm_iff_count.mp hrest x
    have hone := List.perm_iff_count.mp hone x
    simp only [List.count_append] at hrest hone ⊢
    omega

end DocTree
