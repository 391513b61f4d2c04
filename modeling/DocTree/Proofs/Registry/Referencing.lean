import DocTree.Proofs.Registry.Command

/-!
The references of a target over whole runs. Commands change a registry, the root is edited without
the registry being told, and questions keep what they find out. Whenever the references of a target
are asked for, the table that answers agrees with a plain scan: either it was forgotten since the last
change, or everything in it was looked up and nothing it rests on has moved.
-/

namespace DocTree

/-- Edits that leave to the registry what it keeps of a reflection: its number, its parent and its
sort. -/
def Reflection.KeepsPlace (f : Reflection → Reflection) : Prop :=
  ∀ r, (f r).id = r.id ∧ (f r).parent = r.parent ∧ (f r).tag = r.tag

namespace Project

variable {p q : Project} {i t : ReflectionId} {name : String} {f : Reflection → Reflection}

/-- Commands whose edits leave each reflection its place. -/
def Command.KeepsPlace : Command → Prop
  | .edit _ f => Reflection.KeepsPlace f
  | _ => True

/-- A registry that comes from a new project by commands, by edits of the root and by questions whose
outcome is kept. -/
inductive Reachable (name : String) : Project → Prop where
  | new : Reachable name (ofName name)
  | command {p q : Project} {c : Command} {ids : List ReflectionId} : Reachable name p →
      c.KeepsPlace → p.perform c = .ok (q, ids) → Reachable name q
  | editRoot {p : Project} {f : Reflection → Reflection} : Reachable name p →
      Reflection.KeepsPlace f → Reachable name (p.editRoot f)
  | referenceTarget {p : Project} (i : ReflectionId) : Reachable name p →
      Reachable name (p.referenceTarget i).1
  | referencing {p : Project} (t : ReflectionId) : Reachable name p →
      Reachable name (p.referencing t).1

/-! ### Reflections in the order of their numbers -/

/-- Some of the reflections by their numbers, the least first. -/
theorem ids_filter_reflections (hid : ∀ i r, p.get? i = some r → r.id = i)
    (P : Reflection → Bool) : (p.reflections.filter P).map (·.id) =
      (List.range p.arena.size).filter fun i => (p.get? i).any P := by
  have hheld : p.arena.toList = (List.range p.arena.size).map p.get? := by
    refine List.ext_getElem (by simp) fun i hi _ => ?_
    have hlt : i < p.arena.size := by simpa using hi
    simp [get?, Array.getElem?_eq_getElem hlt]
  have hfilter : ∀ ids : List ReflectionId,
      ((ids.filterMap p.get?).filter P).map (·.id) = ids.filter fun i => (p.get? i).any P := by
    intro ids
    induction ids with
    | nil => rfl
    | cons i rest ih =>
      cases hr : p.get? i with
      | none => simp [hr, ih]
      | some r =>
        by_cases hP : P r = true
        · simp [hr, hP, ih, hid i r hr]
        · simp [hr, hP, ih]
  rw [reflections, hheld, List.filterMap_map]
  exact hfilter _

theorem referenceIds_eq (hid : ∀ i r, p.get? i = some r → r.id = i) :
    p.referenceIds = (List.range p.arena.size).filter fun i => (p.get? i).any (·.isReference) :=
  ids_filter_reflections hid _

/-- A plain scan finds each reference once, the least number first. -/
theorem pairwise_referencesTo (hid : ∀ i r, p.get? i = some r → r.id = i) (t : ReflectionId) :
    (p.referencesTo t).Pairwise (· < ·) := by
  rw [referencesTo, referenceIds_eq hid]
  exact (List.pairwise_lt_range.filter _).filter _

/-! ### Edits -/

/-- Numbers, parents and the table of children survive an edit that leaves each reflection its
place. -/
theorem Numbered.update (h : p.Numbered) (hf : Reflection.KeepsPlace f) :
    (p.update i f).Numbered := by
  have hheld : ∀ j r, (p.update i f).get? j = some r →
      ∃ s, p.get? j = some s ∧ r.id = s.id ∧ r.parent = s.parent ∧ r.tag = s.tag := by
    intro j r hr
    rw [get?_update] at hr
    split at hr
    · obtain ⟨s, hs, rfl⟩ := Option.map_eq_some_iff.mp hr
      exact ⟨s, hs, hf s⟩
    · exact ⟨r, hr, rfl, rfl, rfl⟩
  have hparent : ∀ j, (p.update i f).parent? j = p.parent? j := fun j =>
    parent?_update fun r => (hf r).2.1
  refine ⟨fun j r hr => ?_, ?_, fun j r hr hj => ?_, fun a j => ?_, fun a => ?_⟩
  · obtain ⟨s, hs, hid, -⟩ := hheld j r hr
    exact hid.trans (h.id j s hs)
  · obtain ⟨r, hr⟩ := contains_iff.mp ((contains_update f).trans h.contains_root)
    obtain ⟨s, hs, -, hrs, htag⟩ := hheld _ r hr
    obtain ⟨s', hs', hproject, hnone⟩ := h.root
    obtain rfl := Option.some.inj (hs.symm.trans hs')
    refine ⟨r, hr, ?_, hrs.trans hnone⟩
    rwa [Reflection.isProject, htag]
  · obtain ⟨s, hs, -, hrs, htag⟩ := hheld j r hr
    obtain ⟨hproject, a, ha, hcontains⟩ := h.below j s hs hj
    refine ⟨?_, a, hrs.trans ha, (contains_update f).trans hcontains⟩
    rwa [Reflection.isProject, htag]
  · rw [registeredChildren, registered_update, hparent]
    exact h.listed a j
  · rw [registeredChildren, registered_update]
    exact h.nodup a

/-- An edit through the registry makes it forget its table. -/
theorem Sound.edit_place (h : p.Sound) (hf : Reflection.KeepsPlace f) : (p.edit i f).Sound := by
  refine ⟨?_, graphFits_of_none rfl⟩
  have hupdate : (p.update i f).Numbered := h.numbered.update hf
  exact hupdate.of_outline rfl fun _ => rfl

/-- The root is no reference, and stays none. -/
theorem target?_editRoot (hp : p.Numbered) (hf : Reflection.KeepsPlace f) (i : ReflectionId) :
    ((p.editRoot f).get? i).bind (·.target?) = (p.get? i).bind (·.target?) := by
  by_cases hi : ReflectionId.project = i
  · subst hi
    obtain ⟨r, hr, hproject, -⟩ := hp.root
    have htag : r.tag = .project := of_decide_eq_true hproject
    have hnone : ∀ s : Reflection, s.tag = .project → s.target? = none := by
      intro s hs
      cases hv : s.variant <;> simp_all [Reflection.tag, Variant.tag, Reflection.target?]
    rw [Project.editRoot, get?_update_self, hr, Option.map_some, Option.bind_some, Option.bind_some,
      hnone r htag, hnone (f r) ((hf r).2.2.trans htag)]
  · rw [Project.editRoot, get?_update_of_ne hi]

theorem referenceIds_editRoot (hp : p.Numbered) (hf : Reflection.KeepsPlace f) :
    (p.editRoot f).referenceIds = p.referenceIds := by
  have hany : ∀ i, ((p.editRoot f).get? i).any (·.isReference) = (p.get? i).any (·.isReference) := by
    intro i
    rw [Project.editRoot, get?_update]
    split
    · cases p.get? i with
      | none => rfl
      | some r => simp only [Option.map_some, Option.any_some, Reflection.isReference, (hf r).2.2]
    · rfl
  have hid : ∀ i r, (p.editRoot f).get? i = some r → r.id = i := (hp.update hf).id
  rw [referenceIds_eq hid, referenceIds_eq hp.id, Project.editRoot, size_update]
  exact congrArg (List.filter · _) (funext hany)

/-- An edit of the root, of which the registry is not told, leaves the table right: the root is no
reference, and what is in the table was looked up before. -/
theorem GraphFits.editRoot (h : p.GraphFits) (hp : p.Numbered) (hf : Reflection.KeepsPlace f) :
    (p.editRoot f).GraphFits := by
  have hgraph : (p.editRoot f).graph = p.graph := graph_update f
  cases hg : p.graph with
  | none => exact graphFits_of_none (hgraph.trans hg)
  | some g =>
    have hbefore : p.AllSettled := h.settled g hg
    have hafter : (p.editRoot f).AllSettled := by
      intro i r u hr hu
      have hi := target?_editRoot hp hf i
      rw [hr, Option.bind_some, hu] at hi
      obtain ⟨s, hs, hsu⟩ := Option.bind_eq_some_iff.mp hi.symm
      exact hbefore i s u hs hsu
    have htarget : (p.editRoot f).targetOf? = p.targetOf? := by
      funext i
      have hcontains : (p.editRoot f).contains = p.contains := funext fun _ => contains_update f
      rw [targetOf?, targetOf?, hafter.settled?, hbefore.settled?, target?_editRoot hp hf, hcontains]
    refine ⟨fun g' hg' target => ?_, fun _ _ => hafter⟩
    rw [h.lists g' (hgraph ▸ hg') target, referencesTo, referencesTo, referenceIds_editRoot hp hf,
      htarget]

/-! ### Questions -/

theorem Looked.registeredChildren (h : Looked p q) (i : ReflectionId) :
    q.registeredChildren i = p.registeredChildren i := by
  rw [Project.registeredChildren, Project.registeredChildren, h.registered]

/-- Looking one reference up leaves the table right: when there is one, nothing is left to look up. -/
theorem GraphFits.settle (h : p.GraphFits) : (p.settle i).GraphFits := by
  have hlook : Looked p (p.settle i) := looked_settle p i
  have hgraph : (p.settle i).graph = p.graph := by
    rw [Project.settle]
    split
    · exact graph_update _
    · rfl
  refine ⟨fun g hg target => ?_, fun g hg j r u hr hu => ?_⟩
  · rw [h.lists g (hgraph ▸ hg) target, hlook.referencesTo]
  · exact (outcome?_settle p i j hr hu).2 fun s v hs hv => h.settled g (hgraph ▸ hg) j s v hs hv

theorem Sound.referenceTarget (h : p.Sound) : (p.referenceTarget i).1.Sound :=
  ⟨h.numbered.of_outline (looked_settle p i).outline (looked_settle p i).registeredChildren,
    h.graph.settle⟩

theorem Sound.referencing (h : p.Sound) : (p.referencing t).1.Sound := by
  obtain ⟨-, hlook, hgraph, -⟩ := referencing_eq h.numbered.id h.graph t
  exact ⟨h.numbered.of_outline hlook.outline hlook.registeredChildren, hgraph⟩

/-! ### Whole runs -/

theorem Reachable.after {c : Command} (h : Reachable name p) (hc : c.KeepsPlace)
    (hok : (p.perform c).isOk = true) : Reachable name (p.after c) :=
  .command h hc (perform_after hok)

/-- Every command keeps a registry sound, whatever its edits do to the names and kinds that full names
rest on. -/
theorem Sound.perform_place {c : Command} {ids : List ReflectionId} (h : p.Sound)
    (hc : c.KeepsPlace) (hq : p.perform c = .ok (q, ids)) : q.Sound := by
  cases c with
  | edit i f =>
    cases hq
    exact h.edit_place hc
  | _ => exact h.perform (by trivial) hq

theorem Reachable.sound (h : Reachable name p) : p.Sound := by
  induction h with
  | new => exact sound_ofName name
  | command _ hc hq ih => exact ih.perform_place hc hq
  | editRoot _ hf ih => exact ⟨ih.numbered.update hf, ih.graph.editRoot ih.numbered hf⟩
  | referenceTarget i _ ih => exact ih.referenceTarget
  | referencing t _ ih => exact ih.referencing

/-- Whatever was done to a registry before, the references of a target are the registered references
that lead to it, the least number first; asking for those of another target first changes neither the
answer nor where any reference leads. -/
theorem referencing_scan (h : Reachable name p) (t : ReflectionId) :
    (∀ i, i ∈ (p.referencing t).2 ↔
      (∃ r, p.get? i = some r ∧ r.isReference = true) ∧ (p.referenceTarget i).2 = some t) ∧
    (p.referencing t).2.Pairwise (· < ·) ∧
    ∀ u, ((p.referencing u).1.referencing t).2 = (p.referencing t).2 ∧
      ∀ i, ((p.referencing u).1.referenceTarget i).2 = (p.referenceTarget i).2 := by
  have hs : p.Sound := h.sound
  have hid : ∀ i r, p.get? i = some r → r.id = i := hs.numbered.id
  obtain ⟨heq, -⟩ := referencing_eq hid hs.graph t
  refine ⟨fun i => ?_, heq ▸ pairwise_referencesTo hid t, fun u => ?_⟩
  · rw [heq, mem_referencesTo hid]
    exact ⟨fun hi => ⟨isReference_of_targetOf? hi, hi⟩, fun hi => hi.2⟩
  · obtain ⟨-, hlook, -⟩ := referencing_eq hid hs.graph u
    have hu : (p.referencing u).1.Sound := hs.referencing
    obtain ⟨heq', -⟩ := referencing_eq hu.numbered.id hu.graph t
    exact ⟨by rw [heq', heq, hlook.referencesTo], hlook.targetOf?⟩

/-- A reference found by name keeps its target when the root is renamed under it. -/
theorem referencing_scan_renamed :
    let p := ((ofName "p").after (.add 0 .children (.declaration "v" .variable_))).after
      (.add 0 .children (.reference "r" (.toName "v")))
    let q := (p.referencing 1).1.editRoot fun r => { r with name := "v" }
    Reachable "p" q ∧ q.graph.isSome = true ∧ 2 ∈ (q.referencing 1).2 ∧
      (q.referencing 1).2.Pairwise (· < ·) := by
  intro p q
  have hv : Reachable "p" ((ofName "p").after (.add 0 .children (.declaration "v" .variable_))) :=
    Reachable.new.after trivial rfl
  have hp : Reachable "p" p := hv.after trivial rfl
  have hq : Reachable "p" q := .editRoot (.referencing 1 hp) fun r => ⟨rfl, rfl, rfl⟩
  obtain ⟨hmem, hsorted, -⟩ := referencing_scan hq 1
  exact ⟨hq, rfl, (hmem 2).mpr ⟨⟨_, rfl, rfl⟩, by decide⟩, hsorted⟩

end Project

end DocTree
