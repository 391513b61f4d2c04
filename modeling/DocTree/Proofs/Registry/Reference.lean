import DocTree.Proofs.Registry.Outline

/-!
Looking references up. Where a reference leads does not depend on what was looked up before, so the
table of references by target may be collected at any time and says the same as a plain scan.
-/

namespace DocTree

/-- The reflection without what is known of where it leads. -/
def Reflection.untargeted (r : Reflection) : Reflection := r.mapTarget fun _ => .broken

theorem ReferenceTarget.settle_settle (f g : String → Option ReflectionId) (t : ReferenceTarget) :
    (t.settle f).settle g = t.settle f := by
  cases t with
  | fixed id => rfl
  | named name outcome => cases outcome <;> rfl

theorem ReferenceTarget.outcome?_settle (f : String → Option ReflectionId) (t : ReferenceTarget) :
    (t.settle f).outcome?.isSome = true := by
  cases t with
  | fixed id => rfl
  | named name outcome => cases outcome <;> rfl

theorem ReferenceTarget.settle_of_outcome? {t : ReferenceTarget} (h : t.outcome?.isSome = true)
    (f : String → Option ReflectionId) : t.settle f = t := by
  cases t with
  | fixed id => rfl
  | named name outcome =>
    cases outcome with
    | none => cases h
    | some o => rfl

namespace Reflection

variable {r s : Reflection}

theorem untargeted_mapTarget (f : ReferenceTarget → ReferenceTarget) :
    (r.mapTarget f).untargeted = r.untargeted := by
  cases hv : r.variant <;> simp only [untargeted, mapTarget, hv]

theorem outline_untargeted : r.untargeted.outline = r.outline := outline_mapTarget _

theorem outline_of_untargeted (h : r.untargeted = s.untargeted) : r.outline = s.outline := by
  rw [← outline_untargeted, h, outline_untargeted]

theorem target?_mapTarget (f : ReferenceTarget → ReferenceTarget) :
    (r.mapTarget f).target? = r.target?.map f := by
  cases hv : r.variant <;> simp only [target?, mapTarget, hv, Option.map_some, Option.map_none]

theorem isReference_iff : r.isReference = true ↔ ∃ t, r.target? = some t := by
  cases hv : r.variant <;> simp [isReference, tag, target?, hv, Variant.tag]

end Reflection

namespace Project

variable {p q : Project} {i j : ReflectionId}

/-- One project is another with some references looked up. -/
structure Looked (p q : Project) : Prop where
  size : q.arena.size = p.arena.size
  held : ∀ i, (q.get? i).map Reflection.untargeted = (p.get? i).map Reflection.untargeted
  settled : ∀ i, q.settled? i = p.settled? i
  registered : q.registered = p.registered
  symbolIndex : q.symbolIndex = p.symbolIndex
  symbols : q.symbols = p.symbols
  files : q.files = p.files

namespace Looked

theorem refl (p : Project) : Looked p p := ⟨rfl, fun _ => rfl, fun _ => rfl, rfl, rfl, rfl, rfl⟩

theorem trans {p q s : Project} (h : Looked p q) (k : Looked q s) : Looked p s where
  size := k.size.trans h.size
  held i := (k.held i).trans (h.held i)
  settled i := (k.settled i).trans (h.settled i)
  registered := k.registered.trans h.registered
  symbolIndex := k.symbolIndex.trans h.symbolIndex
  symbols := k.symbols.trans h.symbols
  files := k.files.trans h.files

theorem outline (h : Looked p q) : q.outline = p.outline := by
  refine outline_ext h.size fun i => ?_
  have hi := congrArg (Option.map Reflection.outline) (h.held i)
  simpa only [Option.map_map, Function.comp_def, Reflection.outline_untargeted] using hi

theorem contains (h : Looked p q) (i : ReflectionId) : q.contains i = p.contains i :=
  contains_of_outline h.outline i

theorem targetOf? (h : Looked p q) (i : ReflectionId) : q.targetOf? i = p.targetOf? i := by
  rw [Project.targetOf?, Project.targetOf?, h.settled, show q.contains = p.contains from funext h.contains]

theorem get? (h : Looked p q) {r : Reflection} (hr : q.get? i = some r) :
    ∃ s, p.get? i = some s ∧ s.untargeted = r.untargeted := by
  have hi := h.held i
  rw [hr] at hi
  exact Option.map_eq_some_iff.mp hi.symm

end Looked

/-! ### Looking one reference up -/

/-- Where a reference leads depends on the outline and on its own target. -/
theorem settled?_of_outline (h : p.outline = q.outline) {i : ReflectionId}
    (ht : (p.get? i).bind (·.target?) = (q.get? i).bind (·.target?)) :
    p.settled? i = q.settled? i := by
  rw [settled?, settled?, ht]
  have hname : (p.findNamed? · i) = (q.findNamed? · i) := funext fun name =>
    findNamed?_of_outline h name i
  rw [hname]

theorem looked_settle (p : Project) (i : ReflectionId) : Looked p (p.settle i) := by
  rw [settle]
  split
  case h_2 => exact .refl p
  case h_1 target htarget =>
    have hout : (p.update i (·.mapTarget fun _ => target)).outline = p.outline :=
      outline_update fun r => r.outline_mapTarget _
    refine ⟨size_update _, fun j => ?_, fun j => ?_, registered_update _, ?_, ?_, ?_⟩
    · rw [get?_update]
      split
      · cases p.get? j with
        | none => rfl
        | some r => exact congrArg some (r.untargeted_mapTarget _)
      · rfl
    · by_cases hij : i = j
      · subst hij
        obtain ⟨t, ht, rfl⟩ := Option.map_eq_some_iff.mp htarget
        obtain ⟨r, hr, hrt⟩ := Option.bind_eq_some_iff.mp ht
        rw [settled?, get?_update_self, hr, Option.map_some, Option.bind_some,
          Reflection.target?_mapTarget, hrt, htarget, Option.map_some, Option.map_some,
          ReferenceTarget.settle_settle]
      · exact settled?_of_outline hout (by rw [get?_update_of_ne hij])
    all_goals rw [update]; split <;> rfl

/-- The look-up of every reference has an outcome. -/
def AllSettled (p : Project) : Prop :=
  ∀ i r t, p.get? i = some r → r.target? = some t → t.outcome?.isSome = true

/-- A reference that was looked up stays so, and it is settled itself. -/
theorem outcome?_settle (p : Project) (i j : ReflectionId) {r : Reflection} {t : ReferenceTarget}
    (hr : (p.settle i).get? j = some r) (ht : r.target? = some t) :
    (i = j → t.outcome?.isSome = true) ∧
      ((∀ s u, p.get? j = some s → s.target? = some u → u.outcome?.isSome = true) →
        t.outcome?.isSome = true) := by
  rw [settle] at hr
  split at hr
  case h_2 hnone =>
    refine ⟨?_, fun h => h r t hr ht⟩
    rintro rfl
    rw [settled?, hr, Option.bind_some, ht] at hnone
    cases hnone
  case h_1 target htarget =>
    obtain ⟨u, -, rfl⟩ := Option.map_eq_some_iff.mp htarget
    rw [get?_update] at hr
    split at hr
    · obtain ⟨s, -, rfl⟩ := Option.map_eq_some_iff.mp hr
      rw [Reflection.target?_mapTarget] at ht
      obtain ⟨-, -, rfl⟩ := Option.map_eq_some_iff.mp ht
      exact ⟨fun _ => ReferenceTarget.outcome?_settle _ _, fun _ => ReferenceTarget.outcome?_settle _ _⟩
    · rename_i hij
      exact ⟨fun h => absurd h hij, fun h => h r t hr ht⟩

/-- Several references looked up in turn: each of them is settled. -/
theorem looked_foldl_settle : ∀ (ids : List ReflectionId) (p : Project),
    Looked p (ids.foldl settle p) ∧
      ∀ j r t, (ids.foldl settle p).get? j = some r → r.target? = some t →
        (j ∈ ids ∨ ∀ s u, p.get? j = some s → s.target? = some u → u.outcome?.isSome = true) →
        t.outcome?.isSome = true
  | [], p => ⟨.refl p, fun j r t hr ht h => h.elim (fun hj => nomatch hj) (fun h => h r t hr ht)⟩
  | i :: ids, p => by
    obtain ⟨hl, hs⟩ := looked_foldl_settle ids (p.settle i)
    refine ⟨(looked_settle p i).trans hl, fun j r t hr ht h => hs j r t hr ht ?_⟩
    by_cases hj : j ∈ ids
    · exact .inl hj
    · refine .inr fun s u hsu hu => ?_
      obtain ⟨hself, hkeep⟩ := outcome?_settle p i j hsu hu
      rcases h with h | h
      · exact hself ((List.mem_cons.mp h).resolve_right hj).symm
      · exact hkeep h

/-! ### The references by target -/

/-- The references that lead to a number, found by a plain scan. -/
def referencesTo (p : Project) (target : ReflectionId) : List ReflectionId :=
  p.referenceIds.filter fun i => p.targetOf? i = some target

/-- What is kept of the references agrees with a plain scan, and nothing is left to be looked up. -/
structure GraphFits (p : Project) : Prop where
  lists : ∀ graph, p.graph = some graph →
    ∀ target, (graph.lookup target).getD [] = p.referencesTo target
  settled : ∀ graph, p.graph = some graph → p.AllSettled

theorem graphFits_of_none (h : p.graph = none) : p.GraphFits :=
  ⟨fun _ hg => (nomatch h.symm.trans hg), fun _ hg => (nomatch h.symm.trans hg)⟩

theorem referenceIds_of_outline (h : p.outline = q.outline) : p.referenceIds = q.referenceIds := by
  have hid (t : Project) : t.referenceIds =
      ((t.outline.filterMap id).filter fun o => decide (o.2 = .reference)).map (·.1.id) := by
    rw [Project.referenceIds, ← outline_reflections, List.filter_map, List.map_map]
    rfl
  rw [hid, hid, h]

/-- The table of references depends on outlines and targets alone. -/
theorem GraphFits.of_outline (h : p.GraphFits) (hout : q.outline = p.outline)
    (ht : ∀ i, (q.get? i).bind (·.target?) = (p.get? i).bind (·.target?))
    (hgraph : q.graph = p.graph) : q.GraphFits := by
  have htarget : q.targetOf? = p.targetOf? := by
    funext i
    rw [targetOf?, targetOf?, settled?_of_outline hout (ht i),
      show q.contains = p.contains from funext (contains_of_outline hout)]
  refine ⟨fun g hg target => ?_, fun g hg i r t hr hrt => ?_⟩
  · rw [h.lists g (hgraph ▸ hg), referencesTo, referencesTo, referenceIds_of_outline hout, htarget]
  · obtain ⟨s, hs, hst⟩ : ∃ s, p.get? i = some s ∧ s.target? = some t := by
      have hi := ht i
      rw [hr, Option.bind_some, hrt] at hi
      exact Option.bind_eq_some_iff.mp hi.symm
    exact h.settled g (hgraph ▸ hg) i s t hs hst

theorem Looked.referenceIds (h : Looked p q) : q.referenceIds = p.referenceIds :=
  referenceIds_of_outline h.outline

theorem Looked.referencesTo (h : Looked p q) (target : ReflectionId) :
    q.referencesTo target = p.referencesTo target := by
  rw [Project.referencesTo, Project.referencesTo, h.referenceIds]
  simp only [h.targetOf?]

theorem lookup_enter (p : Project) (graph : List (ReflectionId × List ReflectionId))
    (i target : ReflectionId) : ((p.enter graph i).lookup target).getD [] =
      (graph.lookup target).getD [] ++ if p.targetOf? i = some target then [i] else [] := by
  rw [enter]
  split
  · rename_i t ht
    by_cases h : target = t
    · subst h
      rw [Assoc.lookup_insert_self, ht, if_pos rfl]
      rfl
    · rw [Assoc.lookup_insert_of_ne h, ht, if_neg (fun hc => h (Option.some.inj hc).symm),
        List.append_nil]
  · rename_i ht
    rw [ht, if_neg (by simp), List.append_nil]

theorem lookup_foldl_enter (p : Project) (target : ReflectionId) : ∀ (ids : List ReflectionId)
    (graph : List (ReflectionId × List ReflectionId)),
    ((ids.foldl p.enter graph).lookup target).getD [] =
      (graph.lookup target).getD [] ++ ids.filter fun i => p.targetOf? i = some target
  | [], graph => by simp
  | i :: ids, graph => by
    rw [List.foldl_cons, lookup_foldl_enter p target ids, lookup_enter, List.append_assoc,
      List.filter_cons]
    by_cases h : p.targetOf? i = some target <;> simp [h]

theorem looked_setGraph (p : Project) (g : Option (List (ReflectionId × List ReflectionId))) :
    Looked p { p with graph := g } where
  size := rfl
  held _ := rfl
  settled i := by
    have hout : ({ p with graph := g } : Project).outline = p.outline := rfl
    exact settled?_of_outline hout rfl
  registered := rfl
  symbolIndex := rfl
  symbols := rfl
  files := rfl

/-- Every reference of a project with well-kept numbers is settled by collecting them. -/
theorem looked_collectGraph (hid : ∀ i r, p.get? i = some r → r.id = i) :
    Looked p p.collectGraph ∧ p.collectGraph.GraphFits ∧ p.collectGraph.AllSettled := by
  obtain ⟨hl, hs⟩ := looked_foldl_settle p.referenceIds p
  have hlook : Looked p p.collectGraph := hl.trans (looked_setGraph _ _)
  have hall : p.collectGraph.AllSettled := by
    intro i r t hr ht
    refine hs i r t hr ht (.inl ?_)
    obtain ⟨s, hsi, hsr⟩ := hlook.get? hr
    refine List.mem_map.mpr ⟨s, List.mem_filter.mpr ⟨mem_reflections.mpr ⟨i, hsi⟩, ?_⟩, hid i s hsi⟩
    rw [Reflection.isReference_of_outline (Reflection.outline_of_untargeted hsr)]
    exact Reflection.isReference_iff.mpr ⟨t, ht⟩
  refine ⟨hlook, ⟨fun g hg target => ?_, fun _ _ => hall⟩, hall⟩
  obtain rfl := Option.some.inj hg
  rw [lookup_foldl_enter, List.lookup_nil, Option.getD_none, List.nil_append,
    Looked.referencesTo hlook, referencesTo, hl.referenceIds]
  simp only [hl.targetOf?]

/-- Asking for the references of a target gives those of a plain scan, in the order of their
numbers. -/
theorem referencing_eq (hid : ∀ i r, p.get? i = some r → r.id = i) (hg : p.GraphFits)
    (target : ReflectionId) :
    (p.referencing target).2 = p.referencesTo target ∧ Looked p (p.referencing target).1 ∧
      (p.referencing target).1.GraphFits ∧ (p.referencing target).1.AllSettled := by
  rw [referencing]
  cases h : p.graph with
  | none =>
    obtain ⟨hl, hfit, hall⟩ := looked_collectGraph hid
    refine ⟨?_, hl, hfit, hall⟩
    exact (hfit.lists _ rfl target).trans (hl.referencesTo target)
  | some g =>
    simp only [Option.isNone_some, Bool.false_eq_true, if_false, h, Option.getD_some]
    exact ⟨hg.lists g h target, .refl p, hg, hg.settled g h⟩

theorem mem_referencesTo (hid : ∀ i r, p.get? i = some r → r.id = i) {target : ReflectionId} :
    i ∈ p.referencesTo target ↔ p.targetOf? i = some target := by
  rw [referencesTo, List.mem_filter]
  refine ⟨fun h => of_decide_eq_true h.2, fun h => ⟨?_, decide_eq_true h⟩⟩
  obtain ⟨t, ht, -⟩ := Option.bind_eq_some_iff.mp (Option.filter_eq_some_iff.mp h).1
  obtain ⟨u, hu, -⟩ := Option.map_eq_some_iff.mp ht
  obtain ⟨r, hr, hru⟩ := Option.bind_eq_some_iff.mp hu
  exact List.mem_map.mpr ⟨r, List.mem_filter.mpr ⟨mem_reflections.mpr ⟨i, hr⟩,
    Reflection.isReference_iff.mpr ⟨u, hru⟩⟩, hid i r hr⟩

end Project

end DocTree
