import DocTree.Proofs.RoundTrip.FirstPass

/-!
What becomes of a reflection that is written and read again: its draft with new numbers for old ones,
grouped and directed as before. The works about a place make exactly this of the draft, whether or not
the place was to be looked at again.
-/

namespace DocTree

namespace Copying

variable {c : Copying} {s : Spot} {r : Reflection} {v : Revival}

/-- A container with the groups and categories of the one that is copied. -/
def regrouped (c : Copying) (v : Revival) (r : Reflection) (k : Container) : Container :=
  { k with
    groups := (r.container?.bind fun k => c.groups? k.groups).map (·.map (Reader.newGroup v))
    categories :=
      (r.container?.bind fun k => c.categories? k.categories).map (·.map (Reader.newCategory v)) }

/-- What stands at a place in the end. -/
def image (c : Copying) (v : Revival) (s : Spot) : Reflection :=
  match c.project.get? s.source with
  | some r => (((c.draft s).renewed v).mapContainer (c.regrouped v r)).mapTarget
      fun _ => .fixed ((c.project.targetOf? r.id).bind v.id?)
  | none => .project ""

/-- Works that group or direct a reflection do not depend on the numbers in its types and texts. -/
theorem renewed_foldl {works : List Deferred}
    (h : ∀ d ∈ works, ∀ r : Reflection, (d.effect v r).renewed v = d.effect v (r.renewed v))
    (r : Reflection) : (works.foldl (fun s d => d.effect v s) r).renewed v =
      works.foldl (fun s d => d.effect v s) (r.renewed v) := by
  induction works generalizing r with
  | nil => rfl
  | cons d rest ih =>
    rw [List.foldl_cons, List.foldl_cons, ih fun e he => h e (List.mem_cons_of_mem d he),
      h d (List.mem_cons_self ..)]

theorem renewed_work {n : Nat} {d : Deferred} (hd : d ∈ c.groupWork n r ++ c.targetWork n r)
    (s : Reflection) : (d.effect v s).renewed v = d.effect v (s.renewed v) := by
  rcases List.mem_append.mp hd with hd | hd
  · rw [groupWork] at hd
    split at hd
    · cases hd
    · split at hd
      · rw [List.mem_singleton.mp hd]
        exact s.renewed_mapContainer v _
      · cases hd
  · rw [targetWork] at hd
    split at hd
    · obtain ⟨old, -, rfl⟩ := List.mem_map.mp hd
      exact s.renewed_mapTarget v _
    · cases hd

theorem mapContainer_of_id {f : Container → Container} {q : Reflection}
    (h : ∀ k, q.container? = some k → f k = k) : q.mapContainer f = q := by
  obtain ⟨id, name, kind, flags, comment, parent, own, data, anchor, counts, variant⟩ := q
  cases variant with
  | project d =>
    have hd : f d.container = d.container := h _ rfl
    simp only [Reflection.mapContainer, hd]
  | declaration d =>
    have hd : f d.container = d.container := h _ rfl
    simp only [Reflection.mapContainer, hd]
  | _ => rfl

theorem mapTarget_of_id {f : ReferenceTarget → ReferenceTarget} {q : Reflection}
    (h : ∀ t, q.target? = some t → f t = t) : q.mapTarget f = q := by
  obtain ⟨id, name, kind, flags, comment, parent, own, data, anchor, counts, variant⟩ := q
  cases variant with
  | reference t =>
    have ht : f t = t := h _ rfl
    simp only [Reflection.mapTarget, ht]
  | _ => rfl

/-- A container that is not grouped yet gets its groups and categories. -/
theorem foldl_groupWork {q : Reflection} (n : Nat) (hnone : r.container? = none → q.container? = none)
    (hplain : ∀ k, q.container? = some k → k.groups = none ∧ k.categories = none) :
    (c.groupWork n r).foldl (fun q d => d.effect v q) q = q.mapContainer (c.regrouped v r) := by
  rw [groupWork]
  cases hr : r.container? with
  | none =>
    change q = _
    refine (mapContainer_of_id fun k hk => ?_).symm
    rw [hnone hr] at hk
    cases hk
  | some k =>
    by_cases hsome : ((c.groups? k.groups).isSome || (c.categories? k.categories).isSome) = true
    · simp only [if_pos hsome, List.foldl_cons, List.foldl_nil, Deferred.effect]
      congr 1
      funext k'
      rw [regrouped, hr]
      rfl
    · simp only [if_neg hsome, List.foldl_nil]
      rw [Bool.or_eq_true, not_or, Bool.not_eq_true, Option.isSome_eq_false_iff, Bool.not_eq_true,
        Option.isSome_eq_false_iff, Option.isNone_iff_eq_none, Option.isNone_iff_eq_none] at hsome
      refine (mapContainer_of_id fun k' hk' => ?_).symm
      obtain ⟨hgroups, hcategories⟩ := hplain k' hk'
      rw [regrouped, hr, Option.bind_some, Option.bind_some, hsome.1, hsome.2]
      obtain ⟨children, documents, groups, categories⟩ := k'
      obtain rfl : groups = none := hgroups
      obtain rfl : categories = none := hcategories
      rfl

/-- A reference that leads nowhere yet gets its target. -/
theorem foldl_targetWork {q : Reflection} (n : Nat)
    (hbroken : ∀ t, q.target? = some t → t = .broken ∧ r.target?.isSome = true) :
    (c.targetWork n r).foldl (fun q d => d.effect v q) q =
      q.mapTarget fun _ => .fixed ((c.project.targetOf? r.id).bind v.id?) := by
  unfold targetWork
  cases hv : r.variant with
  | reference t =>
    cases htarget : c.project.targetOf? r.id with
    | none => exact (mapTarget_of_id fun t ht => (hbroken t ht).1.symm).symm
    | some old => rfl
  | _ =>
    refine (mapTarget_of_id fun t ht => ?_).symm
    have hsome := (hbroken t ht).2
    rw [Reflection.target?, hv] at hsome
    cases hsome

theorem target?_mapContainer (f : Container → Container) (q : Reflection) :
    (q.mapContainer f).target? = q.target? := by
  rw [Reflection.mapContainer, Reflection.target?, Reflection.target?]
  cases hv : q.variant <;> simp only [hv]

/-- The works that group or direct a place, carried out on its renewed draft. -/
theorem foldl_draft (hr : c.project.get? s.source = some r) :
    (c.groupWork s.number r ++ c.targetWork s.number r).foldl (fun q d => d.effect v q)
      ((c.draft s).renewed v) = c.image v s := by
  have hvariant : ((c.draft s).renewed v).variant =
      ((c.variant (s.number + 1) r.variant).mapTypes (Reader.newType v)).mapParts
        (Reader.newPart v) := by
    rw [Reflection.renewed, Reflection.mapParts_eq, draft, hr]
    rfl
  have hnone : r.container? = none → ((c.draft s).renewed v).container? = none := fun h => by
    rw [Reflection.container?, hvariant]
    rw [Reflection.container?] at h
    cases hv : r.variant with
    | project d | declaration d => rw [hv] at h; cases h
    | _ => rfl
  have hplain : ∀ k, ((c.draft s).renewed v).container? = some k →
      k.groups = none ∧ k.categories = none := fun k h => by
    rw [Reflection.container?, hvariant] at h
    cases hv : r.variant with
    | project d | declaration d =>
      rw [hv] at h
      exact Option.some.inj h ▸ ⟨rfl, rfl⟩
    | _ => rw [hv] at h; cases h
  have hbroken : ∀ t, ((c.draft s).renewed v).target? = some t →
      t = .broken ∧ r.target?.isSome = true := fun t h => by
    rw [Reflection.target?, hvariant] at h
    rw [Reflection.target?]
    cases hv : r.variant with
    | reference t' =>
      rw [hv] at h
      exact ⟨(Option.some.inj h).symm, rfl⟩
    | _ => rw [hv] at h; cases h
  rw [List.foldl_append, foldl_groupWork s.number hnone hplain,
    foldl_targetWork s.number fun t ht => hbroken t (target?_mapContainer _ _ ▸ ht), image, hr]

/-- The works about a place make its image of its draft. -/
theorem worked_draft {queue : List Deferred} (h : c.Works queue s) :
    worked v queue s.number (c.draft s) = c.image v s := by
  obtain ⟨r, hr, hworks⟩ := h
  rw [← foldl_draft hr, worked]
  rcases hworks with hworks | ⟨hworks, hstill⟩
  · rw [hworks, List.foldl_append, List.foldl_cons, List.foldl_nil]
    exact renewed_foldl (fun d hd => renewed_work hd) _
  · have hsame : (c.draft s).renewed v = c.draft s := hstill v
    rw [hworks, hsame]

end Copying

end DocTree
