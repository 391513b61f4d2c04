import DocTree.Proofs.RoundTrip.Image

/-!
What a draft contains: the types and texts of the reflection that is copied, each of them copied.
Whatever number is stored in a draft was that of a registered reflection.
-/

namespace DocTree.Copying

variable {c : Copying} {v : Revival}

/-! ### Reflections -/

theorem mem_types_variant {b : Nat} {w : Variant} {t' : Ty} (h : t' ∈ (c.variant b w).types) :
    ∃ t ∈ w.types, ∃ b', t' = c.ty b' t := by
  have hoption : ∀ {b' o}, t' ∈ c.tyOption b' o → (∀ t ∈ o, t ∈ w.types) →
      ∃ t ∈ w.types, ∃ b', t' = c.ty b' t := fun hmem hsub => by
    obtain ⟨t, ht, hb⟩ := mem_tyOption hmem
    exact ⟨t, hsub t ht, hb⟩
  have hlist : ∀ {b' ts}, t' ∈ c.tyList b' ts → (∀ t ∈ ts, t ∈ w.types) →
      ∃ t ∈ w.types, ∃ b', t' = c.ty b' t := fun hmem hsub => by
    obtain ⟨t, ht, hb⟩ := mem_tyList hmem
    exact ⟨t, hsub t ht, hb⟩
  cases w with
  | declaration d =>
    simp only [variant, declaration, Variant.types, List.mem_append, Option.mem_toList] at h
    rcases h with ((((((h | h) | h) | h) | h) | h) | h) | h
    · exact hoption h (by simp +contextual [Variant.types])
    · exact hoption h (by simp +contextual [Variant.types])
    · exact hoption h (by simp +contextual [Variant.types])
    · exact hoption h (by simp +contextual [Variant.types])
    · exact hlist h (by simp +contextual [Variant.types])
    · exact hlist h (by simp +contextual [Variant.types])
    · exact hlist h (by simp +contextual [Variant.types])
    · exact hlist h (by simp +contextual [Variant.types])
  | signature d =>
    simp only [variant, signature, Variant.types, List.mem_append, Option.mem_toList] at h
    rcases h with ((h | h) | h) | h
    · exact hoption h (by simp +contextual [Variant.types])
    · exact hoption h (by simp +contextual [Variant.types])
    · exact hoption h (by simp +contextual [Variant.types])
    · exact hoption h (by simp +contextual [Variant.types])
  | param d => exact hoption (Option.mem_toList.mp h) (by simp +contextual [Variant.types])
  | typeParam d =>
    rcases List.mem_append.mp h with h | h
    · exact hoption (Option.mem_toList.mp h) (by simp +contextual [Variant.types])
    · exact hoption (Option.mem_toList.mp h) (by simp +contextual [Variant.types])
  | project d | reference t | document d => cases h

theorem parts_variant (b : Nat) (w : Variant) : (c.variant b w).parts = c.parts w.parts := by
  cases w with
  | project d => cases hd : d.readme <;> simp [variant, Variant.parts, hd, parts]
  | declaration d => cases hd : d.readme <;> simp [variant, declaration, Variant.parts, hd, parts]
  | _ => rfl

theorem parts_comment (m : Comment) : (c.comment m).parts = c.parts m.parts := by
  rw [comment, parts_addModifiers]
  simp only [Comment.parts, parts, List.map_append, List.flatMap_map, List.map_flatMap, blockTag]

theorem parts_filled {n : Nat} {r head : Reflection} {p : Part}
    (h : p ∈ (c.filled n r head).parts) : ∃ q ∈ r.parts, p = c.part q := by
  rw [Reflection.parts_eq] at h
  rw [Reflection.parts_eq]
  rcases List.mem_append.mp h with h | h
  · change p ∈ (c.comment? r.comment).elim [] Comment.parts at h
    rw [comment?] at h
    cases hm : r.comment.filter fun m => !m.isEmpty with
    | none => rw [hm] at h; cases h
    | some m =>
      rw [hm, Option.map_some, Option.elim_some, parts_comment] at h
      obtain ⟨q, hq, rfl⟩ := List.mem_map.mp h
      rw [(Option.filter_eq_some_iff.mp hm).1]
      exact ⟨q, List.mem_append_left _ hq, rfl⟩
  · change p ∈ (c.variant _ r.variant).parts at h
    rw [parts_variant] at h
    obtain ⟨q, hq, rfl⟩ := List.mem_map.mp h
    exact ⟨q, List.mem_append_right _ hq, rfl⟩

/-! ### Stored numbers -/

/-- Every registered number has a new one. -/
def Covered (c : Copying) (v : Revival) : Prop :=
  ∀ x, c.project.contains x = true → (v.id? x).isSome = true

theorem contains_of_oldLink? {p : Part} {old : Nat} (h : Reader.oldLink? (c.part p) = some old) :
    c.project.contains old = true := by
  cases p with
  | inlineTag tag s target linkText =>
    cases target with
    | none => cases h
    | some target =>
      cases target with
      | reflection id =>
        rw [part, Option.bind_some, link?] at h
        by_cases hid : c.project.contains id = true
        · rw [if_pos hid] at h
          exact Option.some.inj h ▸ hid
        · rw [if_neg hid] at h
          cases h
      | _ => cases h
  | _ => cases h

theorem contains_of_oldRef? (hleg : c.Legible) {target : RefTarget} {old : Nat}
    (h : Reader.oldRef? (c.refTarget target) = some old) : c.project.contains old = true := by
  unfold refTarget at h
  cases hfound : c.project.resolveTarget? target with
  | some id =>
    rw [hfound] at h
    exact Option.some.inj h ▸ hleg.contains_of_resolveTarget? hfound
  | none =>
    rw [hfound] at h
    cases target <;> cases h

theorem missingLinks_parts (hcovered : c.Covered v) {ps : List Part}
    (h : ∀ p ∈ ps, ∃ q, p = c.part q) : Reader.missingLinks v ps = [] :=
  Reader.missingLinks_eq_nil.mpr fun p hp old hold => by
    obtain ⟨q, rfl⟩ := h p hp
    exact hcovered old (contains_of_oldLink? hold)

theorem missingRefs_ty (hleg : c.Legible) (hcovered : c.Covered v) (b : Nat) (t : Ty) :
    Reader.missingRefs v (c.ty b t) = [] := by
  refine Reader.missingRefs_eq_nil.mpr (forall_subterms_ty t b fun u _ b head args href old hold => ?_)
  cases u with
  | reference head' args' | query head' args' =>
    obtain ⟨rfl, -⟩ := Prod.mk.inj (Option.some.inj href)
    exact hcovered old (contains_of_oldRef? hleg hold)
  | _ => cases href

/-- Every number stored in a draft has a new one. -/
theorem known_draft (hleg : c.Legible) (hcovered : c.Covered v) (s : Spot) : Known v (c.draft s) := by
  rw [draft]
  cases hr : c.project.get? s.source with
  | none => exact ⟨fun t ht => (List.not_mem_nil ht).elim, rfl⟩
  | some r =>
    have htypes : ∀ t' ∈ (c.variant (s.number + 1) r.variant).types, ∃ t b, t' = c.ty b t :=
      fun t' ht' => by
        obtain ⟨t, -, b, rfl⟩ := mem_types_variant ht'
        exact ⟨t, b, rfl⟩
    refine ⟨fun t' ht' => ?_, missingLinks_parts hcovered fun p hp => ?_⟩
    · obtain ⟨t, b, rfl⟩ := htypes t' ht'
      exact missingRefs_ty hleg hcovered b t
    · rcases List.mem_append.mp hp with hp | hp
      · obtain ⟨t', ht', hp⟩ := List.mem_flatMap.mp hp
        obtain ⟨t, b, rfl⟩ := htypes t' ht'
        rw [parts_ty] at hp
        obtain ⟨q, -, rfl⟩ := List.mem_map.mp hp
        exact ⟨q, rfl⟩
      · obtain ⟨q, -, rfl⟩ := parts_filled hp
        exact ⟨q, rfl⟩

theorem missingMembers_live (hcovered : c.Covered v) (ids : List ReflectionId) :
    Reader.missingMembers v (c.live ids) = [] := by
  rw [Reader.missingMembers, List.map_eq_nil_iff]
  exact Reader.missing_eq_nil.mpr fun old hold => hcovered old (List.mem_filter.mp hold).2

theorem missingLinks_description (hcovered : c.Covered v) (description : Option (List Part)) :
    Reader.missingLinks v ((description.map c.parts).getD []) = [] :=
  missingLinks_parts hcovered fun p hp => by
    cases description with
    | none => cases hp
    | some ps =>
      obtain ⟨q, -, rfl⟩ := List.mem_map.mp hp
      exact ⟨q, rfl⟩

theorem categoryIssues_categories? (hcovered : c.Covered v) (ks : Option (List Category)) :
    ((c.categories? ks).getD []).flatMap (Reader.categoryIssues v) = [] := by
  refine List.flatMap_eq_nil_iff.mpr fun k hk => ?_
  rw [categories?] at hk
  split at hk
  · cases hk
  · obtain ⟨k', -, rfl⟩ := List.mem_map.mp hk
    rw [Reader.categoryIssues, category, missingMembers_live hcovered,
      missingLinks_description hcovered]
    rfl

theorem groupIssues_groups? (hcovered : c.Covered v) (gs : Option (List Group)) :
    ((c.groups? gs).getD []).flatMap (Reader.groupIssues v) = [] := by
  refine List.flatMap_eq_nil_iff.mpr fun g hg => ?_
  rw [groups?] at hg
  split at hg
  · cases hg
  · obtain ⟨g', -, rfl⟩ := List.mem_map.mp hg
    rw [Reader.groupIssues, group, missingMembers_live hcovered, missingLinks_description hcovered,
      categoryIssues_categories? hcovered]
    rfl

/-- Every number stored in the work about a place has a new one. -/
theorem known_work (hcovered : c.Covered v) {queue : List Deferred} {s : Spot}
    (h : c.Works queue s) {d : Deferred} (hd : d ∈ queue) (habout : d.isAbout s.number = true) :
    d.Known v := by
  obtain ⟨r, -, hworks⟩ := h
  have hmem : d ∈ c.groupWork s.number r ∨ d ∈ c.targetWork s.number r ∨
      d = .pendingTargets s.number := by
    have hfilter : d ∈ queue.filter (·.isAbout s.number) := List.mem_filter.mpr ⟨hd, habout⟩
    rcases hworks with hworks | ⟨hworks, -⟩
    · simpa [hworks, or_assoc] using hfilter
    · exact (List.mem_append.mp (hworks ▸ hfilter)).imp_right .inl
  rcases hmem with hmem | hmem | rfl
  · rw [groupWork] at hmem
    split at hmem
    · cases hmem
    · split at hmem
      · rw [List.mem_singleton.mp hmem]
        exact ⟨groupIssues_groups? hcovered _, categoryIssues_categories? hcovered _⟩
      · cases hmem
  · rw [targetWork] at hmem
    split at hmem
    · obtain ⟨old, hold, rfl⟩ := List.mem_map.mp hmem
      exact hcovered old (Option.filter_eq_some_iff.mp (Option.mem_toList.mp hold)).2
    · cases hmem
  · trivial

end DocTree.Copying
