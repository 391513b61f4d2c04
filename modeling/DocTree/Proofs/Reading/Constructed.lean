import DocTree.Proofs.Reading.Members

/-!
Reading any tree. A reflection is registered in its slot and its fields are read; when something in it
points at another reflection, it is noted to be looked at again. The induction is on how deep objects
lie inside one another: `constructors_sound` is about everything that can stand inside an object.
-/

namespace DocTree

variable {e : Site} {n base depth : Nat} {W : Prop} {c : Constructors} {fields : Fields}

/-! ### Shared fields -/

theorem reads_shared (he : ¬ e.clean) (fields : Fields) :
    ∃ (flags : Option Flags) (m : Option Comment) (k : Nat),
      (∀ (μ : Relocation) n base r, Reads (μ.site e) n base (Reader.shared n fields) r ()
        { r with flags := flags.getD r.flags, comment := (m.map μ.comment).or r.comment } (.light k)) ∧
      Fresh k (Part.aims (m.elim [] Comment.parts)) := by
  let flags := (fields.object? "flags").map Flags.ofFields
  -- What is done with the comment, once it has been read.
  let put (n : ReflectionId) (comment : Option Comment) : ReadM Unit := Reader.edit n fun r =>
    { r with flags := flags.getD r.flags, comment := comment.or r.comment }
  cases hcomment : fields.object? "comment" with
  | none =>
    refine ⟨flags, none, 0, ?_, .nil⟩
    intro μ n base r
    have hread : Reads (μ.site e) n base (Pure.pure none >>= put n) r () _ _ :=
      (Reads.pure none).bind rfl (Reads.edit _)
    simp only [Reader.shared, hcomment]
    exact hread.of_eq rfl
  | some inner =>
    obtain ⟨m, k, hread, hfresh⟩ := Reader.quotes_comment he inner
    refine ⟨flags, some m, k, ?_, hfresh⟩
    intro μ n base r
    have hread : Reads (μ.site e) n base (some <$> Reader.comment inner >>= put n) r () _ _ :=
      (hread μ n base r).map.bind_light (Reads.edit _)
    simp only [Reader.shared, hcomment]
    exact hread.of_eq (Crop.append_none _)

/-! ### All standard fields -/

theorem Variant.tag_blank (tag : VariantTag) : (Variant.blank tag).tag = tag := by
  cases tag <;> rfl

/-- The note that a reflection is to be looked at again, if targets were stored by their old numbers. -/
def Crop.notice (n : Nat) (y : Crop) : Crop := if y.pending = 0 then .none else .work (.pendingTargets n)

theorem Relocation.crop_notice (μ : Relocation) (n : Nat) (y : Crop) :
    μ.crop (y.notice n) = (μ.crop y).notice (μ.number n) := by
  rw [Crop.notice, Crop.notice, Renaming.pending_crop]
  split <;> rfl

theorem Crop.Sound.notice (n base : Nat) (y : Crop) : (y.notice n).Sound n base W [] := by
  rw [Crop.notice]
  split
  · exact .none
  · exact .work rfl (by simp [Deferred.aims])

/-- After the shared fields come those of the variant. -/
theorem Fills.standardFields {flags : Option Flags} {m : Option Comment} {k : Nat} {tag : VariantTag}
    {v : Relocation → Variant} {kids : List ReflectionId} {aims : List Aim} {z : Crop}
    (hshared : ∀ (μ : Relocation) n base r, Reads (μ.site e) n base (Reader.shared n fields) r ()
      { r with flags := flags.getD r.flags, comment := (m.map μ.comment).or r.comment } (.light k))
    (h : Fills e n base W (fun μ => Reader.variantFields c (μ.number n) fields tag)
      (fun _ => .blank tag) (fun _ => ()) v kids aims z)
    (μ : Relocation) {s : Reflection} (hs : s.variant = .blank tag) (hnone : s.comment = none) :
    Reads (μ.site e) (μ.number n) (μ.number base) (Reader.standardFields c (μ.number n) fields) s ()
      { s with flags := flags.getD s.flags, comment := m.map μ.comment, variant := v μ }
      (μ.crop (.light k ++ z ++ (Crop.light k ++ z).notice n)) := by
  have hstart : { s with
      flags := flags.getD s.flags
      comment := (m.map μ.comment).or s.comment } =
      ({ s with flags := flags.getD s.flags, comment := m.map μ.comment } : Reflection).holding
        (.blank tag) := by
    rw [hnone, Option.or_none, ← hs]
    rfl
  have hsame : tag = s.tag := by rw [Reflection.tag, hs, Variant.tag_blank]
  have hread := hshared μ (μ.number n) (μ.number base) s
  rw [hstart] at hread
  have hrest := h.reads μ { s with flags := flags.getD s.flags, comment := m.map μ.comment }
  subst hsame
  refine (Reads.standardFields hread rfl hrest).of_eq ?_
  rw [Renaming.crop_append, Relocation.crop_notice, Renaming.crop_append, Renaming.crop_light]
  rfl

/-- What the standard fields make of a bare reflection, and what they add to the state. -/
theorem reads_standardFields (hc : c.Sound e W depth) (hw : fields.Within (depth + 1) W)
    (he : ¬ e.clean) (tag : VariantTag) (hn : n < base) :
    ∃ (flags : Option Flags) (m : Option Comment) (w : Variant) (kids : List ReflectionId) (y : Crop),
      w.tag = tag ∧ y.Sound n base W kids ∧ kids.Perm w.childIds ∧
      (∀ r : Reflection, r.id = n → r.comment = m → r.variant = w → r.Raw y.queue) ∧
      ∀ (μ : Relocation) (s : Reflection), s.variant = .blank tag → s.comment = none →
        Reads (μ.site e) (μ.number n) (μ.number base) (Reader.standardFields c (μ.number n) fields) s ()
          { s with flags := flags.getD s.flags, comment := m.map μ.comment, variant := μ.variant w }
          (μ.crop y) := by
  obtain ⟨flags, m, k, hshared, hfresh⟩ := reads_shared he fields
  obtain ⟨w, htag, kids, aims, z, hfills, hkids, haims, hplain⟩ := fills_variant hc hw he tag hn
  have hsound : (Crop.light k ++ z ++ (Crop.light k ++ z).notice n).Sound n base W kids := by
    have hfirst := (Crop.Sound.light (W := W) k).append hn hfills.sound
    have hall := hfirst.append hn (.notice n _ (Crop.light k ++ z))
    rwa [List.nil_append, List.append_nil] at hall
  refine ⟨flags, m, w, kids, _, htag, hsound, hkids, ?_,
    fun μ s hs hnone => hfills.standardFields hshared μ hs hnone⟩
  intro r hid hcomment hvariant
  have hall : Fresh (Crop.light k ++ z).pending r.aims := by
    refine (hfresh.append hfills.fresh).mono ?_
    intro x hx
    rw [Reflection.aims, Reflection.parts_eq, Part.aims_append, hcomment] at hx
    rcases List.mem_append.mp hx with hx | hx
    · exact List.mem_append_right _ (haims x (List.mem_append_left _ (hvariant ▸ hx)))
    · rcases List.mem_append.mp hx with hx | hx
      · exact List.mem_append_left _ hx
      · exact List.mem_append_right _ (haims x (List.mem_append_right _ (hvariant ▸ hx)))
  refine ⟨hvariant ▸ hplain, fun x hx => (hall x hx).2, ?_⟩
  intro hne
  obtain ⟨x, hx⟩ := List.exists_mem_of_ne_nil _ hne
  have hcount := (hall x hx).1
  rw [hid]
  refine List.mem_append_right _ ?_
  rw [Crop.notice, if_neg hcount]
  exact List.mem_singleton.mpr rfl

/-! ### Nested reflections -/

/-- The builder of a variant makes a bare reflection of it. -/
theorem exists_builder (fields : Fields) {tag : VariantTag} (htag : tag ≠ .project) :
    ∃ build, Deserializer.standard.reflectionBuilder tag = some build ∧
      (build fields).variant = .blank tag ∧ (build fields).comment = none := by
  cases tag with
  | project => exact absurd rfl htag
  | _ => exact ⟨_, rfl, rfl, rfl⟩

/-- A reflection of a variant that can be nested. -/
theorem reads_nested (hc : c.Sound e W depth) (hw : fields.Within (depth + 1) W) (he : ¬ e.clean)
    {tag : VariantTag} (hvariant : fields.variantTag? = some tag) (htag : tag ≠ .project)
    (hn : n < base) : ∃ y : Crop, y.Sound n base W [base] ∧
      ∀ (μ : Relocation) (role : Role) (r : Reflection) (v : Variant),
        r.variant.attach? (μ.number base) role = some v →
        Reads (μ.site e) (μ.number n) (μ.number base)
          (Deserializer.standard.constructReflection c fields role) r (some (μ.number base))
          (r.holding v) (μ.crop y) := by
  obtain ⟨build, hbuild, hblank, hnone⟩ := exists_builder fields htag
  obtain ⟨flags, m, w, kids, y, -, hsound, hkids, hraw, hreads⟩ :=
    reads_standardFields hc hw he tag (show base < base + 1 by omega)
  let child : Reflection := { build fields with
    id := base
    parent := some n
    flags := flags.getD (build fields).flags
    comment := m
    variant := w }
  have hentries : ∀ entry ∈ (fields.word? "id").toList.map (·, base), entry.2 = base := by
    intro entry hentry
    obtain ⟨old, -, rfl⟩ := List.mem_map.mp hentry
    rfl
  refine ⟨_, hsound.nest child hn rfl rfl hkids (hraw child rfl rfl rfl) hentries, ?_⟩
  intro μ role r v hslot
  have hchild := hreads μ
    { build fields with id := μ.number base, parent := some (μ.number n) } hblank hnone
  rw [← μ.number_add] at hchild
  have hproject : (build fields).isProject = false := by
    rw [Reflection.isProject, Reflection.tag, hblank, Variant.tag_blank]
    exact decide_eq_false htag
  refine (Reads.construct hvariant hbuild hproject hslot hchild).of_eq ?_
  simp only [Renaming.crop, List.map_append, List.map_map]
  rfl

/-! ### Everything inside an object -/

/-- Nothing is made, which is reported. -/
theorem Reads.refuse {α : Type} {r : Reflection} (he : ¬ e.clean) (issue : Issue)
    (hissue : issue.isMissing = false) :
    Reads e n base (ReadM.report issue >>= fun _ => (Pure.pure none : ReadM (Option α))) r none r
      .none :=
  ((Reads.report issue he hissue).bind rfl (Reads.pure none)).of_eq (Crop.append_none _)

section Step

variable (hc : c.Sound e W depth) (he : ¬ e.clean)
include hc he

/-- One reflection, whatever its object says. -/
theorem constructReflection_sound (fields : Fields) (role : Role) (hw : fields.Within (depth + 1) W)
    (n base : Nat) (hn : n < base) :
    ∃ (id : Option ReflectionId) (y : Crop), (∀ i ∈ id, i = base) ∧ y.Sound n base W id.toList ∧
      (∀ (μ : Relocation) (r : Reflection) (v : Variant),
        r.variant.attach? (μ.number base) role = some v →
        Reads (μ.site e) (μ.number n) (μ.number base)
          (Deserializer.standard.constructReflection c fields role) r
          (id.map μ.number) (id.elim r fun _ => r.holding v) (μ.crop y)) ∧
      (W → ∀ tag, fields.variantTag? = some tag → tag ≠ .project → id.isSome = true) := by
  cases hvariant : fields.variantTag? with
  | none =>
    refine ⟨none, .none, by simp, .none, ?_, ?_⟩
    · intro μ r v _
      simp only [Deserializer.constructReflection, show VariantTag.ofName? _ = _ from hvariant]
      exact Reads.refuse (e := μ.site e) he (.unknownVariant _) rfl
    · intro _ tag htag
      cases htag
  | some tag =>
    by_cases htag : tag = .project
    · subst htag
      refine ⟨none, .none, by simp, .none, ?_, ?_⟩
      · intro μ r v _
        simp only [Deserializer.constructReflection, show VariantTag.ofName? _ = _ from hvariant,
          show Deserializer.standard.reflectionBuilder .project = none from rfl]
        exact Reads.refuse (e := μ.site e) he (.misplacedVariant _) rfl
      · intro _ tag htag hproject
        exact absurd (Option.some.inj htag).symm hproject
    · obtain ⟨y, hsound, hreads⟩ := reads_nested hc hw he hvariant htag hn
      refine ⟨some base, y, by simp, hsound, fun μ r v => hreads μ role r v, ?_⟩
      intro _ _ _ _
      rfl

/-- One type, whatever its object says. -/
theorem constructType_sound (fields : Fields) (hw : fields.Within (depth + 1) W) (n base : Nat)
    (hn : n < base) :
    ∃ (a : Option Ty) (y : Crop),
      Gathers e n base W (fun _ => Deserializer.standard.constructType c fields) (fun μ => a.map μ.ty)
        (a.toList.flatMap Ty.declarations) (a.toList.flatMap Ty.aims) y ∧
      (∀ t ∈ a, fields.typeKind? = some t.kind) ∧
      (W → fields.typeKind?.isSome = true → a.isSome = true) := by
  cases hkind : fields.typeKind? with
  | none =>
    refine ⟨none, .none, ⟨?_, .none, .nil⟩, by simp, ?_⟩
    · intro μ r _
      simp only [Deserializer.constructType, show TypeKind.ofTag? _ = _ from hkind]
      exact Reads.refuse (e := μ.site e) he (.unknownTypeKind _) rfl
    · intro _ hsome
      cases hsome
  | some kind =>
    obtain ⟨a, ds, aims, y, hread, hdrop, hmade⟩ := makes_type hc hw he hkind hn
    have hall : Gathers e n base W (fun _ => Deserializer.standard.constructType c fields)
        (fun μ => a.map μ.ty) ds aims y := by
      refine ⟨?_, hread.sound, hread.fresh⟩
      intro μ r hr
      simp only [Deserializer.constructType, show TypeKind.ofTag? _ = _ from hkind]
      refine ((hread.reads μ r hr).bind (μ.number_next base y) ?_).of_eq (Crop.append_none _)
      cases a with
      | none => exact Reads.pure _
      | some t => exact Reads.pure _
    cases a with
    | none =>
      obtain ⟨hW, rfl⟩ := hdrop rfl
      refine ⟨none, y, hall.drop hW, by simp, ?_⟩
      intro hyes
      exact absurd hyes hW
    | some t =>
      obtain ⟨rfl, hds, haims⟩ := hmade t rfl
      refine ⟨some t, y, hall.congr ?_ ?_, ?_, fun _ _ => rfl⟩
      · simpa using hds
      · simpa using haims
      · intro t' ht'
        rw [Option.some.inj ht']

end Step

/-- The constructors for objects that lie at most so deep make everything that stands in one. -/
theorem constructors_sound (he : ¬ e.clean) (depth : Nat) :
    (Deserializer.standard.constructors depth).Sound e W depth := by
  induction depth with
  | zero =>
    -- No object lies this shallow.
    have hnone : ∀ fields : Fields, ¬ fields.Within 0 W := by
      intro fields hw
      have hdepth := hw.depth
      rw [Json.depth] at hdepth
      omega
    exact ⟨fun fields hw => (hnone fields hw).elim, fun fields _ hw => (hnone fields hw).elim⟩
  | succ depth ih => exact ⟨constructType_sound ih he, constructReflection_sound ih he⟩

end DocTree
