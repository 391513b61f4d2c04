import DocTree.Proofs.Registry.Slot
import DocTree.Proofs.RoundTrip.Reflection

/-!
Reading a tree that was written. A reflection is registered in its slot, its fields are read with the
reflections inside it, and what was stored by old numbers is noted for later. The induction is on how
many levels of reflections stand inside one another.
-/

namespace DocTree

namespace Copying

variable {c : Copying} {clean : Prop} {inside : ReflectionId → Option Json} {n : Nat}
  {r head : Reflection}

/-- What is put off for a reflection beside the rest: to look at it again, unless nothing in it
waits. -/
def Rest (c : Copying) (n : Nat) (r head : Reflection) (rest : List Deferred) : Prop :=
  rest = [.pendingTargets n] ∨ rest = [] ∧ (c.filled n r head).Still

/-- The fields of a bare reflection, read with the reflections inside it. -/
theorem reads_standardFields (h : c.Readable clean inside r) (hv : head.variant = (bare r).variant)
    (hnone : head.comment = none) {depth : Nat} (hshallow : Shallow (c.objectFields inside r) depth) :
    ∃ y spots rest, Reads (c.site clean) n (n + 1)
        (Reader.standardFields (Deserializer.standard.constructors depth) n (c.objectFields inside r))
        head () (c.filled n r head) y ∧
      c.Harvest n (n + 1) (c.inOrder r.variant) spots
        (c.groupWork n r ++ c.targetWork n r ++ rest) y ∧ c.Rest n r head rest := by
  have hlisted : c.Listed clean r.parts := h.listed.mono fun p hp =>
    List.mem_append_left _ (List.mem_append_left _ hp)
  obtain ⟨y, before, hy, hbefore, hcomment⟩ :=
    copies_shared h.legible r hlisted (Nat.lt_succ_self n) hnone
  obtain ⟨z, spots, hz, hspots, hquiet⟩ := filled_bare h (Nat.lt_succ_self n) hshallow
    (s := { head with flags := r.flags.reread, comment := c.comment? r.comment })
  have hb : n + 1 + y.block.length = n + 1 := by
    rw [hbefore.block, List.length_map, hbefore.laid.length, total_nil]
  have htag : head.tag = r.tag := by
    rw [Reflection.tag, hv, bare, Reflection.tag]
    cases r.variant <;> rfl
  have hall := hbefore.append (Nat.lt_succ_self n) hspots
  rw [← hv] at hz
  rw [← htag] at hz
  have hread := Reads.standardFields hy hb hz
  by_cases hzero : (y ++ z).pending = 0
  · rw [if_pos hzero, Crop.append_none] at hread
    refine ⟨y ++ z, before ++ spots, [], hread, ?_, .inr ⟨rfl, ?_⟩⟩
    · rw [List.append_nil]
      exact hall
    · obtain ⟨htypes, hparts⟩ := hquiet (Nat.eq_zero_of_add_eq_zero_left hzero)
      refine Reflection.still_of htypes fun p hp => ?_
      rw [Reflection.parts_eq] at hp
      exact (List.mem_append.mp hp).elim
        (hcomment (Nat.eq_zero_of_add_eq_zero_right hzero) p) (hparts p)
  · rw [if_neg hzero] at hread
    have hwork : c.Harvest n (n + 1 + c.total ([] ++ c.inOrder r.variant)) [] []
        [.pendingTargets n] (.work (.pendingTargets n)) :=
      harvest_nil n _ rfl rfl (by simp [Crop.work, Deferred.isAbout, Deferred.subject?])
        fun d hd => by
          rw [List.mem_singleton.mp hd]
          exact decide_eq_true rfl
    have htotal := hall.append (Nat.lt_succ_self n) hwork
    rw [List.append_nil, List.append_nil] at htotal
    exact ⟨_, _, [.pendingTargets n], hread, htotal, .inl rfl⟩

/-! ### Builders -/

theorem ofName?_name (tag : VariantTag) : VariantTag.ofName? tag.name = some tag := by
  cases tag <;> decide

theorem ofJson?_toJson (k : Kind) : Kind.ofJson? k.toJson = some k := by
  have hlt : k.bits.toNat < Json.wordBound := k.bits.toNat_lt
  rw [Kind.ofJson?, Kind.toJson, Json.asWord?_ofNat, if_pos hlt, Option.map_some, UInt32.ofNat_toNat]

/-- The builder of a variant makes the bare reflection of the one that was written. -/
theorem builder_bare (hproject : r.isProject = false) :
    ∃ build, Deserializer.standard.reflectionBuilder r.tag = some build ∧
      build (c.objectFields inside r) = bare r := by
  have hname : (c.objectFields inside r).text "name" = r.name := by
    rw [Fields.text, Fields.text?, value?_shared (by simp [sharedKeys])]
    simp [Writer.sharedFields]
  have hkind : Reader.kindOf (c.objectFields inside r) = r.kind := by
    rw [Reader.kindOf, value?_shared (by simp [sharedKeys])]
    simp [Writer.sharedFields, ofJson?_toJson]
  rw [Reflection.isProject, Reflection.tag] at hproject
  rw [Reflection.tag, bare]
  cases hv : r.variant with
  | project d => rw [hv] at hproject; cases hproject
  | declaration d => exact ⟨_, rfl, by rw [hname, hkind]⟩
  | signature d => exact ⟨_, rfl, by rw [hname, hkind]⟩
  | param d => exact ⟨_, rfl, by rw [hname, hkind]⟩
  | typeParam d => exact ⟨_, rfl, by rw [hname, hkind]⟩
  | reference t => exact ⟨_, rfl, by rw [hname, hkind]⟩
  | document d => exact ⟨_, rfl, by rw [hname]⟩

theorem isProject_bare (r : Reflection) : (bare r).isProject = r.isProject := by
  rw [Reflection.isProject, Reflection.isProject, Reflection.tag, Reflection.tag, bare]
  cases r.variant <;> rfl

/-! ### Nesting -/

/-- A reflection stands in the project, and at most so many levels inside it; `span` counts them. -/
def Fits (c : Copying) : Nat → ReflectionId → Prop
  | 0, _ => False
  | levels + 1, x => ∃ r, c.project.get? x = some r ∧
      c.span x = c.total (c.inOrder r.variant) + 1 ∧
      ∀ y ∈ c.inOrder r.variant, y ≠ ReflectionId.project ∧ c.Fits levels y

theorem reflectionWithin_succ {levels : Nat} {x : ReflectionId} (hx : c.project.get? x = some r) :
    c.writer.reflectionWithin (levels + 1) x =
      some (.obj (c.objectFields (c.writer.reflectionWithin levels) r)) := by
  rw [Writer.reflectionWithin, show c.writer.project.get? x = some r from hx, Option.map_some]
  exact congrArg some (c.object_written _ r)

theorem reflectionWithin_dead {levels : Nat} {x : ReflectionId}
    (hx : ¬ c.project.contains x = true) : c.writer.reflectionWithin levels x = none := by
  cases levels with
  | zero => rfl
  | succ levels =>
    rw [Writer.reflectionWithin, show c.writer.project.get? x = none from
      Project.not_contains_iff.mp hx, Option.map_none]

/-- When reading is to find nothing amiss, every file that the reflections link to is listed. -/
def AllListed (c : Copying) (clean : Prop) : Prop :=
  ∀ i r, c.project.get? i = some r → c.Listed clean r.texts

/-- A reflection with what stands inside it, as a part of its parent. -/
theorem Harvest.around {x b : Nat} {spots : List Spot} {rest : List Deferred} {y : Crop}
    (hx : c.project.get? x = some r) (hspan : c.span x = c.total (c.inOrder r.variant) + 1)
    (hb : n < b) (h : c.Harvest b (b + 1) (c.inOrder r.variant) spots
      (c.groupWork b r ++ c.targetWork b r ++ rest) y)
    (hrest : c.Rest b r { bare r with id := b, parent := some n } rest) :
    c.Harvest n b [x] (⟨b, x, some n⟩ :: (spots ++ [])) []
      ⟨c.draft ⟨b, x, some n⟩ :: y.block, (x, b) :: y.ids, y.queue, y.pending⟩ where
  laid := .cons hx (by rw [hspan, h.laid.length]) h.laid .nil
  block := by rw [h.block, List.append_nil, List.map_cons]
  ids := by rw [h.ids, List.append_nil, List.map_cons]
  own := filter_eq_nil fun d hd => by
    rcases h.about d hd with hd | ⟨s, hs, hd⟩
    · exact ⟨b, hd, Nat.ne_of_gt hb⟩
    · have hs := h.laid.number_mem hs
      exact ⟨s.number, hd, Nat.ne_of_gt (by omega)⟩
  works := fun s hs => by
    rw [List.append_nil, List.mem_cons] at hs
    rcases hs with rfl | hs
    · refine ⟨r, hx, ?_⟩
      rcases hrest with rfl | ⟨rfl, hstill⟩
      · exact .inl h.own
      · refine .inr ⟨h.own.trans (List.append_nil _), ?_⟩
        rw [draft, hx]
        exact hstill
    · exact h.works s hs
  about := fun d hd => by
    rw [List.append_nil]
    rcases h.about d hd with hd | ⟨s, hs, hd⟩
    · exact .inr ⟨_, List.mem_cons_self .., hd⟩
    · exact .inr ⟨s, List.mem_cons_of_mem _ hs, hd⟩

theorem nested_of_readable (hleg : c.Legible) {x : ReflectionId} (hx : c.project.get? x = some r)
    (hne : x ≠ ReflectionId.project) (hspan : c.span x = c.total (c.inOrder r.variant) + 1)
    (hread : c.Readable clean inside r) {f : ReflectionId → Option Json}
    (hf : f x = some (.obj (c.objectFields inside r))) : c.Nested clean f x := by
  refine ⟨_, hf, fun n b s v role depth hb hslot hdepth => ?_⟩
  obtain ⟨depth, rfl⟩ : ∃ d, depth = d + 1 := ⟨depth - 1, by
    rw [Json.depth] at hdepth
    omega⟩
  obtain ⟨build, hbuild, (hbare : build (c.objectFields inside r) = bare r)⟩ :=
    builder_bare (hleg.nested x r hx hne)
  have htag : VariantTag.ofName? ((c.objectFields inside r).text "variant") = some r.tag := by
    rw [Fields.text, Fields.text?, value?_shared (by simp [sharedKeys])]
    simp [Writer.sharedFields, ofName?_name]
  have hid : (c.objectFields inside r).word? "id" = some x := by
    have hlt : x < Json.wordBound := lt_wordBound hleg (Project.contains_of_get? hx)
    rw [Fields.word?, value?_shared (by simp [sharedKeys])]
    simp [Writer.sharedFields, Json.asWord?_ofNat, hleg.id x r hx, hlt]
  have hvariant : ({ bare r with id := b, parent := some n } : Reflection).variant =
      (bare r).variant := rfl
  have hnone : (bare r).comment = none := by rw [bare]; cases r.variant <;> rfl
  obtain ⟨y, spots, rest, hreads, hharvest, hrest⟩ :=
    reads_standardFields (n := b) hread hvariant hnone (shallow_of_le hdepth)
  have hdraft : c.filled b r { bare r with id := b, parent := some n } = c.draft ⟨b, x, some n⟩ := by
    rw [draft, hx]
  have hcons := Reads.construct htag hbuild (by rw [hbare, isProject_bare, hleg.nested x r hx hne])
    hslot (by rw [hbare]; exact hreads)
  rw [hdraft, hid] at hcons
  exact ⟨_, _, hcons, Harvest.around hx hspan hb hharvest hrest, fun _ => trivial⟩

/-- Every reflection that fits is read where it was written. -/
theorem nested_within (hleg : c.Legible) (hlisted : c.AllListed clean) {levels : Nat}
    {x : ReflectionId} (hfits : c.Fits levels x) (hne : x ≠ ReflectionId.project) :
    c.Nested clean (c.writer.reflectionWithin levels) x := by
  induction levels generalizing x with
  | zero => exact hfits.elim
  | succ levels ih =>
    obtain ⟨r, hx, hspan, hinside⟩ := hfits
    have hread : c.Readable clean (c.writer.reflectionWithin levels) r :=
      ⟨hleg, fun y hy => ih (hinside y hy).2 (hinside y hy).1,
        fun y hy => reflectionWithin_dead hy, hlisted x r hx⟩
    exact nested_of_readable hleg hx hne hspan hread (reflectionWithin_succ hx)

end Copying

end DocTree
