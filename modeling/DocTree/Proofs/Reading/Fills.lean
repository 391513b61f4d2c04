import DocTree.Proofs.Reading.Types

/-!
Reading into the reflection whose fields are read. `Fills` says what its variant is before and after an
action, and what the action adds to the state. Children are registered and enter their slot at once,
types are held until the variant takes them over.
-/

namespace DocTree

/-- The action gives the value, makes one variant of another and adds the crop to the state; `ds` are
the children that were registered, and what was read points at these reflections. -/
structure Fills {α : Type} (e : Site) (n base : Nat) (W : Prop) (m : Relocation → ReadM α)
    (v : Relocation → Variant) (a : Relocation → α) (v' : Relocation → Variant)
    (ds : List ReflectionId) (aims : List Aim) (y : Crop) : Prop where
  reads : ∀ (μ : Relocation) (s : Reflection), Reads (μ.site e) (μ.number n) (μ.number base) (m μ)
    (s.holding (v μ)) (a μ) (s.holding (v' μ)) (μ.crop y)
  sound : y.Sound n base W ds
  fresh : Fresh y.pending aims

variable {e : Site} {n base depth : Nat} {W : Prop} {α β : Type} {c : Constructors} {fields : Fields}

namespace Fills

variable {m : Relocation → ReadM α} {a : Relocation → α} {f : Relocation → α → ReadM β}
  {b : Relocation → β} {v v' v'' : Relocation → Variant} {ds es : List ReflectionId}
  {aims aims' : List Aim} {y z : Crop}

theorem of_gathers (h : Gathers e n base W m a ds aims y) (hv : ∀ μ, (v μ).OwnsTypes) :
    Fills e n base W m v a v ds aims y :=
  ⟨fun μ s => h.reads μ (s.holding (v μ)) (hv μ), h.sound, h.fresh⟩

/-- What is added by reading a value does not depend on what the variant is. -/
theorem of_quotes (h : Quotes e m a aims) : ∃ y : Crop, ∀ {n base : Nat} {W : Prop}
    {v : Relocation → Variant}, Fills e n base W m v a v [] aims y := by
  obtain ⟨k, hk, hfresh⟩ := h
  exact ⟨.light k, ⟨fun μ s => hk μ _ _ _, .light k, hfresh⟩⟩

theorem pure (a : Relocation → α) : Fills e n base W (fun μ => Pure.pure (a μ)) v a v [] [] .none :=
  ⟨fun μ _ => Reads.pure (a μ), .none, .nil⟩

theorem bind (hn : n < base) (h : Fills e n base W m v a v' ds aims y)
    (h' : Fills e n (base + y.block.length) W (fun μ => f μ (a μ)) v' b v'' es aims' z) :
    Fills e n base W (fun μ => m μ >>= f μ) v b v'' (ds ++ es) (aims ++ aims') (y ++ z) where
  reads := by
    intro μ s
    rw [Renaming.crop_append]
    exact (h.reads μ s).bind (μ.number_next base y) (h'.reads μ s)
  sound := h.sound.append hn h'.sound
  fresh := h.fresh.append h'.fresh

/-- The same children and less that is pointed at. -/
theorem congr (h : Fills e n base W m v a v' ds aims y) (hds : ds.Perm es)
    (haims : ∀ x ∈ aims', x ∈ aims) : Fills e n base W m v a v' es aims' y :=
  ⟨h.reads, h.sound.perm hds, h.fresh.mono haims⟩

/-- The variant is changed at once. -/
theorem edit {f : Relocation → Reflection → Reflection}
    (hf : ∀ (μ : Relocation) (s : Reflection), f μ (s.holding (v μ)) = s.holding (v' μ)) :
    Fills e n base W (fun μ => Reader.edit (μ.number n) (f μ)) v (fun _ => ()) v' [] [] .none where
  reads := by
    intro μ s
    rw [← hf μ s]
    exact Reads.edit (f μ)
  sound := .none
  fresh := .nil

/-- Work about the reflection itself is put off. -/
theorem defer {d : Deferred} (hsubject : d.subject? = some n) (hold : ∀ x ∈ d.aims, x.isOld = true) :
    Fills e n base W (fun μ => ReadM.defer (μ.work d)) v (fun _ => ()) v [] [] (.work d) :=
  ⟨fun μ _ => Reads.defer (μ.work d), .work hsubject hold, .nil⟩

end Fills

/-! ### Slots -/

section Slots

variable (hc : c.Sound e W depth) (role : Role)
include hc

/-- One child. Its number and what is added do not depend on what the variant is. -/
theorem fills_object {o : Fields} (hw : o.Within depth W) (hn : n < base) :
    ∃ (id : Option ReflectionId) (y : Crop), ∀ (put : Relocation → List ReflectionId → Variant),
      (∀ μ before i, (put μ before).attach? i role = some (put μ (before ++ [i]))) → ∀ before,
      Fills e n base W (fun _ => do let _ ← c.reflection o role)
        (fun μ => put μ (before.map μ.number)) (fun _ => ())
        (fun μ => put μ ((before ++ id.toList).map μ.number)) id.toList [] y := by
  obtain ⟨id, y, hid, hsound, hreads, -⟩ := hc.reflection o role hw n base hn
  refine ⟨id, y, fun put hput before => ⟨?_, hsound, .nil⟩⟩
  intro μ s
  have hread := hreads μ (s.holding (put μ (before.map μ.number))) _ (hput μ _ _)
  have hslot : (id.elim (s.holding (put μ (before.map μ.number))) fun _ =>
      (s.holding (put μ (before.map μ.number))).holding
        (put μ (before.map μ.number ++ [μ.number base]))) =
      s.holding (put μ ((before ++ id.toList).map μ.number)) := by
    cases id with
    | none => rw [Option.toList_none, List.append_nil]; rfl
    | some i =>
      obtain rfl := hid i rfl
      rw [Option.toList_some, List.map_append, List.map_singleton]
      rfl
  rw [hslot] at hread
  have hboth := hread.bind (f := fun _ => Pure.pure ()) (μ.number_next base y) (Reads.pure ())
  exact hboth.of_eq (Crop.append_none _)

theorem fills_objects {objects : List Fields} (hw : ∀ o ∈ objects, o.Within depth W) (hn : n < base) :
    ∃ (ids : List ReflectionId) (y : Crop), ∀ (put : Relocation → List ReflectionId → Variant),
      (∀ μ before i, (put μ before).attach? i role = some (put μ (before ++ [i]))) → ∀ before,
      Fills e n base W (fun _ => ReadM.each (fun inner => do let _ ← c.reflection inner role) objects)
        (fun μ => put μ (before.map μ.number)) (fun _ => ())
        (fun μ => put μ ((before ++ ids).map μ.number)) ids [] y := by
  induction objects generalizing base with
  | nil =>
    refine ⟨[], .none, fun put hput before => ?_⟩
    rw [List.append_nil]
    exact .pure _
  | cons o rest ih =>
    obtain ⟨id, y, hone⟩ := fills_object hc role (hw o (List.mem_cons_self ..)) hn
    obtain ⟨ids, z, hrest⟩ := ih (fun o' ho' => hw o' (List.mem_cons_of_mem o ho'))
      (Nat.lt_add_right y.block.length hn)
    refine ⟨id.toList ++ ids, y ++ z, fun put hput before => ?_⟩
    rw [← List.append_assoc]
    exact (hone put hput before).bind hn (hrest put hput (before ++ id.toList))

/-- The children in the array under a key, in the slot of a role. -/
theorem fills_childrenAt (put : Relocation → List ReflectionId → Variant)
    (hput : ∀ μ before i, (put μ before).attach? i role = some (put μ (before ++ [i])))
    (hw : fields.Within (depth + 1) W) (key : String) (hn : n < base) :
    ∃ (ids : List ReflectionId) (y : Crop), Fills e n base W (fun _ => c.childrenAt fields key role)
      (fun μ => put μ []) (fun _ => ()) (fun μ => put μ (ids.map μ.number)) ids [] y := by
  have hobjects : ∀ o ∈ fields.objects key, o.Within depth W := fun _ ho => hw.objects ho
  obtain ⟨ids, y, h⟩ := fills_objects hc role hobjects hn
  exact ⟨ids, y, h put hput []⟩

/-- The child under a key, in the slot of a role. -/
theorem fills_childAt (put : Relocation → Option ReflectionId → Variant)
    (hput : ∀ μ before i, (put μ before).attach? i role = some (put μ (some i)))
    (hw : fields.Within (depth + 1) W) (key : String) (hn : n < base) :
    ∃ (id : Option ReflectionId) (y : Crop), Fills e n base W (fun _ => c.childAt fields key role)
      (fun μ => put μ none) (fun _ => ()) (fun μ => put μ (id.map μ.number)) id.toList [] y := by
  unfold Constructors.childAt
  cases ho : fields.object? key with
  | none => exact ⟨none, .none, .pure _⟩
  | some o =>
    have hlast : ∀ μ (before : List ReflectionId) i, (put μ before.getLast?).attach? i role =
        some (put μ (before ++ [i]).getLast?) := by
      intro μ before i
      rw [hput, List.getLast?_append, List.getLast?_singleton, Option.some_or]
    obtain ⟨id, y, h⟩ := fills_object hc role (hw.object? ho) hn
    have hone := h (fun μ ids => put μ ids.getLast?) hlast []
    have hslot : ∀ μ : Relocation, (([] ++ id.toList).map μ.number).getLast? = id.map μ.number := by
      intro μ
      cases id <;> rfl
    simp only [hslot] at hone
    refine ⟨id, y ++ .none, ?_⟩
    have hboth := hone.bind hn (f := fun _ _ => Pure.pure ()) (Fills.pure fun _ => ())
    rw [List.append_nil] at hboth
    exact hboth

/-- The main type, set when it has been read. -/
theorem fills_mainType (put : Relocation → Option Ty → Variant)
    (hput : ∀ μ t, (put μ none).setMainType? (some t) = some (put μ (some t)))
    (hnone : ∀ μ, (put μ none).mainType? = none) (howns : ∀ μ, (put μ none).OwnsTypes)
    (hw : fields.Within (depth + 1) W) (hn : n < base) :
    ∃ (o : Option Ty) (y : Crop), Fills e n base W
      (fun μ => Reader.mainType c (μ.number n) fields) (fun μ => put μ none) (fun _ => ())
      (fun μ => put μ (o.map μ.ty)) (o.toList.flatMap Ty.declarations) (o.toList.flatMap Ty.aims) y := by
  obtain ⟨o, y, hread, -⟩ := hc.typeAt hw hn "type"
  refine ⟨o, y, ?_, hread.sound, hread.fresh⟩
  intro μ s
  have hat := hread.reads μ (s.holding (put μ none)) (howns μ)
  cases o with
  | none =>
    rw [Reader.mainType]
    exact (Reads.bind hat (μ.number_next base y) (Reads.pure ())).of_eq (Crop.append_none _)
  | some t =>
    have howned : ∀ d ∈ (μ.ty t).declarations, ∃ i u, d = μ.number base + i ∧
        (μ.crop y).block[i]? = some u ∧ u.parent = some (μ.number n) := by
      intro d hd
      rw [Renaming.declarations_ty] at hd
      obtain ⟨d', hd', rfl⟩ := List.mem_map.mp hd
      have hmem : d' ∈ (some t).toList.flatMap Ty.declarations := by simpa using hd'
      obtain ⟨u, hu, rfl, hparent⟩ := hread.sound.grove.own.child d' hmem
      obtain ⟨i, hi, hplace⟩ := hread.sound.grove.getElem? hu
      refine ⟨i, μ.reflection u, ?_, ?_, ?_⟩
      · rw [hi, μ.number_add]
      · rw [Renaming.crop, List.getElem?_map, hplace]
        rfl
      · rw [Renaming.reflection, hparent]
        rfl
    have hset := Reads.mainType hat (hput μ _) (hnone μ) howned
    exact hset

end Slots

end DocTree
