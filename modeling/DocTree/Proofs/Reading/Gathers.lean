import DocTree.Proofs.Reading.Grove
import DocTree.Proofs.Reading.Nested

/-!
Reading values. `Quotes` is about an action that registers nothing, `Gathers` about one that may
register declarations that types own. Both say what the action gives at every place that differs from
one by a relocation: the value that it gives there, relocated.
-/

namespace DocTree

/-- The variant has a place for declarations that types own. -/
def Variant.OwnsTypes (v : Variant) : Prop := ∀ i, v.attach? i .typeLiteral = some v

/-- Wherever it runs, the action gives the value and registers nothing; the value points at these
reflections. -/
def Quotes {α : Type} (e : Site) (m : Relocation → ReadM α) (a : Relocation → α) (aims : List Aim) :
    Prop :=
  ∃ k, (∀ (μ : Relocation) n base r, Reads (μ.site e) n base (m μ) r (a μ) r (.light k)) ∧
    Fresh k aims

/-- The action gives the value and adds the crop to the state; the value owns the children `ds` of `n`
and points at these reflections. -/
structure Gathers {α : Type} (e : Site) (n base : Nat) (W : Prop) (m : Relocation → ReadM α)
    (a : Relocation → α) (ds : List ReflectionId) (aims : List Aim) (y : Crop) : Prop where
  reads : ∀ (μ : Relocation) (r : Reflection), r.variant.OwnsTypes →
    Reads (μ.site e) (μ.number n) (μ.number base) (m μ) r (a μ) r (μ.crop y)
  sound : y.Sound n base W ds
  fresh : Fresh y.pending aims

variable {e : Site} {n base : Nat} {W : Prop} {α β γ : Type} {aims aims' : List Aim}
  {m : Relocation → ReadM α} {a : Relocation → α} {f : Relocation → α → ReadM β} {b : Relocation → β}

theorem filterMap_eq_flatMap (f : α → Option β) (xs : List α) :
    xs.filterMap f = xs.flatMap fun x => (f x).toList := by
  induction xs with
  | nil => rfl
  | cons x rest ih =>
    rw [List.filterMap_cons, List.flatMap_cons, ih]
    cases f x <;> rfl

/-! ### Values that register nothing -/

namespace Quotes

theorem pure (a : Relocation → α) : Quotes e (fun μ => Pure.pure (a μ)) a [] :=
  ⟨0, fun μ _ _ _ => Reads.pure (a μ), .nil⟩

theorem bind (h : Quotes e m a aims) (h' : Quotes e (fun μ => f μ (a μ)) b aims') :
    Quotes e (fun μ => m μ >>= f μ) b (aims ++ aims') := by
  obtain ⟨k, hk, hfresh⟩ := h
  obtain ⟨l, hl, hfresh'⟩ := h'
  refine ⟨k + l, ?_, hfresh.append hfresh'⟩
  intro μ n base r
  exact (hk μ n base r).bind rfl (hl μ n base r)

/-- The action ends with a value made of the one it gave. -/
theorem give {g : Relocation → α → β} (h : Quotes e m a aims) (hb : ∀ μ, g μ (a μ) = b μ) :
    Quotes e (fun μ => m μ >>= fun x => Pure.pure (g μ x)) b aims := by
  have hpure : Quotes e (fun μ => Pure.pure (g μ (a μ))) b [] := funext hb ▸ pure _
  exact List.append_nil aims ▸ h.bind hpure

/-- After a target was stored by its old number. -/
theorem bump (old : Nat) : Quotes e
    (fun _ => ReadM.change fun v => { v with pendingCount := v.pendingCount + 1 }) (fun _ => ())
    [.old old] := by
  refine ⟨1, fun μ n base r => Reads.bump, ?_⟩
  intro x hx
  obtain rfl := List.mem_singleton.mp hx
  exact ⟨Nat.one_ne_zero, rfl⟩

/-- What follows a look at the state may depend on the root and the files. -/
theorem ask {g : Revival → ReadM α}
    (h : ∀ (μ : Relocation) v, v.root = e.root → v.fileIds = (μ.site e).files →
      ∀ n base r, Reads (μ.site e) n base (g v) r (a μ) r .none) :
    Quotes e (fun _ => ReadM.revival >>= g) a [] :=
  ⟨0, fun μ n base r => Reads.ask fun v hroot hfiles => h μ v hroot hfiles n base r, .nil⟩

theorem mono (h : Quotes e m a aims) (hsub : ∀ x ∈ aims', x ∈ aims) : Quotes e m a aims' := by
  obtain ⟨k, hk, hfresh⟩ := h
  exact ⟨k, hk, hfresh.mono hsub⟩

theorem isOld (h : Quotes e m a aims) : ∀ x ∈ aims, x.isOld = true := by
  obtain ⟨k, -, hfresh⟩ := h
  exact fun x hx => (hfresh x hx).2

/-- What is read from the items of a list. -/
theorem collect {g : γ → ReadM (Option β)} {move : Relocation → β → β} {aimsOf : β → List Aim}
    (xs : List γ) (h : ∀ x ∈ xs, ∃ b : Option β,
      Quotes e (fun _ => g x) (fun μ => b.map (move μ)) (b.toList.flatMap aimsOf)) :
    ∃ bs : List β, Quotes e (fun _ => ReadM.collect g xs) (fun μ => bs.map (move μ))
      (bs.flatMap aimsOf) := by
  induction xs with
  | nil => exact ⟨[], pure _⟩
  | cons x rest ih =>
    obtain ⟨b, hb⟩ := h x (List.mem_cons_self ..)
    obtain ⟨bs, hbs⟩ := ih fun y hy => h y (List.mem_cons_of_mem x hy)
    refine ⟨b.toList ++ bs, ?_⟩
    rw [List.flatMap_append]
    refine hb.bind (hbs.give ?_)
    intro μ
    cases b <;> rfl

end Quotes

/-! ### Values that may own declarations -/

namespace Gathers

variable {ds es : List ReflectionId} {y z : Crop}

theorem of_quotes (h : Quotes e m a aims) : ∃ y, Gathers e n base W m a [] aims y := by
  obtain ⟨k, hk, hfresh⟩ := h
  exact ⟨.light k, fun μ _ _ => hk μ _ _ _, .light k, hfresh⟩

theorem pure (a : Relocation → α) : Gathers e n base W (fun μ => Pure.pure (a μ)) a [] [] .none :=
  ⟨fun μ _ _ => Reads.pure (a μ), .none, .nil⟩

theorem bind (hn : n < base) (h : Gathers e n base W m a ds aims y)
    (h' : Gathers e n (base + y.block.length) W (fun μ => f μ (a μ)) b es aims' z) :
    Gathers e n base W (fun μ => m μ >>= f μ) b (ds ++ es) (aims ++ aims') (y ++ z) where
  reads := by
    intro μ r hr
    rw [Renaming.crop_append]
    exact (h.reads μ r hr).bind (μ.number_next base y) (h'.reads μ r hr)
  sound := h.sound.append hn h'.sound
  fresh := h.fresh.append h'.fresh

theorem map {g : α → β} (h : Gathers e n base W m a ds aims y) (hb : ∀ μ, g (a μ) = b μ) :
    Gathers e n base W (fun μ => g <$> m μ) b ds aims y where
  reads := by
    intro μ r hr
    rw [← hb μ]
    exact (h.reads μ r hr).map
  sound := h.sound
  fresh := h.fresh

/-- The action ends with a value made of the one it gave. -/
theorem give {g : Relocation → α → β} (h : Gathers e n base W m a ds aims y)
    (hb : ∀ μ, g μ (a μ) = b μ) :
    Gathers e n base W (fun μ => m μ >>= fun x => Pure.pure (g μ x)) b ds aims y where
  reads := by
    intro μ r hr
    have hpure : Reads (μ.site e) (μ.number n) (μ.number (base + y.block.length))
        (Pure.pure (g μ (a μ))) r (b μ) r .none := hb μ ▸ Reads.pure _
    exact ((h.reads μ r hr).bind (μ.number_next base y) hpure).of_eq (Crop.append_none _)
  sound := h.sound
  fresh := h.fresh

/-- The same value, said otherwise. -/
theorem congr (h : Gathers e n base W m a ds aims y) (hds : ds.Perm es)
    (haims : ∀ x ∈ aims', x ∈ aims) : Gathers e n base W m a es aims' y :=
  ⟨h.reads, h.sound.perm hds, h.fresh.mono haims⟩

/-- The declarations that were read are given up. -/
theorem drop (h : Gathers e n base W m a ds aims y) (hW : ¬ W) : Gathers e n base W m a [] [] y :=
  ⟨h.reads, h.sound.drop hW, .nil⟩

/-- What is read from the items of a list. -/
theorem collect {g : γ → ReadM (Option β)} {move : Relocation → β → β} {dsOf : β → List ReflectionId}
    {aimsOf : β → List Aim} {xs : List γ} (hn : n < base)
    (h : ∀ x ∈ xs, ∀ base, n < base → ∃ (b : Option β) (y : Crop),
      Gathers e n base W (fun _ => g x) (fun μ => b.map (move μ)) (b.toList.flatMap dsOf)
        (b.toList.flatMap aimsOf) y) :
    ∃ (bs : List β) (y : Crop), Gathers e n base W (fun _ => ReadM.collect g xs)
      (fun μ => bs.map (move μ)) (bs.flatMap dsOf) (bs.flatMap aimsOf) y := by
  induction xs generalizing base with
  | nil => exact ⟨[], .none, pure _⟩
  | cons x rest ih =>
    obtain ⟨b, y, hb⟩ := h x (List.mem_cons_self ..) base hn
    obtain ⟨bs, z, hbs⟩ := ih (Nat.lt_add_right y.block.length hn)
      fun x' hx' => h x' (List.mem_cons_of_mem x hx')
    refine ⟨b.toList ++ bs, y ++ z, ?_⟩
    rw [List.flatMap_append, List.flatMap_append]
    refine hb.bind hn (hbs.give ?_)
    intro μ
    cases b <;> rfl

end Gathers

end DocTree
