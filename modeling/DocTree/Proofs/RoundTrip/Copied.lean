import DocTree.Proofs.Reading.Nested
import DocTree.Proofs.RoundTrip.Harvest

/-!
What a copied type contains. The types inside it are copied one after the other, so that its
declarations get the numbers of one run; each of these numbers is that of a place under the same
owner.
-/

namespace DocTree.Copying

variable {c : Copying}

attribute [grind =] ty tyList

theorem map_fst_tyTail (b : Nat) (tail : List (Ty × String)) :
    (c.tyTail b tail).map (·.1) = c.tyList b (tail.map (·.1)) := by
  induction tail generalizing b with
  | nil => rfl
  | cons entry rest ih => rw [tyTail, List.map_cons, List.map_cons, ih, tyList]

/-- The types inside a type are copied one after the other. -/
theorem children_ty (b : Nat) (t : Ty) : (c.ty b t).children = c.tyList b t.children := by
  cases t with
  | inferred name x | predicate name asserts x => cases x <;> rfl
  | mapped parameter x y fixed missing z => cases z <;> rfl
  | query head args | reference head args =>
    match args with
    | none | some [] => rfl
    | some (x :: xs) => rfl
  | templateLiteral head tail => exact map_fst_tyTail b tail
  | _ => rfl

theorem mem_tyList {t' : Ty} {b : Nat} {ts : List Ty} (h : t' ∈ c.tyList b ts) :
    ∃ t ∈ ts, ∃ b', t' = c.ty b' t := by
  induction ts generalizing b with
  | nil => cases h
  | cons t rest ih =>
    rcases List.mem_cons.mp h with rfl | h
    · exact ⟨t, List.mem_cons_self .., b, rfl⟩
    · obtain ⟨u, hu, hb⟩ := ih h
      exact ⟨u, List.mem_cons_of_mem t hu, hb⟩

theorem mem_tyOption {t' : Ty} {b : Nat} {o : Option Ty} (h : t' ∈ c.tyOption b o) :
    ∃ t ∈ o, ∃ b', t' = c.ty b' t := by
  cases o with
  | none => cases h
  | some t => exact ⟨t, rfl, b, (Option.some.inj h).symm⟩

/-- What holds of every copied part holds of all that stands in a copied type. -/
theorem forall_subterms_ty {P : Ty → Prop} (t : Ty) (b : Nat)
    (h : ∀ u ∈ t.subterms, ∀ b, P (c.ty b u)) : ∀ u ∈ (c.ty b t).subterms, P u := by
  induction t using Ty.induct generalizing b with
  | h t ih =>
    intro u hu
    rw [Ty.subterms_eq, children_ty] at hu
    rcases List.mem_cons.mp hu with rfl | hu
    · exact h t (by rw [Ty.subterms_eq]; exact List.mem_cons_self ..) b
    · obtain ⟨a', ha', hu⟩ := List.mem_flatMap.mp hu
      obtain ⟨a, ha, b', rfl⟩ := mem_tyList ha'
      exact ih a ha b' (fun x hx => h x (Ty.mem_subterms_of_mem_children ha hx)) u hu

theorem declarations_tyList {ts : List Ty}
    (h : ∀ t ∈ ts, ∀ b, (c.ty b t).declarations = c.run b t.declarations) (b : Nat) :
    (c.tyList b ts).flatMap Ty.declarations = c.run b (ts.flatMap Ty.declarations) := by
  induction ts generalizing b with
  | nil => rfl
  | cons t rest ih =>
    rw [tyList, List.flatMap_cons, List.flatMap_cons, h t (List.mem_cons_self ..), run_append,
      ih fun x hx => h x (List.mem_cons_of_mem t hx)]

/-- The declarations that a copied type owns. -/
theorem declarations_ty (b : Nat) (t : Ty) : (c.ty b t).declarations = c.run b t.declarations := by
  induction t using Ty.induct generalizing b with
  | h t ih =>
    rw [Ty.declarations_eq, Ty.declarations_eq t, children_ty]
    cases hd : t.declaration? with
    | none =>
      have hnone : (c.ty b t).declaration? = none := by cases t <;> first | rfl | cases hd
      rw [hnone]
      exact declarations_tyList ih b
    | some d =>
      cases t with
      | reflection id =>
        obtain rfl : id = d := Option.some.inj hd
        rfl
      | _ => cases hd

theorem parts_tyList {ts : List Ty} (h : ∀ t ∈ ts, ∀ b, (c.ty b t).parts = c.parts t.parts)
    (b : Nat) : (c.tyList b ts).flatMap Ty.parts = c.parts (ts.flatMap Ty.parts) := by
  induction ts generalizing b with
  | nil => rfl
  | cons t rest ih =>
    rw [tyList, List.flatMap_cons, List.flatMap_cons, h t (List.mem_cons_self ..), parts, parts,
      List.map_append, ih fun x hx => h x (List.mem_cons_of_mem t hx)]
    rfl

/-- The texts in a copied type. -/
theorem parts_ty (b : Nat) (t : Ty) : (c.ty b t).parts = c.parts t.parts := by
  induction t using Ty.induct generalizing b with
  | h t ih =>
    have hroot : ((c.ty b t).summaries?.getD []).flatten =
        c.parts (t.summaries?.getD []).flatten := by
      cases t with
      | union ts lists =>
        cases lists with
        | none => rfl
        | some lists => exact List.map_flatten.symm
      | _ => rfl
    rw [Ty.parts_eq, Ty.parts_eq t, children_ty, hroot, parts_tyList ih, parts, parts, parts,
      List.map_append]

/-! ### Places -/

/-- Each number of a run is that of a place, whose owner is the reflection that is read. -/
theorem Laid.draft_of_mem_run {owner b : Nat} {xs : List ReflectionId} {spots : List Spot}
    (h : c.Laid owner b xs spots) {d : ReflectionId} (hd : d ∈ c.run b xs) :
    ∃ i s, d = b + i ∧ (spots.map c.draft)[i]? = some s ∧ s.parent = some owner := by
  induction h with
  | nil => cases hd
  | @cons owner b x r xs inner rest hx hspan _ _ _ ih =>
    rcases List.mem_cons.mp hd with rfl | hd
    · refine ⟨0, c.draft ⟨d, x, some owner⟩, rfl, rfl, ?_⟩
      rw [draft, hx]
      rfl
    · obtain ⟨i, s, rfl, hs, howner⟩ := ih hd
      refine ⟨c.span x + i, s, Nat.add_assoc .., ?_, howner⟩
      have hskip : c.span x + i = (inner.length + i) + 1 := by omega
      rw [hskip, List.map_cons, List.getElem?_cons_succ, List.map_append,
        List.getElem?_append_right (by simp), List.length_map, Nat.add_sub_cancel_left]
      exact hs

end DocTree.Copying
