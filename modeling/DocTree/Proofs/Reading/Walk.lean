import DocTree.Ty.Walk

/-!
Induction over types. What holds of a type whenever it holds of the types directly inside it holds of
all types; what a type owns, refers to and says is what stands at its root, followed by what the
types directly inside it own, refer to and say.
-/

namespace DocTree.Ty

attribute [grind =] subterms adjust children mapChildren

theorem sizeOf_lt_of_mem_children {a t : Ty} (h : a ∈ t.children) : sizeOf a < sizeOf t := by
  cases t with
  | templateLiteral head tail =>
    obtain ⟨entry, hentry, rfl⟩ := List.mem_map.mp h
    have hmem := List.sizeOf_lt_of_mem hentry
    obtain ⟨x, text⟩ := entry
    simp only [Prod.mk.sizeOf_spec] at hmem
    simp only [Ty.templateLiteral.sizeOf_spec]
    omega
  | intersection xs | tuple xs | union xs =>
    have hmem := List.sizeOf_lt_of_mem (show a ∈ xs from h)
    simp only [Ty.intersection.sizeOf_spec, Ty.tuple.sizeOf_spec, Ty.union.sizeOf_spec]
    omega
  | query head args | reference head args =>
    cases args with
    | none => cases h
    | some xs =>
      have hmem := List.sizeOf_lt_of_mem (show a ∈ xs from h)
      simp only [Ty.query.sizeOf_spec, Ty.reference.sizeOf_spec, Option.some.sizeOf_spec]
      omega
  | inferred name x | predicate name asserts x =>
    cases x with
    | none => cases h
    | some x =>
      obtain rfl := List.mem_singleton.mp h
      simp only [Ty.inferred.sizeOf_spec, Ty.predicate.sizeOf_spec, Option.some.sizeOf_spec]
      omega
  | mapped parameter x y fixed missing z =>
    have hmem : a = x ∨ a = y ∨ z = some a := by
      cases z <;> simpa [children, eq_comm] using h
    simp only [Ty.mapped.sizeOf_spec]
    rcases hmem with rfl | rfl | rfl
    · omega
    · omega
    · simp only [Option.some.sizeOf_spec]
      omega
  | _ =>
    simp only [children, List.mem_cons, List.not_mem_nil, or_false] at h <;>
      (rcases h with rfl | rfl | rfl | rfl <;> simp <;> omega)

/-- Induction over the types directly inside a type. -/
theorem induct {P : Ty → Prop} (h : ∀ t, (∀ a ∈ t.children, P a) → P t) (t : Ty) : P t :=
  h t fun a ha =>
    have := sizeOf_lt_of_mem_children ha
    induct h a
termination_by sizeOf t

/-! ### What stands in a type -/

theorem subtermsList_eq (xs : List Ty) : subtermsList xs = xs.flatMap subterms := by
  induction xs with
  | nil => rfl
  | cons x rest ih => rw [subtermsList, ih, List.flatMap_cons]

theorem subtermsTail_eq (tail : List (Ty × String)) :
    subtermsTail tail = (tail.map (·.1)).flatMap subterms := by
  induction tail with
  | nil => rfl
  | cons entry rest ih => rw [subtermsTail, ih, List.map_cons, List.flatMap_cons]

/-- A type stands before its parts. -/
theorem subterms_eq (t : Ty) : t.subterms = t :: t.children.flatMap subterms := by
  cases t with
  | inferred name x | predicate name asserts x =>
    cases x <;> simp [subterms, children, subtermsOption]
  | mapped parameter x y fixed missing z =>
    cases z <;> simp [subterms, children, subtermsOption]
  | query head args | reference head args =>
    cases args <;> simp [subterms, children, subtermsArgs, subtermsList_eq]
  | _ => simp [subterms, children, subtermsList_eq, subtermsTail_eq]

theorem declarations_eq (t : Ty) :
    t.declarations = t.declaration?.toList ++ t.children.flatMap declarations := by
  rw [declarations, subterms_eq, List.filterMap_cons, List.filterMap_flatMap]
  cases t.declaration? <;> rfl

theorem mem_declarations_of_mem_children {t a : Ty} {d : ReflectionId} (ha : a ∈ t.children)
    (hd : d ∈ a.declarations) : d ∈ t.declarations := by
  rw [declarations_eq]
  exact List.mem_append_right _ (List.mem_flatMap.mpr ⟨a, ha, hd⟩)

/-- A type that is no declaration owns what the types inside it own. -/
theorem eq_declarations {t : Ty} (h : t.declaration? = none) {ids : List ReflectionId}
    (hids : t.children.flatMap declarations = ids) : ids = t.declarations := by
  rw [declarations_eq t, h, ← hids]
  rfl

theorem references_eq (t : Ty) : t.references = t.ref?.toList ++ t.children.flatMap references := by
  rw [references, subterms_eq, List.filterMap_cons, List.filterMap_flatMap]
  cases t.ref? <;> rfl

theorem parts_eq (t : Ty) :
    t.parts = (t.summaries?.getD []).flatten ++ t.children.flatMap parts := by
  have hinner : (t.children.flatMap subterms).filterMap summaries? =
      t.children.flatMap fun a => a.subterms.filterMap summaries? := List.filterMap_flatMap
  have hflat : ∀ xs : List Ty,
      (xs.flatMap fun a => a.subterms.filterMap summaries?).flatten.flatten = xs.flatMap parts := by
    intro xs
    induction xs with
    | nil => rfl
    | cons x rest ih =>
      rw [List.flatMap_cons, List.flatten_append, List.flatten_append, ih, List.flatMap_cons, parts]
  rw [parts, subterms_eq, List.filterMap_cons, hinner]
  cases t.summaries? with
  | none => exact hflat t.children
  | some lists =>
    rw [List.flatten_cons, List.flatten_append, hflat]
    rfl

/-! ### Changing everything in a type -/

theorem adjustList_eq (f : Change) (xs : List Ty) : adjustList f xs = xs.map (adjust f) := by
  induction xs with
  | nil => rfl
  | cons x rest ih => rw [adjustList, ih, List.map_cons]

theorem adjustOption_eq (f : Change) (x : Option Ty) : adjustOption f x = x.map (adjust f) := by
  cases x <;> rfl

theorem adjustArgs_eq (f : Change) (args : Option (List Ty)) :
    adjustArgs f args = args.map (·.map (adjust f)) := by
  cases args with
  | none => rfl
  | some xs => rw [adjustArgs, adjustList_eq, Option.map_some]

theorem adjustTail_eq (f : Change) (tail : List (Ty × String)) :
    adjustTail f tail = tail.map fun entry => (adjust f entry.1, entry.2) := by
  induction tail with
  | nil => rfl
  | cons entry rest ih => rw [adjustTail, ih, List.map_cons]

theorem map_of_id {α : Type} {f : α → α} {l : List α} (h : ∀ x ∈ l, f x = x) : l.map f = l :=
  (List.map_congr_left h).trans (List.map_id l)

theorem mapChildren_congr {f g : Ty → Ty} {t : Ty} (h : ∀ a ∈ t.children, f a = g a) :
    t.mapChildren f = t.mapChildren g := by
  cases t with
  | inferred name x | predicate name asserts x => cases x <;> simp_all [mapChildren, children]
  | mapped parameter x y fixed missing z => cases z <;> simp_all [mapChildren, children]
  | query head args | reference head args =>
    cases args with
    | none => rfl
    | some xs => simp only [mapChildren, Option.map_some, List.map_congr_left (l := xs) h]
  | intersection xs | tuple xs | union xs => simp only [mapChildren, List.map_congr_left (l := xs) h]
  | templateLiteral head tail =>
    have htail : tail.map (fun entry => (f entry.1, entry.2)) =
        tail.map fun entry => (g entry.1, entry.2) := List.map_congr_left fun entry hentry =>
      Prod.ext (h entry.1 (List.mem_map_of_mem hentry)) rfl
    simp only [mapChildren, htail]
  | _ => simp_all [mapChildren, children]

theorem mapChildren_id (t : Ty) : t.mapChildren id = t := by
  cases t with
  | query head args | reference head args => cases args <;> simp [mapChildren]
  | _ => simp [mapChildren]

theorem mapChildren_of_id {f : Ty → Ty} {t : Ty} (h : ∀ a ∈ t.children, f a = a) :
    t.mapChildren f = t :=
  (mapChildren_congr h).trans t.mapChildren_id

/-- A change made to a type after it was made to the types inside it. These are smaller, so none of
them is left out. -/
noncomputable def everywhere (f : Ty → Ty) (t : Ty) : Ty :=
  f (t.mapChildren fun a => if _h : sizeOf a < sizeOf t then everywhere f a else a)
termination_by sizeOf t

theorem everywhere_eq (f : Ty → Ty) (t : Ty) : t.everywhere f = f (t.mapChildren (everywhere f)) := by
  rw [everywhere]
  exact congrArg f (mapChildren_congr fun a ha => dif_pos (sizeOf_lt_of_mem_children ha))

/-- A change that concerns neither references nor summaries nor names is made inside. -/
theorem adjust_eq_mapChildren {f : Change} {t : Ty} (href : t.ref? = none)
    (hsummaries : t.summaries? = none) (hintrinsic : f.intrinsic = id) :
    t.adjust f = t.mapChildren (adjust f) := by
  cases t with
  | reference head args | query head args => cases href
  | union xs lists =>
    obtain rfl : lists = none := hsummaries
    simp only [adjust, mapChildren, adjustList_eq, Option.map_none]
  | intrinsic name => simp only [adjust, mapChildren, hintrinsic, id_eq]
  | _ => simp only [adjust, mapChildren, adjustList_eq, adjustOption_eq, adjustTail_eq]

/-! ### What stands in a type that was changed -/

theorem mem_subterms_of_mem_children {a t u : Ty} (ha : a ∈ t.children) (hu : u ∈ a.subterms) :
    u ∈ t.subterms := by
  rw [subterms_eq]
  exact List.mem_cons_of_mem _ (List.mem_flatMap.mpr ⟨a, ha, hu⟩)

theorem children_adjust {f : Change} {t : Ty} (hf : t.kind = .query → f.inQueries = true) :
    (t.adjust f).children = t.children.map (adjust f) := by
  cases t with
  | inferred name x | predicate name asserts x => cases x <;> simp [adjust, children, adjustOption]
  | mapped parameter x y fixed missing z => cases z <;> simp [adjust, children, adjustOption]
  | query head args => cases args <;> simp [adjust, children, adjustArgs, adjustList_eq, hf rfl]
  | reference head args => cases args <;> simp [adjust, children, adjustArgs, adjustList_eq]
  | templateLiteral head tail => simp [adjust, children, adjustTail_eq]
  | _ => simp [adjust, children, adjustList_eq]

/-- What holds of every part after the change holds of all that stands in the changed type. -/
theorem forall_subterms_adjust {f : Change} (hf : f.inQueries = true) {P : Ty → Prop} (t : Ty)
    (h : ∀ u ∈ t.subterms, P (u.adjust f)) : ∀ u ∈ (t.adjust f).subterms, P u := by
  induction t using induct with
  | h t ih =>
    intro u hu
    rw [subterms_eq, children_adjust fun _ => hf] at hu
    rcases List.mem_cons.mp hu with rfl | hu
    · exact h t (by rw [subterms_eq]; exact List.mem_cons_self ..)
    · obtain ⟨a', ha', hu⟩ := List.mem_flatMap.mp hu
      obtain ⟨a, ha, rfl⟩ := List.mem_map.mp ha'
      exact ih a ha (fun x hx => h x (mem_subterms_of_mem_children ha hx)) u hu

theorem summaries?_adjust (f : Change) (t : Ty) :
    (t.adjust f).summaries? = t.summaries?.map (·.map (·.map f.part)) := by
  cases t with
  | query head args =>
    rw [adjust]
    split <;> rfl
  | _ => rfl

theorem parts_adjust {f : Change} (hf : f.inQueries = true) (t : Ty) :
    (t.adjust f).parts = t.parts.map f.part := by
  induction t using induct with
  | h t ih =>
    rw [parts_eq, parts_eq t, children_adjust fun _ => hf, summaries?_adjust, List.map_append,
      List.flatMap_map, List.map_flatMap]
    congr 1
    · cases t.summaries? with
      | none => rfl
      | some lists => exact List.map_flatten.symm
    · exact congrArg List.flatten (List.map_congr_left ih)

theorem ref?_adjust {f : Change} (hf : f.inQueries = true) (t : Ty) :
    (t.adjust f).ref?.map (·.1) = t.ref?.map fun entry => f.ref entry.1 := by
  cases t with
  | query head args =>
    rw [adjust, if_pos hf]
    rfl
  | _ => rfl

/-- References are changed one by one. -/
theorem references_adjust {f : Change} (hf : f.inQueries = true) (t : Ty) :
    (t.adjust f).references.map (·.1) = t.references.map fun entry => f.ref entry.1 := by
  induction t using induct with
  | h t ih =>
    rw [references_eq, references_eq t, children_adjust fun _ => hf, List.map_append, List.map_append,
      List.flatMap_map, List.map_flatMap, List.map_flatMap]
    congr 1
    · have hhead := congrArg Option.toList (ref?_adjust hf t)
      rwa [Option.toList_map, Option.toList_map] at hhead
    · exact congrArg List.flatten (List.map_congr_left ih)

theorem declaration?_adjust (f : Change) (t : Ty) : (t.adjust f).declaration? = t.declaration? := by
  cases t with
  | query head args =>
    rw [adjust]
    split <;> rfl
  | _ => rfl

/-- A change leaves it as it is what a type owns. -/
theorem declarations_adjust {f : Change} (hf : f.inQueries = true) (t : Ty) :
    (t.adjust f).declarations = t.declarations := by
  induction t using induct with
  | h t ih =>
    rw [declarations_eq, declarations_eq t, children_adjust fun _ => hf, declaration?_adjust,
      List.flatMap_map]
    exact congrArg _ (congrArg List.flatten (List.map_congr_left ih))

end DocTree.Ty
