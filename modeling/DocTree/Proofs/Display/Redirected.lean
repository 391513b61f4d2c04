import DocTree.Proofs.Display.Bare

/-!
Types whose references are led elsewhere. The walk that changes targets comes by the same references as
the walk that lists them, and in the same order; it leaves the rest of a type as it is, so that a type is
known from what it is without targets and from its targets in their order.
-/

namespace DocTree.Ty

variable {f g : RefTarget → RefTarget} {t u : Ty}

/-! ### Children that are changed -/

theorem children_mapChildren (h : Ty → Ty) (t : Ty) : (t.mapChildren h).children = t.children.map h := by
  cases t with
  | inferred name x | predicate name asserts x => cases x <;> rfl
  | mapped parameter x y fixed missing z => cases z <;> rfl
  | query head args | reference head args => cases args <;> rfl
  | templateLiteral head tail => simp [mapChildren, children]
  | _ => rfl

theorem mapChildren_mapChildren (h k : Ty → Ty) (t : Ty) :
    (t.mapChildren h).mapChildren k = t.mapChildren fun a => k (h a) := by
  cases t <;> simp [mapChildren, Function.comp_def]

/-! ### The reference at the root -/

/-- A type with another target for the reference at its root. -/
def redirectRoot (f : RefTarget → RefTarget) : Ty → Ty
  | .reference head args => .reference { head with target := f head.target } args
  | .query head args => .query { head with target := f head.target } args
  | t => t

theorem children_redirectRoot (f : RefTarget → RefTarget) (t : Ty) :
    (t.redirectRoot f).children = t.children := by
  cases t <;> rfl

theorem mapChildren_redirectRoot (f : RefTarget → RefTarget) (h : Ty → Ty) (t : Ty) :
    (t.redirectRoot f).mapChildren h = (t.mapChildren h).redirectRoot f := by
  cases t <;> rfl

theorem redirectRoot_redirectRoot (f g : RefTarget → RefTarget) (t : Ty) :
    (t.redirectRoot f).redirectRoot g = t.redirectRoot fun target => g (f target) := by
  cases t <;> rfl

/-! ### One type after the other -/

/-- The change of every target. -/
def redirection (f : RefTarget → RefTarget) : Change :=
  { Change.none with ref := fun r => { r with target := f r.target } }

theorem mapTargets_eq_adjust (f : RefTarget → RefTarget) : mapTargets f = adjust (redirection f) := rfl

/-- Each type on the way gets another target for the reference at its root, and the walk goes on in the
types directly inside it. -/
theorem mapTargets_eq (f : RefTarget → RefTarget) (t : Ty) :
    t.mapTargets f = (t.mapChildren (mapTargets f)).redirectRoot f := by
  have hpart : (redirection f).part = id := rfl
  have hintrinsic : (redirection f).intrinsic = id := rfl
  have hqueries : (redirection f).inQueries = true := rfl
  have href (r : Ref) : (redirection f).ref r = { r with target := f r.target } := rfl
  rw [mapTargets_eq_adjust]
  cases t with
  | reference head args | query head args =>
    simp only [adjust, adjustArgs_eq, mapChildren, redirectRoot, hqueries, if_true, href]
  | intrinsic name => simp only [adjust, mapChildren, redirectRoot, hintrinsic, id_eq]
  | union ts summaries =>
    simp [adjust, adjustList_eq, mapChildren, redirectRoot, hpart]
  | _ => simp only [adjust, adjustList_eq, adjustOption_eq, adjustTail_eq, mapChildren, redirectRoot]

theorem children_mapTargets (f : RefTarget → RefTarget) (t : Ty) :
    (t.mapTargets f).children = t.children.map (mapTargets f) := by
  rw [mapTargets_eq, children_redirectRoot, children_mapChildren]

/-! ### What is listed afterwards -/

/-- A reference with another target, the types among its arguments walked too. -/
def redirect (f : RefTarget → RefTarget) (entry : Ref × Option (List Ty)) : Ref × Option (List Ty) :=
  ({ entry.1 with target := f entry.1.target }, entry.2.map (·.map (mapTargets f)))

theorem ref?_mapTargets (f : RefTarget → RefTarget) (t : Ty) :
    (t.mapTargets f).ref? = t.ref?.map (redirect f) := by
  rw [mapTargets_eq]
  cases t <;> rfl

/-- The references in their order are the old ones with other targets. -/
theorem references_mapTargets (f : RefTarget → RefTarget) (t : Ty) :
    (t.mapTargets f).references = t.references.map (redirect f) := by
  induction t using induct with
  | h t ih =>
    rw [references_eq, references_eq t, ref?_mapTargets, children_mapTargets, Option.toList_map,
      List.flatMap_map, List.map_append, List.map_flatMap]
    exact congrArg _ (congrArg List.flatten (List.map_congr_left ih))

/-- The types in their order are the old ones, each walked. -/
theorem subterms_mapTargets (f : RefTarget → RefTarget) (t : Ty) :
    (t.mapTargets f).subterms = t.subterms.map (mapTargets f) := by
  induction t using induct with
  | h t ih =>
    rw [subterms_eq, subterms_eq t, children_mapTargets, List.flatMap_map, List.map_cons, List.map_flatMap]
    exact congrArg _ (congrArg List.flatten (List.map_congr_left ih))

/-! ### What is not changed -/

/-- A type with no target left. -/
noncomputable def untargeted (t : Ty) : Ty := t.everywhere (redirectRoot fun _ => .broken)

theorem untargeted_eq (t : Ty) :
    t.untargeted = (t.mapChildren untargeted).redirectRoot fun _ => .broken :=
  everywhere_eq _ t

theorem mapTargets_broken (t : Ty) : t.mapTargets (fun _ => .broken) = t.untargeted := by
  induction t using induct with
  | h t ih => rw [mapTargets_eq, untargeted_eq, mapChildren_congr ih]

theorem untargeted_mapTargets (f : RefTarget → RefTarget) (t : Ty) :
    (t.mapTargets f).untargeted = t.untargeted := by
  induction t using induct with
  | h t ih =>
    rw [mapTargets_eq, untargeted_eq, mapChildren_redirectRoot, redirectRoot_redirectRoot,
      mapChildren_mapChildren, mapChildren_congr ih, untargeted_eq t]

/-- The targets of a type in their order. -/
def targets (t : Ty) : List RefTarget := t.references.map (·.1.target)

theorem targets_eq (t : Ty) :
    t.targets = (t.ref?.map (·.1.target)).toList ++ t.children.flatMap targets := by
  rw [targets, references_eq, List.map_append, List.map_flatMap, Option.toList_map]
  rfl

theorem targets_mapTargets (f : RefTarget → RefTarget) (t : Ty) :
    (t.mapTargets f).targets = t.targets.map f := by
  rw [targets, references_mapTargets, targets, List.map_map, List.map_map]
  rfl

theorem length_targets_of_untargeted (h : t.untargeted = u.untargeted) :
    t.targets.length = u.targets.length := by
  rw [← mapTargets_broken, ← mapTargets_broken] at h
  have hlength := congrArg (fun v => v.targets.length) h
  simpa only [targets_mapTargets, List.length_map] using hlength

theorem kind_root (f : RefTarget → RefTarget) (h : Ty → Ty) (t : Ty) :
    ((t.mapChildren h).redirectRoot f).kind = t.kind := by
  cases t <;> rfl

theorem isSome_ref?_root (f : RefTarget → RefTarget) (h : Ty → Ty) (t : Ty) :
    ((t.mapChildren h).redirectRoot f).ref?.isSome = t.ref?.isSome := by
  cases t <;> rfl

theorem eq_of_toList {α : Type} {x y : Option α} (h : x.toList = y.toList) : x = y := by
  cases x <;> cases y <;> simp_all

theorem args_eq {h : Ty → Ty} {xs ys : Option (List Ty)}
    (hmap : xs.map (·.map h) = ys.map (·.map h)) (hget : xs.getD [] = ys.getD []) : xs = ys := by
  cases xs <;> cases ys <;> simp_all

theorem tail_eq {h : Ty → Ty} {xs ys : List (Ty × String)}
    (hmap : xs.map (fun entry => (h entry.1, entry.2)) = ys.map fun entry => (h entry.1, entry.2))
    (hfst : xs.map (·.1) = ys.map (·.1)) : xs = ys := by
  have hsnd : xs.map (·.2) = ys.map (·.2) := by
    have hsecond := congrArg (List.map Prod.snd) hmap
    rwa [List.map_map, List.map_map] at hsecond
  exact (List.zip_of_prod hfst hsnd).trans (List.zip_of_prod rfl rfl).symm

theorem head_eq {a b : Ref} (h : ({ a with target := .broken } : Ref) = { b with target := .broken })
    (htarget : a.target = b.target) : a = b := by
  cases a
  cases b
  simp_all

/-- What a type says at its root, apart from where its reference leads, what stands directly inside it and
where its reference leads make up the type. -/
theorem eq_of_root {h : Ty → Ty}
    (hroot : (t.mapChildren h).redirectRoot (fun _ => .broken) =
      (u.mapChildren h).redirectRoot fun _ => .broken)
    (hchildren : t.children = u.children)
    (htarget : t.ref?.map (·.1.target) = u.ref?.map (·.1.target)) : t = u := by
  have hkind : t.kind = u.kind := by rw [← kind_root (fun _ => .broken) h t, hroot, kind_root]
  cases t <;> cases u <;> cases hkind
  case inferred =>
    obtain ⟨rfl, -⟩ := Ty.inferred.inj hroot
    rw [eq_of_toList hchildren]
  case mapped =>
    obtain ⟨rfl, -, -, rfl, rfl, -⟩ := Ty.mapped.inj hroot
    obtain ⟨rfl, hrest⟩ := List.cons_eq_cons.mp hchildren
    obtain ⟨rfl, hname⟩ := List.cons_eq_cons.mp hrest
    rw [eq_of_toList hname]
  case predicate =>
    obtain ⟨rfl, rfl, -⟩ := Ty.predicate.inj hroot
    rw [eq_of_toList hchildren]
  case query =>
    obtain ⟨hhead, hargs⟩ := Ty.query.inj hroot
    rw [head_eq hhead (Option.some.inj htarget), args_eq hargs hchildren]
  case reference =>
    obtain ⟨hhead, hargs⟩ := Ty.reference.inj hroot
    rw [head_eq hhead (Option.some.inj htarget), args_eq hargs hchildren]
  case templateLiteral =>
    obtain ⟨rfl, htail⟩ := Ty.templateLiteral.inj hroot
    rw [tail_eq htail hchildren]
  all_goals simp_all [mapChildren, redirectRoot, children]

theorem eq_of_lists {ts us : List Ty}
    (h : ∀ a ∈ ts, ∀ b, a.untargeted = b.untargeted → a.targets = b.targets → a = b)
    (hmap : ts.map untargeted = us.map untargeted) (htargets : ts.flatMap targets = us.flatMap targets) :
    ts = us := by
  induction ts generalizing us with
  | nil => exact (List.map_eq_nil_iff.mp hmap.symm).symm
  | cons a rest ih =>
    obtain ⟨b, more, rfl, hb, hmore⟩ := List.map_eq_cons_iff.mp hmap.symm
    obtain ⟨ha, hrest⟩ := List.forall_mem_cons.mp h
    -- Where the targets of the first type end is known from the type without them.
    obtain ⟨hfirst, hothers⟩ := List.append_inj htargets (length_targets_of_untargeted hb.symm)
    rw [ha b hb.symm hfirst, ih hrest hmore.symm hothers]

/-- Types that have the same targets and differ in nothing else are the same. -/
theorem eq_of_untargeted (h : t.untargeted = u.untargeted) (htargets : t.targets = u.targets) : t = u := by
  induction t using induct generalizing u with
  | h t ih =>
    rw [untargeted_eq, untargeted_eq u] at h
    rw [targets_eq, targets_eq u] at htargets
    have hchildren := congrArg children h
    rw [children_redirectRoot, children_mapChildren, children_redirectRoot, children_mapChildren]
      at hchildren
    have hsome := congrArg (fun v => v.ref?.isSome) h
    simp only [isSome_ref?_root] at hsome
    have hlength : (t.ref?.map (·.1.target)).toList.length = (u.ref?.map (·.1.target)).toList.length := by
      rw [Option.length_toList, Option.length_toList, Option.isSome_map, Option.isSome_map, hsome]
    obtain ⟨htarget, hothers⟩ := List.append_inj htargets hlength
    exact eq_of_root h (eq_of_lists (fun a ha b => ih a ha) hchildren hothers) (eq_of_toList htarget)

/-! ### What is shown -/

theorem bareList_eq (ts : List Ty) : bareList ts = ts.map bare := by
  induction ts with
  | nil => rfl
  | cons a rest ih => rw [bareList, ih, List.map_cons]

theorem bareTail_eq (tail : List (Ty × String)) :
    bareTail tail = tail.map fun entry => (bare entry.1, entry.2) := by
  induction tail with
  | nil => rfl
  | cons entry rest ih => rw [bareTail, ih, List.map_cons]

theorem bareOption_eq (o : Option Ty) : bareOption o = o.map bare := by
  cases o <;> rfl

theorem bareArgs_eq (args : Option (List Ty)) : bareArgs args = args.map (·.map bare) := by
  cases args with
  | none => rfl
  | some ts => rw [bareArgs, bareList_eq, Option.map_some]

/-- What is shown of the root of a type. -/
def bareRoot : Ty → Ty
  | .reference head args => .reference (.broken head.name) args
  | .query head args => .query (.broken head.name) args
  | .union ts _ => .union ts none
  | t => t

theorem bare_eq (t : Ty) : t.bare = (t.mapChildren bare).bareRoot := by
  cases t <;> simp only [bare, bareList_eq, bareTail_eq, bareOption_eq, bareArgs_eq, mapChildren, bareRoot]

theorem bare_mapTargets (f : RefTarget → RefTarget) (t : Ty) : (t.mapTargets f).bare = t.bare := by
  have hroot (t : Ty) : (t.redirectRoot f).bareRoot = t.bareRoot := by cases t <;> rfl
  induction t using induct with
  | h t ih =>
    rw [mapTargets_eq, bare_eq, mapChildren_redirectRoot, hroot, mapChildren_mapChildren,
      mapChildren_congr ih, bare_eq t]

/-! ### The walk as a whole -/

/-- When each reference on the way is led elsewhere, the references in their order are the old ones led
elsewhere, type arguments included. Nothing else of the type changes, neither the declarations that it
owns nor its text, and it is the only type with the new targets that differs from the old one in no other
way. -/
theorem mapTargets_redirects (f : RefTarget → RefTarget) (t : Ty) :
    (t.mapTargets f).references = t.references.map (redirect f) ∧
    (t.mapTargets f).subterms = t.subterms.map (mapTargets f) ∧
    (t.mapTargets f).untargeted = t.untargeted ∧
    (∀ u : Ty, u.untargeted = t.untargeted → u.targets = t.targets.map f → u = t.mapTargets f) ∧
    (t.mapTargets f).declarations = t.declarations ∧
    (t.mapTargets f).display = t.display := by
  refine ⟨references_mapTargets f t, subterms_mapTargets f t, untargeted_mapTargets f t,
    fun u hu htargets => ?_, declarations_adjust rfl t, ?_⟩
  · exact eq_of_untargeted (hu.trans (untargeted_mapTargets f t).symm)
      (htargets.trans (targets_mapTargets f t).symm)
  · rw [← display_bare, bare_mapTargets, display_bare]

end DocTree.Ty
