import DocTree.Proofs.Registry.Structural

/-!
Names on the way down and on the way up. A reflection is found from the root by the names of children,
slot by slot, and it is named by going up its parents. Where slots and parents agree, going up passes
what the way down came through, so the full name is the names by which a reflection was found, as many
of them as parents are followed. A reference to that name leads to it, if no other reflection has the
name.
-/

namespace DocTree.Project

/-- Slots and parents agree: whatever stands in a slot has the owner of the slot as its parent. Numbers
are keys, the root alone is a project, and it has no parent. -/
structure Filed (p : Project) : Prop where
  id : ∀ i r, p.get? i = some r → r.id = i
  root : ∀ i r, p.get? i = some r → (r.isProject = true ↔ i = ReflectionId.project)
  top : p.parent? ReflectionId.project = none
  slots : ∀ i r c role, p.get? i = some r → (c, role) ∈ r.structuralChildren → p.parent? c = some i

/-- A reflection that a name may stand for: one that is no reference and not the root. -/
def IsNamed (p : Project) (i : ReflectionId) : Prop :=
  ∃ r, p.get? i = some r ∧ r.isReference = false ∧ r.isProject = false

/-- No two reflections that a name may stand for have the same full name. -/
def NamesDiffer (p : Project) : Prop :=
  ∀ i j, p.IsNamed i → p.IsNamed j → p.fullName? i "." = p.fullName? j "." → i = j

variable {p : Project} {start id i : ReflectionId} {r : Reflection} {path : List String}

/-- Every run of a registry keeps slots and parents in step. -/
theorem Sound.filed (h : p.Sound) (hl : p.Linked) : p.Filed where
  id := h.numbered.id
  root i r hr := by
    constructor
    · intro hproject
      refine Classical.byContradiction fun hne => ?_
      rw [(h.numbered.below i r hr hne).1] at hproject
      cases hproject
    · rintro rfl
      obtain ⟨s, hs, hproject, -⟩ := h.numbered.root
      exact Option.some.inj (hs.symm.trans hr) ▸ hproject
  top := by
    obtain ⟨r, hr, -, hparent⟩ := h.numbered.root
    rw [parent?_of_get? hr, hparent]
  slots i r c role hr hc := (hl i r role c hr (Variant.mem_structuralChildren.mp hc)).1

/-! ### One name down -/

theorem mem_structuralChildren_of_container {c : ReflectionId} {k : Container}
    (hk : r.container? = some k) (hc : c ∈ k.children) : (c, Role.children) ∈ r.structuralChildren := by
  refine Variant.mem_structuralChildren.mpr ?_
  rw [Reflection.container?] at hk
  cases hv : r.variant <;> rw [hv] at hk <;> cases hk <;> exact hc

/-- The child that is taken first on the way down stands under the start, has the first name and is not
the root. -/
theorem Filed.child (hp : p.Filed) {name : String}
    (h : p.descend? start (name :: path) = some id) :
    ∃ c s, p.get? c = some s ∧ s.name = name ∧ s.parent = some start ∧ s.isProject = false ∧
      p.descend? c path = some id := by
  obtain ⟨r, hr, h⟩ := Option.bind_eq_some_iff.mp h
  obtain ⟨k, hk, h⟩ := Option.bind_eq_some_iff.mp h
  obtain ⟨c, hfind, h⟩ := Option.bind_eq_some_iff.mp h
  have hnamed : ∃ s, p.get? c = some s ∧ s.name = name := by
    simpa [Option.any_eq_true] using List.find?_some hfind
  obtain ⟨s, hs, hname⟩ := hnamed
  have hc := mem_structuralChildren_of_container hk (List.mem_of_find?_eq_some hfind)
  have hparent := hp.slots start r c .children hr hc
  refine ⟨c, s, hs, hname, parent?_of_get? hs ▸ hparent, ?_, h⟩
  refine Bool.eq_false_iff.mpr fun hproject => ?_
  rw [(hp.root c s hs).mp hproject, hp.top] at hparent
  cases hparent

/-! ### The whole way -/

/-- Going up from a reflection, one passes those by whose names it was found, the last first, and comes
to where the way down began. -/
theorem Filed.upward_descend? (hp : p.Filed) (h : p.descend? start path = some id) :
    ∃ passed : List Reflection, passed.map (·.name) = path.reverse ∧
      (∀ a ∈ passed, a.isProject = false) ∧
      ∀ steps, p.upward steps (some id) =
        passed.take steps ++ p.upward (steps - path.length) (some start) := by
  induction path generalizing start with
  | nil =>
    obtain rfl := Option.some.inj h
    exact ⟨[], rfl, List.forall_mem_nil _, fun steps => by simp⟩
  | cons name path ih =>
    obtain ⟨c, s, hs, hname, hparent, hproject, hrest⟩ := hp.child h
    obtain ⟨passed, hnames, hplain, hupward⟩ := ih hrest
    have hlength : passed.length = path.length := by
      rw [← List.length_map, hnames, List.length_reverse]
    refine ⟨passed ++ [s], by simp [hnames, hname], fun a ha => ?_, fun steps => ?_⟩
    · rcases List.mem_append.mp ha with ha | ha
      · exact hplain a ha
      · exact List.mem_singleton.mp ha ▸ hproject
    · -- The steps that are left at the child take it and go on to the start.
      have hchild (left : Nat) : p.upward left (some c) =
          [s].take left ++ p.upward (left - 1) (some start) := by
        cases left with
        | zero => rfl
        | succ left =>
          simp only [upward, Option.bind_some, hs, hparent, List.take_succ_cons, List.take_nil,
            List.singleton_append, Nat.add_sub_cancel]
      rw [hupward, hchild, List.take_append, hlength, List.append_assoc, List.length_cons,
        Nat.sub_sub]

/-- What is found by at least one name is registered and not the root. -/
theorem Filed.exists_found (hp : p.Filed) (hne : path ≠ []) (h : p.descend? start path = some id) :
    ∃ r, p.get? id = some r ∧ r.isProject = false := by
  induction path generalizing start with
  | nil => exact absurd rfl hne
  | cons name path ih =>
    obtain ⟨c, s, hs, -, -, hproject, hrest⟩ := hp.child h
    cases path with
    | nil => exact ⟨s, Option.some.inj hrest ▸ hs, hproject⟩
    | cons next path => exact ih (List.cons_ne_nil next path) hrest

/-- No kind is left out when none is named. -/
theorem isIn_none (k : Kind) : k.isIn .none = false := by
  simp [Kind.isIn, Kind.none]

/-- The reflections that are asked for their names are those of the way down, the root left out, and of
these the last where there are more than parents are followed. -/
theorem Filed.chain_descend? (hp : p.Filed) (hr : p.get? id = some r)
    (h : p.descend? ReflectionId.project path = some id) :
    (p.chain r).map (·.name) = path.drop (path.length - (maxParents + 1)) := by
  obtain ⟨passed, hnames, hplain, hupward⟩ := hp.upward_descend? h
  have hself : r :: p.ancestors r.id = p.upward (maxParents + 1) (some id) := by
    simp only [ancestors, hp.id id r hr, parent?_of_get? hr, upward, Option.bind_some, hr]
  -- Behind those that are passed stands the root, if anything.
  have hroot (steps : Nat) :
      (p.upward steps (some ReflectionId.project)).takeWhile (fun a => !a.isProject) = [] := by
    cases steps with
    | zero => rfl
    | succ steps =>
      cases hr : p.get? ReflectionId.project with
      | none => simp only [upward, Option.bind_some, hr, List.takeWhile_nil]
      | some top =>
        have htop : top.isProject = true := (hp.root _ top hr).mpr rfl
        simp [upward, hr, htop]
  rw [chain, hself, hupward, List.takeWhile_append_of_pos, hroot, List.append_nil, List.map_reverse,
    List.map_take, hnames, List.reverse_take, List.reverse_reverse, List.length_reverse]
  intro a ha
  rw [hplain a (List.mem_of_mem_take ha)]
  rfl

/-- A reflection that was found from the root is named by the names on the way. -/
theorem Filed.namePath?_descend? (hp : p.Filed) (hne : path ≠ [])
    (h : p.descend? ReflectionId.project path = some id) :
    p.namePath? id .none = some (path.drop (path.length - (maxParents + 1))) := by
  obtain ⟨r, hr, hproject⟩ := hp.exists_found hne h
  have hall : (p.chain r).filter (fun a => !a.kind.isIn .none) = p.chain r :=
    List.filter_eq_self.mpr fun a _ => by rw [isIn_none]; rfl
  rw [namePath?, hr, Option.map_some, if_neg (by rw [hproject]; exact Bool.false_ne_true), hall,
    hp.chain_descend? hr h]
  cases hdrop : path.drop (path.length - (maxParents + 1)) with
  | nil =>
    have hlength := List.drop_eq_nil_iff.mp hdrop
    have := List.length_pos_iff.mpr hne
    omega
  | cons name more => rfl

theorem Filed.fullName?_descend? (hp : p.Filed) (hne : path ≠ [])
    (hlength : path.length ≤ maxParents + 1)
    (h : p.descend? ReflectionId.project path = some id) (separator : String) :
    p.fullName? id separator = some (separator.intercalate path) := by
  rw [fullName?, hp.namePath?_descend? hne h, Nat.sub_eq_zero_of_le hlength, List.drop_zero,
    Option.map_some]

/-! ### References by name -/

/-- A full name that only one reflection has is looked up to it. -/
theorem Filed.findNamed?_eq (hp : p.Filed) (hdiffer : p.NamesDiffer) {name : String}
    {asking : ReflectionId} (hid : p.IsNamed id) (hne : id ≠ asking)
    (hname : p.fullName? id "." = some name) : p.findNamed? name asking = some id := by
  obtain ⟨r, hr, href, hproject⟩ := hid
  rw [findNamed?]
  cases hfind : p.reflections.find? fun r =>
      r.id ≠ asking && !r.isReference && !r.isProject && p.fullName? r.id "." = some name with
  | none =>
    have hnot := List.find?_eq_none.mp hfind r (mem_reflections.mpr ⟨id, hr⟩)
    simp [hp.id id r hr, hne, href, hproject, hname] at hnot
  | some s =>
    obtain ⟨i, hs⟩ := mem_reflections.mp (List.mem_of_find?_eq_some hfind)
    have hsays := List.find?_some hfind
    simp only [hp.id i s hs, Bool.and_eq_true, Bool.not_eq_true', decide_eq_true_eq] at hsays
    obtain ⟨⟨⟨-, hsref⟩, hsproject⟩, hsname⟩ := hsays
    rw [Option.map_some, hp.id i s hs]
    exact congrArg some
      (hdiffer i id ⟨s, hs, hsref, hsproject⟩ ⟨r, hr, href, hproject⟩ (hsname.trans hname.symm))

/-- A reference by name that was not looked up leads to what has the name. -/
theorem targetOf?_toName {name : String} {asking : ReflectionId} (hr : p.get? asking = some r)
    (ht : r.target? = some (.toName name)) :
    p.targetOf? asking = (p.findNamed? name asking).filter p.contains := by
  rw [targetOf?, settled?, hr, Option.bind_some, ht]
  rfl

/-- What is found from the root by names, no more of them than reflections are asked for their names, has
these as its full name; and if it is no reference and no other reflection has that name, a reference by the
name that was not looked up leads to it. -/
theorem descend?_named (hp : p.Filed) (hne : path ≠ []) (hlength : path.length ≤ maxParents + 1)
    (h : p.descend? ReflectionId.project path = some id) :
    (∀ separator, p.fullName? id separator = some (separator.intercalate path)) ∧
      (p.NamesDiffer → (∀ r, p.get? id = some r → r.isReference = false) →
        ∀ asking r, p.get? asking = some r → r.target? = some (.toName (".".intercalate path)) →
          (p.referenceTarget asking).2 = some id) := by
  refine ⟨hp.fullName?_descend? hne hlength h, fun hdiffer href asking r hr ht => ?_⟩
  obtain ⟨s, hs, hproject⟩ := hp.exists_found hne h
  have hasking : id ≠ asking := by
    rintro rfl
    have hyes := Reflection.isReference_iff.mpr ⟨_, ht⟩
    rw [href r hr] at hyes
    cases hyes
  have hfind := hp.findNamed?_eq hdiffer ⟨s, hs, href s hs, hproject⟩ hasking
    (hp.fullName?_descend? hne hlength h ".")
  rw [referenceTarget, targetOf?_toName hr ht, hfind]
  exact Option.filter_some_pos (contains_of_get? hs)

/-- A class in a module whose name has a point in it, and a reference to the class by its full name. -/
theorem descend?_named_dotted :
    let p := (((ofName "p").after (.add 0 .children (.declaration "a.b" .module))).after
      (.add 1 .children (.declaration "C" .class_))).after
      (.add 0 .children (.reference "C" (.toName "a.b.C")))
    p.Filed ∧ p.NamesDiffer ∧ p.descend? ReflectionId.project ["a.b", "C"] = some 2 ∧
      p.fullName? 2 "/" = some "a.b/C" ∧ (p.referenceTarget 3).2 = some 2 := by
  intro p
  have hrun : Run Proper (ofName "p") [1, 2, 3] p :=
    (((Run.refl (ofName "p")).after
      (c := .add 0 .children (.declaration "a.b" .module)) rfl rfl).after
      (c := .add 1 .children (.declaration "C" .class_)) rfl rfl).after
      (c := .add 0 .children (.reference "C" (.toName "a.b.C"))) rfl rfl
  have hp : p.Filed := by
    have hsound : (ofName "p").Sound := sound_ofName "p"
    exact (hsound.run (fun _ _ => Proper.keepsOutline) hrun).filed
      ((linked_ofName "p").run hsound hrun)
  have hdiffer : p.NamesDiffer := by
    have hnamed : ∀ i, p.IsNamed i → i = 1 ∨ i = 2 := by
      rintro i ⟨r, hr, href, hproject⟩
      match i with
      | 0 => cases hr; cases hproject
      | 1 => exact .inl rfl
      | 2 => exact .inr rfl
      | 3 => cases hr; cases href
      | i + 4 => cases hr
    intro i j hi hj hname
    rcases hnamed i hi with rfl | rfl <;> rcases hnamed j hj with rfl | rfl
    · rfl
    · exact absurd hname (by decide +kernel)
    · exact absurd hname (by decide +kernel)
    · rfl
  have hfound : p.descend? ReflectionId.project ["a.b", "C"] = some 2 := by decide +kernel
  obtain ⟨hname, htarget⟩ := descend?_named hp (List.cons_ne_nil _ _) (by decide) hfound
  obtain ⟨r, hr, hto⟩ : ∃ r, p.get? 3 = some r ∧ r.target? = some (.toName "a.b.C") := ⟨_, rfl, rfl⟩
  exact ⟨hp, hdiffer, hfound, hname "/", htarget hdiffer (fun s hs => by cases hs; rfl) 3 r hr hto⟩

end DocTree.Project
