import DocTree.Proofs.Reading.Passes

/-!
Reading serialized projects is total: whatever a value holds, it is read if it says that it is a
project, and refused as no project otherwise. The registry is never misused on the way: every reflection
finds a registered parent with a slot for it, every main type a place and its declarations registered
under it, and no work puts off more work.
-/

namespace DocTree

/-- The value is an object that says of itself that it is a project. -/
def Json.isProject : Json → Bool
  | .obj fields => Fields.text? fields "variant" = some "project"
  | _ => false

namespace Reader

/-- The fields of a project are given out, those of anything else are refused. -/
theorem projectFields_eq (value : Json) :
    (value.isProject = true ∧ ∃ fields, value = .obj fields ∧ projectFields value = .ok fields) ∨
      (value.isProject = false ∧ ∃ found, projectFields value = .error (.notAProject found)) := by
  cases value with
  | obj fields =>
    by_cases hvariant : Fields.text? fields "variant" = some "project"
    · exact .inl ⟨decide_eq_true hvariant, fields, rfl, if_pos hvariant⟩
    · exact .inr ⟨decide_eq_false hvariant, _, if_neg hvariant⟩
  | _ => exact .inr ⟨rfl, _, rfl⟩

/-- Several values are all projects, or one of them is refused. -/
theorem mapM_projectFields (values : List Json) :
    (values.all Json.isProject = true ∧ ∃ objects : List Fields, values = objects.map Json.obj ∧
        values.mapM projectFields = .ok objects) ∨
      (values.all Json.isProject = false ∧
        ∃ found, values.mapM projectFields = .error (.notAProject found)) := by
  induction values with
  | nil => exact .inl ⟨rfl, [], rfl, rfl⟩
  | cons value rest ih =>
    rw [List.all_cons, List.mapM_cons]
    rcases projectFields_eq value with ⟨hvalue, fields, rfl, hfields⟩ | ⟨hvalue, found, hfound⟩
    · rw [hfields]
      rcases ih with ⟨hrest, objects, rfl, hobjects⟩ | ⟨hrest, found, hfound⟩
      · refine .inl ⟨by rw [hvalue, hrest]; rfl, fields :: objects, rfl, ?_⟩
        rw [hobjects]
        rfl
      · refine .inr ⟨by rw [hrest, Bool.and_false], found, ?_⟩
        rw [hfound]
        rfl
    · refine .inr ⟨by rw [hvalue, Bool.false_and], found, ?_⟩
      rw [hfound]
      rfl

end Reader

/-! ### One project -/

/-- How a project was read: the first pass, the work that was put off, then symbols and owners. -/
structure Course (W : Prop) (name : String) (fields : Fields) (root : String) (r : Reflection)
    (y : Crop) (σ : Reading) (u v : Revival) : Prop where
  first : FirstPass W (.ofName name) ReflectionId.project fields root r y σ
  parent : r.parent = none
  name : r.name = name
  kind : r.kind = .project
  tag : r.tag = .project
  work : Reader.carryOutAll σ.queue σ.revival = .ok u
  issues : v.issues = u.issues ++
    (Reader.symbolEntries σ.revival fields).filterMap σ.revival.symbolIssue? ++
    (Reader.ownerEntries fields).filterMap σ.revival.ownerIssue?
  settled : Settled σ.revival σ.queue (Reader.symbolEntries σ.revival fields)
    (Reader.ownerEntries fields) v

/-- A project that holds nothing but its root can be read into. -/
theorem exists_firstPass_root (W : Prop) (fields : Fields) (name root : String)
    (hW : W → (Json.obj fields).Whole) :
    ∃ r y σ, FirstPass W (.ofName name) ReflectionId.project fields root r y σ ∧ r.parent = none ∧
      r.name = name ∧ r.kind = .project ∧ r.tag = .project :=
  exists_firstPass W fields root .project (p := .ofName name) (s := .project name) rfl rfl rfl rfl hW

/-- A project that was read into its root is read. -/
theorem reviveWithIds_of_reviveInto {fields : Fields} {name : Option String} {root : String}
    {v : Revival} (hvariant : (Json.obj fields).isProject = true)
    (h : Reader.reviveInto Deserializer.standard
      (.ofName ((name.or (Fields.text? fields "name")).getD "")) ReflectionId.project fields root = .ok v) :
    Deserializer.standard.reviveWithIds (.obj fields) name root =
      .ok (⟨v.project, v.issues, v.journal⟩, v.ids) := by
  have hfields : Reader.projectFields (.obj fields) = .ok fields := if_pos (of_decide_eq_true hvariant)
  rw [Deserializer.reviveWithIds, hfields]
  change (Reader.orFault (Reader.reviveInto _ (.ofName _) _ fields root) >>= _) = _
  rw [h]
  rfl

/-- A serialized project takes its course, whatever its object says. -/
theorem exists_course (W : Prop) (fields : Fields) (name : Option String) (root : String)
    (hvariant : (Json.obj fields).isProject = true) (hW : W → (Json.obj fields).Whole) :
    ∃ r y σ u v, Course W ((name.or (Fields.text? fields "name")).getD "") fields root r y σ u v ∧
      Deserializer.standard.reviveWithIds (.obj fields) name root =
        .ok (⟨v.project, v.issues, v.journal⟩, v.ids) := by
  obtain ⟨r, y, σ, hfirst, hparent, hname, hkind, htag⟩ := exists_firstPass_root W fields
    ((name.or (Fields.text? fields "name")).getD "") root hW
  obtain ⟨u, v, hinto, hwork, hissues, hsettled⟩ := hfirst.settles
  exact ⟨r, y, σ, u, v, ⟨hfirst, hparent, hname, hkind, htag, hwork, hissues, hsettled⟩,
    reviveWithIds_of_reviveInto hvariant hinto⟩

/-- What was read took its course. -/
theorem course_of_reviveWithIds {value : Json} {name : Option String} {root : String} {q : Revived}
    {ids : List (Nat × ReflectionId)}
    (h : Deserializer.standard.reviveWithIds value name root = .ok (q, ids)) :
    ∃ fields r y σ u v, value = .obj fields ∧ Course value.Whole
        ((name.or (Fields.text? fields "name")).getD "") fields root r y σ u v ∧
      q = ⟨v.project, v.issues, v.journal⟩ ∧ ids = v.ids := by
  rcases Reader.projectFields_eq value with ⟨hvalue, fields, rfl, -⟩ | ⟨-, found, hfound⟩
  · obtain ⟨r, y, σ, u, v, hcourse, hread⟩ := exists_course (Json.obj fields).Whole fields name root
      hvalue fun hwhole => hwhole
    obtain ⟨rfl, rfl⟩ := Prod.mk.inj (Except.ok.inj (h.symm.trans hread))
    exact ⟨fields, r, y, σ, u, v, rfl, hcourse, rfl, rfl⟩
  · rw [Deserializer.reviveWithIds, hfound] at h
    cases h

theorem reviveWithIds_of_revive {value : Json} {name : Option String} {root : String} {q : Revived}
    (h : Deserializer.standard.revive value name root = .ok q) :
    ∃ ids, Deserializer.standard.reviveWithIds value name root = .ok (q, ids) := by
  rw [Deserializer.revive] at h
  cases hread : Deserializer.standard.reviveWithIds value name root with
  | error reason =>
    rw [hread] at h
    cases h
  | ok result =>
    rw [hread] at h
    obtain rfl : result.1 = q := Except.ok.inj h
    exact ⟨result.2, rfl⟩

/-! ### One more project -/

/-- The root is in its place. -/
def Project.Rooted (p : Project) : Prop :=
  ∃ r d, p.get? ReflectionId.project = some r ∧ r.variant = .project d

/-- The bare module for one more serialized project. -/
def moduleOf (name : String) (n : ReflectionId) : Reflection :=
  { Reflection.declaration name .module with id := n, parent := some ReflectionId.project }

/-- Another child of the root. -/
def ProjectData.withChild (d : ProjectData) (child : ReflectionId) : ProjectData :=
  { d with container := { d.container with children := d.container.children ++ [child] } }

/-- A module is registered for one more serialized project. -/
theorem exists_add_module {p : Project} {r : Reflection} {d : ProjectData}
    (hr : p.get? ReflectionId.project = some r) (hd : r.variant = .project d) (name : String) :
    ∃ q, p.add ReflectionId.project .children (.declaration name .module) = .ok (q, p.arena.size) ∧
      q.arena.toList = p.arena.toList.set ReflectionId.project
        (some (r.holding (.project (d.withChild p.arena.size)))) ++
        [some (moduleOf name p.arena.size)] ∧
      q.symbolIndex = p.symbolIndex ∧ q.symbols = p.symbols ∧ q.files = p.files := by
  have hslot : r.variant.attach? p.arena.size .children =
      some (.project (d.withChild p.arena.size)) := by
    rw [hd]
    rfl
  exact Project.exists_add hr hslot rfl

/-- The project `q` is `p` with one more bare module, whose number is the next one. -/
structure ModuleAdded (p : Project) (name : String) (q : Project) : Prop where
  module : q.get? p.arena.size = some (moduleOf name p.arena.size)
  size : q.arena.size = p.arena.size + 1
  before : ∀ i, i ≠ ReflectionId.project → i < p.arena.size → q.get? i = p.get? i
  symbolIndex : q.symbolIndex = p.symbolIndex
  symbols : q.symbols = p.symbols
  files : q.files = p.files

theorem exists_moduleAdded {p : Project} {r : Reflection} {d : ProjectData}
    (hr : p.get? ReflectionId.project = some r) (hd : r.variant = .project d) (name : String) :
    ∃ q, p.add ReflectionId.project .children (.declaration name .module) = .ok (q, p.arena.size) ∧
      q.get? ReflectionId.project = some (r.holding (.project (d.withChild p.arena.size))) ∧
      ModuleAdded p name q := by
  obtain ⟨q, hadd, harena, hindex, hsymbols, hfiles⟩ := exists_add_module hr hd name
  have hlt : ReflectionId.project < p.arena.toList.length := Project.lt_size_of_get? hr
  have hlength : (p.arena.toList.set ReflectionId.project
      (some (r.holding (.project (d.withChild p.arena.size))))).length = p.arena.size :=
    List.length_set
  refine ⟨q, hadd, ?_, ?_, ?_, ?_, hindex, hsymbols, hfiles⟩
  · rw [Project.get?_eq_toList, harena, List.getElem?_append_left (by rwa [List.length_set]),
      List.getElem?_set_self hlt]
    rfl
  · rw [Project.get?_eq_toList, harena, List.getElem?_append_right (Nat.le_of_eq hlength), hlength,
      Nat.sub_self]
    rfl
  · rw [← Array.length_toList, harena, List.length_append, hlength, List.length_singleton]
  · intro i hne hi
    rw [Project.get?_eq_toList, harena, List.getElem?_append_left (by rw [hlength]; exact hi),
      List.getElem?_set_ne (Ne.symm hne), Project.get?_eq_toList]

/-- One more project can be read, whatever its object says. -/
theorem exists_addModule {merged : Revived} (h : merged.project.Rooted) (fields : Fields)
    (root : String) : ∃ next, Deserializer.standard.addModule root merged fields = .ok next ∧
      next.project.Rooted := by
  obtain ⟨r, d, hr, hd⟩ := h
  obtain ⟨q, hadd, hroot, hmodule⟩ := exists_moduleAdded hr hd (fields.text "name")
  obtain ⟨t, y, σ, hfirst, -⟩ := exists_firstPass False fields root .declaration hmodule.module rfl rfl
    rfl False.elim
  obtain ⟨u, v, hinto, -, -, hsettled⟩ := hfirst.settles
  have hbase : ReflectionId.project < merged.project.arena.size := Project.lt_size_of_get? hr
  have hbefore : v.project.get? ReflectionId.project = q.get? ReflectionId.project :=
    hfirst.settled_before hsettled (Project.lt_size_of_get? hroot) (Nat.ne_of_lt hbase)
  refine ⟨⟨v.project, merged.issues ++ v.issues, merged.journal ++ v.journal⟩, ?_, ?_⟩
  · rw [Deserializer.addModule, hadd]
    change (Reader.reviveInto _ q merged.project.arena.size fields root >>= _) = _
    rw [hinto]
    rfl
  · exact ⟨_, _, hbefore.trans hroot, rfl⟩

/-- Any number of projects can be read into one. -/
theorem exists_foldlM_addModule {merged : Revived} (h : merged.project.Rooted)
    (objects : List Fields) (root : String) :
    ∃ all, objects.foldlM (Deserializer.standard.addModule root) merged = .ok all := by
  induction objects generalizing merged with
  | nil => exact ⟨merged, rfl⟩
  | cons fields rest ih =>
    obtain ⟨next, hnext, hrooted⟩ := exists_addModule h fields root
    obtain ⟨all, hall⟩ := ih hrooted
    refine ⟨all, ?_⟩
    rw [List.foldlM_cons, hnext]
    exact hall

/-! ### What is refused -/

/-- Reading succeeds for exactly the values that say that they are projects, alone and together, and
what is refused is refused as no project; the failures that stand for misuse of the registry never
occur. -/
theorem standard_total (value : Json) (values : List Json) (name : Option String)
    (title root : String) :
    (if value.isProject then ∃ q, Deserializer.standard.revive value name root = .ok q
      else ∃ found, Deserializer.standard.revive value name root = .error (.notAProject found)) ∧
    (if values.all Json.isProject then
        ∃ q, Deserializer.standard.merge title values root = .ok q
      else ∃ found, Deserializer.standard.merge title values root = .error (.notAProject found)) := by
  constructor
  · rcases Reader.projectFields_eq value with ⟨hvalue, fields, rfl, -⟩ | ⟨hvalue, found, hfound⟩
    · rw [if_pos hvalue]
      obtain ⟨-, -, -, -, v, -, hread⟩ := exists_course False fields name root hvalue False.elim
      refine ⟨⟨v.project, v.issues, v.journal⟩, ?_⟩
      rw [Deserializer.revive, hread]
      rfl
    · rw [if_neg (by rw [hvalue]; exact Bool.false_ne_true)]
      refine ⟨found, ?_⟩
      rw [Deserializer.revive, Deserializer.reviveWithIds, hfound]
      rfl
  · rcases Reader.mapM_projectFields values with ⟨hall, objects, -, hobjects⟩ | ⟨hall, found, hfound⟩
    · rw [if_pos hall]
      have hrooted : (Revived.mk (.ofName title) [] []).project.Rooted := ⟨_, _, rfl, rfl⟩
      obtain ⟨q, hq⟩ := exists_foldlM_addModule hrooted objects root
      refine ⟨q, ?_⟩
      rw [Deserializer.merge, hobjects]
      change Reader.orFault (objects.foldlM _ _) = _
      rw [hq]
      rfl
    · rw [if_neg (by rw [hall]; exact Bool.false_ne_true)]
      refine ⟨found, ?_⟩
      rw [Deserializer.merge, hfound]
      rfl

end DocTree
