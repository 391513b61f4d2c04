import DocTree.Proofs.Reading.Merge
import DocTree.Proofs.Registry.Page

/-!
Projects that are read into one stay apart, whatever their objects say. Numbers of serialized projects
may collide, repeat or be missing; what an object names is looked up among the numbers of that object
alone, so nothing that was created for it leads outside of its module. What is read later is registered
behind all that was there, and leaves it as it is.
-/

namespace DocTree

/-! ### A project that says more -/

/-- The later project holds all that the earlier one held, where it stood. At the root it may say more. -/
structure Project.Extends (p q : Project) : Prop where
  keeps : ∀ i t, i ≠ ReflectionId.project → p.get? i = some t → q.get? i = some t
  parents : ∀ i a, p.parent? i = some a → q.parent? i = some a

namespace Project.Extends

variable {p q w : Project}

protected theorem rfl : p.Extends p := ⟨fun _ _ _ h => h, fun _ _ h => h⟩

theorem trans (h : p.Extends q) (h' : q.Extends w) : p.Extends w where
  keeps := fun i t hi ht => h'.keeps i t hi (h.keeps i t hi ht)
  parents := fun i a ha => h'.parents i a (h.parents i a ha)

theorem under (h : p.Extends q) {top i : ReflectionId} (hi : p.Under top i) : q.Under top i := by
  induction hi with
  | self => exact .self
  | child hparent _ ih => exact .child (h.parents _ _ hparent) ih

end Project.Extends

theorem RefTarget.Within.mono {P Q : ReflectionId → Prop} (hPQ : ∀ i, P i → Q i) {target : RefTarget}
    (h : target.Within P) : target.Within Q := by
  cases target with
  | reflection id => exact hPQ id h
  | _ => exact h

theorem LinkTarget.Within.mono {P Q : ReflectionId → Prop} (hPQ : ∀ i, P i → Q i)
    {target : LinkTarget} (h : target.Within P) : target.Within Q := by
  cases target with
  | reflection id => exact hPQ id h
  | _ => exact h

theorem Reflection.Within.mono {P Q : ReflectionId → Prop} (hPQ : ∀ i, P i → Q i) {r : Reflection}
    (h : r.Within P) : r.Within Q where
  refs := fun target htarget => (h.refs target htarget).mono hPQ
  links := fun part hpart target htarget => (h.links part hpart target htarget).mono hPQ
  members := fun c hc => hPQ c (h.members c hc)
  target := fun target c htarget hc => hPQ c (h.target target c htarget hc)

/-! ### What was read into a reflection -/

/-- No work changes what kind of thing a reflection is. -/
theorem kind_worked (v : Revival) (queue : List Deferred) (i : ReflectionId) (r : Reflection) :
    (worked v queue i r).kind = r.kind := by
  rw [worked]
  generalize queue.filter (·.isAbout i) = works
  induction works generalizing r with
  | nil => rfl
  | cons d rest ih =>
    refine (ih (d.effect v r)).trans ?_
    obtain ⟨number, name, kind, flags, comment, parent, own, data, anchor, counts, variant⟩ := r
    cases d with
    | pendingTargets id | groupings id groups categories | target id old => cases variant <;> rfl
    | projectMaps | extension => rfl

namespace FirstPass

variable {W : Prop} {p : Project} {n : Nat} {fields : Fields} {root : String} {r : Reflection}
  {y : Crop} {σ : Reading} {v : Revival} {symbols : List (Nat × Symbol)} {owners : List (Nat × Nat)}

/-- What was registered stands below the reflection that was read into. -/
theorem under_of_mem (h : FirstPass W p n fields root r y σ)
    (hv : Settled σ.revival σ.queue symbols owners v) {t : Reflection} (ht : t ∈ y.block) :
    v.project.Under n t.id := by
  have hplace : ∀ u ∈ y.block, v.project.parent? u.id = u.parent := by
    intro u hu
    rw [Project.parent?, hv.get?, h.get?_mem hu]
    exact (samePlace_worked σ.revival σ.queue u.id u).parent
  -- A parent has a lower number, so the induction is on the number.
  generalize hk : t.id = k
  induction k using Nat.strongRecOn generalizing t with
  | ind k ih =>
    subst hk
    rcases h.sound.grove.parent t ht with hparent | ⟨u, hu, hparent, hlt⟩
    · exact .child ((hplace t ht).trans hparent) .self
    · exact .child ((hplace t ht).trans hparent) (ih u.id hlt hu rfl)

/-- An old number leads to what was read into, or below it. -/
theorem under_of_id? (h : FirstPass W p n fields root r y σ)
    (hv : Settled σ.revival σ.queue symbols owners v) {old : Nat} {new : ReflectionId}
    (hnew : σ.revival.id? old = some new) : v.project.Under n new := by
  rcases h.inside_of_id? hnew with rfl | ⟨t, ht, rfl⟩
  · exact .self
  · exact h.under_of_mem hv ht

/-- A reflection that was not there before, or was read into, leads to nothing else. -/
theorem within (h : FirstPass W p n fields root r y σ)
    (hv : Settled σ.revival σ.queue symbols owners v) {i : Nat} {t : Reflection}
    (ht : v.project.get? i = some t) (hi : i = n ∨ p.arena.size ≤ i) :
    v.project.Under n i ∧ t.Within (v.project.Under n) := by
  have hold : ∀ d ∈ σ.queue, ∀ a ∈ d.aims, a.isOld = true := by
    intro d hd
    exact h.sound.old d (h.queue ▸ hd)
  rw [hv.get?] at ht
  obtain ⟨s, hs, rfl⟩ := Option.map_eq_some_iff.mp ht
  rcases h.cases hs with ⟨rfl, rfl⟩ | ⟨hlt, hne, -⟩ | ⟨hmem, rfl, -⟩
  · have hraw : s.Raw σ.queue := h.queue ▸ h.raw
    refine ⟨.self, ?_⟩
    rw [← h.number]
    exact hraw.within hold fun old new hnew => h.number ▸ h.under_of_id? hv hnew
  · omega
  · have hraw : s.Raw σ.queue := h.queue ▸ h.sound.raw s hmem
    exact ⟨h.under_of_mem hv hmem, hraw.within hold fun old new hnew => h.under_of_id? hv hnew⟩

/-- Symbols that were entered belong to what was read into, or stands below it. -/
theorem under_of_symbols (h : FirstPass W p n fields root r y σ)
    (hv : Settled σ.revival σ.queue symbols owners v) {entry : ReflectionId × Symbol}
    (hentry : entry ∈ v.project.symbols) : entry ∈ p.symbols ∨ v.project.Under n entry.1 := by
  rcases hv.exists_of_symbols hentry with hmem | ⟨old, hnew⟩
  · exact .inl (h.symbols ▸ hmem)
  · exact .inr (h.under_of_id? hv hnew)

theorem under_of_indexed (h : FirstPass W p n fields root r y σ)
    (hv : Settled σ.revival σ.queue symbols owners v) {s : Symbol} {i : ReflectionId}
    (hi : i ∈ v.project.indexed s) : i ∈ p.indexed s ∨ v.project.Under n i := by
  rcases hv.exists_of_indexed hi with hmem | ⟨old, hnew⟩
  · rw [Project.indexed, h.symbolIndex] at hmem
    exact .inl hmem
  · exact .inr (h.under_of_id? hv hnew)

theorem under_of_owners (h : FirstPass W p n fields root r y σ)
    (hv : Settled σ.revival σ.queue symbols owners v) {entry : FileId × ReflectionId}
    (hentry : entry ∈ v.project.files.owners) :
    entry ∈ p.files.owners ∨ v.project.Under n entry.2 := by
  rcases hv.exists_of_owners hentry with hmem | ⟨old, hnew⟩
  · exact .inl (h.owners ▸ hmem)
  · exact .inr (h.under_of_id? hv hnew)

end FirstPass

/-! ### One more project -/

/-- The reflection came between the two projects. -/
def Project.Created (p q : Project) (i : ReflectionId) : Prop :=
  q.contains i = true ∧ p.contains i = false

/-- What came between `p` and `q` makes up the module `m` of the project `whole`: it is behind all that
was there before, and in `whole` still leads to nothing but `m` and its descendants, as do the symbols
and the owners of files that came with it. -/
structure Isolated (p q whole : Project) (m : ReflectionId) : Prop where
  module : ∃ t, whole.get? m = some t ∧ t.parent = some ReflectionId.project ∧ t.kind = .module
  fresh : p.Created q m
  later : ∀ i j, p.Created q i → p.contains j = true → j < i
  lasting : ∀ i, p.Created q i → whole.get? i = q.get? i
  under : ∀ i, p.Created q i → whole.Under m i
  within : ∀ i t, p.Created q i → whole.get? i = some t → t.Within (whole.Under m)
  symbols : ∀ entry ∈ q.symbols, entry ∈ p.symbols ∨ whole.Under m entry.1
  indexed : ∀ s, ∀ i ∈ q.indexed s, i ∈ p.indexed s ∨ whole.Under m i
  owners : ∀ entry ∈ q.files.owners, entry ∈ p.files.owners ∨ whole.Under m entry.2

namespace Isolated

variable {p q w whole : Project} {m : ReflectionId}

/-- A module stays apart when the project is extended. -/
theorem extend (h : Isolated p q w m) (hroot : p.contains ReflectionId.project = true)
    (hextends : w.Extends whole) : Isolated p q whole m := by
  have hinner : ∀ i, p.Created q i → i ≠ ReflectionId.project := by
    rintro i ⟨-, hnew⟩ rfl
    rw [hroot] at hnew
    cases hnew
  have hlasting : ∀ i, p.Created q i → whole.get? i = q.get? i := by
    intro i hi
    obtain ⟨t, ht⟩ := Option.isSome_iff_exists.mp hi.1
    rw [ht]
    exact hextends.keeps i t (hinner i hi) ((h.lasting i hi).trans ht)
  obtain ⟨t, ht, hplace⟩ := h.module
  refine ⟨⟨t, hextends.keeps m t (hinner m h.fresh) ht, hplace⟩, h.fresh, h.later, hlasting, ?_, ?_,
    ?_, ?_, ?_⟩
  · exact fun i hi => hextends.under (h.under i hi)
  · intro i t hi ht
    rw [hlasting i hi, ← h.lasting i hi] at ht
    exact (h.within i t hi ht).mono fun j => hextends.under
  · exact fun entry hentry => (h.symbols entry hentry).imp_right hextends.under
  · exact fun s i hi => (h.indexed s i hi).imp_right hextends.under
  · exact fun entry hentry => (h.owners entry hentry).imp_right hextends.under

end Isolated

namespace ModuleAdded

variable {W : Prop} {p q : Project} {name root : String} {fields : Fields} {r : Reflection} {y : Crop}
  {σ : Reading} {v : Revival} {symbols : List (Nat × Symbol)} {owners : List (Nat × Nat)}
  (h : ModuleAdded p name q) (hfirst : FirstPass W q p.arena.size fields root r y σ)
  (hv : Settled σ.revival σ.queue symbols owners v)

include h hfirst hv

/-- Reading into the module leaves what was there before it. -/
theorem get?_before {i : ReflectionId} (hi : i < p.arena.size) : v.project.get? i = q.get? i :=
  hfirst.settled_before hv (h.size ▸ Nat.lt_succ_of_lt hi) (Nat.ne_of_lt hi)

theorem get?_kept {i : ReflectionId} {t : Reflection} (hi : i ≠ ReflectionId.project)
    (ht : p.get? i = some t) : v.project.get? i = some t := by
  have hlt : i < p.arena.size := Project.lt_size_of_get? ht
  rw [h.get?_before hfirst hv hlt, h.before i hi hlt, ht]

/-- What came in is the module itself, or behind it. -/
theorem created_cases (hroot : p.contains ReflectionId.project = true) {i : ReflectionId}
    (hi : p.Created v.project i) : i = p.arena.size ∨ q.arena.size ≤ i := by
  obtain ⟨hin, hnew⟩ := hi
  by_contra hcon
  obtain ⟨hne, hlow⟩ := not_or.mp hcon
  rw [h.size] at hlow
  have hlt : i < p.arena.size := Nat.lt_of_le_of_ne (Nat.le_of_lt_succ (Nat.lt_of_not_le hlow)) hne
  rw [Project.contains, h.get?_before hfirst hv hlt] at hin
  by_cases hzero : i = ReflectionId.project
  · rw [hzero, hroot] at hnew
    cases hnew
  · rw [h.before i hzero hlt] at hin
    exact Bool.false_ne_true (hnew.symm.trans hin)

/-- What was read into the module is apart from all that was there before. -/
theorem isolated (hroot : p.contains ReflectionId.project = true)
    (hparent : r.parent = some ReflectionId.project) (hkind : r.kind = .module) :
    Isolated p v.project v.project p.arena.size := by
  have hmodule : v.project.get? p.arena.size = some (worked σ.revival σ.queue p.arena.size r) := by
    rw [hv.get?, hfirst.get?_self]
    rfl
  have hunused : p.contains p.arena.size = false := by
    rw [← Bool.not_eq_true]
    exact fun hin => Nat.lt_irrefl _ (Project.lt_size_of_contains hin)
  have hcreated : ∀ i, p.Created v.project i → i = p.arena.size ∨ q.arena.size ≤ i :=
    fun i => h.created_cases hfirst hv hroot
  refine ⟨⟨_, hmodule, ?_, ?_⟩, ⟨Project.contains_of_get? hmodule, hunused⟩, ?_, fun _ _ => rfl, ?_,
    ?_, ?_, ?_, ?_⟩
  · exact (samePlace_worked ..).parent.trans hparent
  · exact (kind_worked ..).trans hkind
  · intro i j hi hj
    have hj : j < p.arena.size := Project.lt_size_of_contains hj
    rcases hcreated i hi with rfl | hi
    · exact hj
    · rw [h.size] at hi
      exact Nat.lt_trans hj hi
  · intro i hi
    obtain ⟨s, hs⟩ := Option.isSome_iff_exists.mp hi.1
    exact (hfirst.within hv hs (hcreated i hi)).1
  · intro i s hi hs
    exact (hfirst.within hv hs (hcreated i hi)).2
  · intro entry hentry
    exact h.symbols ▸ hfirst.under_of_symbols hv hentry
  · intro s i hi
    have hindexed : q.indexed s = p.indexed s := by
      rw [Project.indexed, h.symbolIndex]
      rfl
    exact hindexed ▸ hfirst.under_of_indexed hv hi
  · intro entry hentry
    exact h.files ▸ hfirst.under_of_owners hv hentry

end ModuleAdded

variable {title root : String} {modules : List ReflectionId} {merged : Revived}

/-- One more project is read as a module of its own, whatever its object says. -/
theorem exists_addModule_isolated
    (hroot : merged.project.get? ReflectionId.project = some (mergedRoot title modules))
    (fields : Fields) (root : String) :
    ∃ next, Deserializer.standard.addModule root merged fields = .ok next ∧
      next.project.get? ReflectionId.project =
        some (mergedRoot title (modules ++ [merged.project.arena.size])) ∧
      merged.project.Extends next.project ∧
      Isolated merged.project next.project next.project merged.project.arena.size := by
  obtain ⟨q, hadd, hplace, hadded⟩ := exists_moduleAdded hroot rfl (fields.text "name")
  obtain ⟨t, y, σ, hfirst, hparent, -, hkind, -⟩ := exists_firstPass False fields root .declaration
    hadded.module rfl rfl rfl False.elim
  obtain ⟨u, v, hinto, -, -, hv⟩ := hfirst.settles
  have hpositive : ReflectionId.project < merged.project.arena.size := Project.lt_size_of_get? hroot
  refine ⟨⟨v.project, merged.issues ++ v.issues, merged.journal ++ v.journal⟩, ?_,
    (hadded.get?_before hfirst hv hpositive).trans hplace, ⟨fun i s => hadded.get?_kept hfirst hv, ?_⟩,
    hadded.isolated hfirst hv (Project.contains_of_get? hroot) hparent hkind⟩
  · rw [Deserializer.addModule, hadd]
    change (Reader.reviveInto _ q merged.project.arena.size fields root >>= _) = _
    rw [hinto]
    rfl
  · intro i a ha
    obtain ⟨s, hs, hsa⟩ := Option.bind_eq_some_iff.mp ha
    by_cases hzero : i = ReflectionId.project
    · subst hzero
      obtain rfl := Option.some.inj (hroot.symm.trans hs)
      cases hsa
    · rw [Project.parent?, hadded.get?_kept hfirst hv hzero hs]
      exact hsa

/-! ### Any number of projects -/

/-- Project after project is read, and what was there before stays. -/
theorem exists_foldlM_extends
    (hroot : merged.project.get? ReflectionId.project = some (mergedRoot title modules))
    (objects : List Fields) (root : String) :
    ∃ all news, objects.foldlM (Deserializer.standard.addModule root) merged = .ok all ∧
      all.project.get? ReflectionId.project = some (mergedRoot title (modules ++ news)) ∧
      news.length = objects.length ∧ merged.project.Extends all.project := by
  induction objects generalizing merged modules with
  | nil => exact ⟨merged, [], rfl, (List.append_nil modules).symm ▸ hroot, rfl, .rfl⟩
  | cons fields rest ih =>
    obtain ⟨next, hnext, hplace, hextends, -⟩ := exists_addModule_isolated hroot fields root
    obtain ⟨all, news, hall, hwhole, hlength, hlater⟩ := ih hplace
    refine ⟨all, merged.project.arena.size :: news, ?_, ?_, congrArg (· + 1) hlength,
      hextends.trans hlater⟩
    · rw [List.foldlM_cons, hnext]
      exact hall
    · rw [hwhole, List.append_assoc, List.singleton_append]

/-- The projects of two lists are read one list after the other. -/
theorem foldlM_addModule_append {earlier later : List Fields} {middle all : Revived}
    (h : earlier.foldlM (Deserializer.standard.addModule root) merged = .ok middle)
    (h' : later.foldlM (Deserializer.standard.addModule root) middle = .ok all) :
    (earlier ++ later).foldlM (Deserializer.standard.addModule root) merged = .ok all := by
  rw [List.foldlM_append, h]
  exact h'

/-- Serialized projects are read one after the other. -/
theorem merge_eq {objects : List Fields} {all : Revived}
    (hobjects : (objects.map Json.obj).all Json.isProject = true)
    (hall : objects.foldlM (Deserializer.standard.addModule root) ⟨.ofName title, [], []⟩ = .ok all) :
    Deserializer.standard.merge title (objects.map Json.obj) root = .ok all := by
  rcases Reader.mapM_projectFields (objects.map Json.obj) with ⟨-, others, heq, hfields⟩ | ⟨hnot, -⟩
  · obtain rfl := List.map_inj_right (fun _ _ => Json.obj.inj) |>.mp heq
    rw [Deserializer.merge, hfields]
    change Reader.orFault (objects.foldlM _ _) = _
    rw [hall]
    rfl
  · rw [hobjects] at hnot
    cases hnot

/-- Projects that are read into one stay apart, whatever their objects say. What is created for one of
them makes up one module of the merged project: it is behind all that was created for those before it,
and nothing of it leads outside of the module. -/
theorem exists_isolated {before after : List Json} {value : Json} (title root : String)
    (h : (before ++ value :: after).all Json.isProject = true) :
    ∃ p q whole modules m, Deserializer.standard.merge title before root = .ok p ∧
      Deserializer.standard.merge title (before ++ [value]) root = .ok q ∧
      Deserializer.standard.merge title (before ++ value :: after) root = .ok whole ∧
      whole.project.get? ReflectionId.project = some (mergedRoot title modules) ∧
      modules.length = (before ++ value :: after).length ∧ modules[before.length]? = some m ∧
      Isolated p.project q.project whole.project m := by
  rcases Reader.mapM_projectFields (before ++ value :: after) with ⟨-, objects, heq, -⟩ | ⟨hnot, -⟩
  swap
  · rw [h] at hnot
    cases hnot
  obtain ⟨earlier, others, rfl, rfl, hothers⟩ := List.append_eq_map_iff.mp heq
  obtain ⟨fields, later, rfl, rfl, rfl⟩ := List.map_eq_cons_iff.mp hothers
  have hempty : (Revived.mk (.ofName title) [] []).project.get? ReflectionId.project =
      some (mergedRoot title []) := rfl
  -- Those before, the one itself, those behind it.
  obtain ⟨p, modules, hp, hroot, hlength, -⟩ := exists_foldlM_extends hempty earlier root
  obtain ⟨q, hq, hnext, -, hisolated⟩ := exists_addModule_isolated hroot fields root
  obtain ⟨whole, news, hwhole, hend, hlater, hextends⟩ := exists_foldlM_extends hnext later root
  have hone : [fields].foldlM (Deserializer.standard.addModule root) p = .ok q := by
    rw [List.foldlM_cons, hq]
    rfl
  have hrest : (fields :: later).foldlM (Deserializer.standard.addModule root) p = .ok whole := by
    rw [List.foldlM_cons, hq]
    exact hwhole
  have hwellformed : ∀ objects : List Fields, (∀ fs ∈ objects, fs ∈ earlier ++ fields :: later) →
      (objects.map Json.obj).all Json.isProject = true := by
    intro objects hsub
    rw [List.all_map]
    rw [← List.map_cons, ← List.map_append, List.all_map] at h
    exact List.all_eq_true.mpr fun fs hfs => List.all_eq_true.mp h fs (hsub fs hfs)
  refine ⟨p, q, whole, _, p.project.arena.size, merge_eq (hwellformed _ ?_) hp, ?_, ?_, hend, ?_, ?_,
    hisolated.extend (Project.contains_of_get? hroot) hextends⟩
  · exact fun fs hfs => List.mem_append_left _ hfs
  · rw [← List.map_singleton, ← List.map_append]
    refine merge_eq (hwellformed _ ?_) (foldlM_addModule_append hp hone)
    intro fs hfs
    refine List.mem_append.mpr ((List.mem_append.mp hfs).imp_right fun hmem => ?_)
    exact List.mem_singleton.mp hmem ▸ List.mem_cons_self ..
  · rw [← List.map_cons, ← List.map_append]
    exact merge_eq (hwellformed _ fun fs hfs => hfs) (foldlM_addModule_append hp hrest)
  · simp only [List.nil_append, List.length_append, List.length_map, List.length_cons, List.length_nil,
      hlength, hlater]
    omega
  · rw [List.length_map, ← hlength]
    simp

/-- The same project twice, so that all numbers collide, and another one behind. -/
theorem exists_isolated_twice :
    ([dangling] ++ dangling :: [pair]).all Json.isProject = true ∧
      ∃ p q whole modules m, Deserializer.standard.merge "all" [dangling] "/repo" = .ok p ∧
        Deserializer.standard.merge "all" ([dangling] ++ [dangling]) "/repo" = .ok q ∧
        Deserializer.standard.merge "all" ([dangling] ++ dangling :: [pair]) "/repo" = .ok whole ∧
        whole.project.get? ReflectionId.project = some (mergedRoot "all" modules) ∧
        modules.length = ([dangling] ++ dangling :: [pair]).length ∧
        modules[[dangling].length]? = some m ∧ Isolated p.project q.project whole.project m :=
  have h : ([dangling] ++ dangling :: [pair]).all Json.isProject = true := by decide +kernel
  ⟨h, exists_isolated "all" "/repo" h⟩

end DocTree
