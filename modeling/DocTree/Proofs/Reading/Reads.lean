import DocTree.Proofs.Registry.Arena
import DocTree.Reader.Project

/-!
What a reading action does, said without the state it runs in. While the fields of a reflection are
read, that reflection alone changes, new reflections are registered behind all others, and numbers
and work to be done later are noted. `Reads` says all this of one action; one rule for each way of
combining actions gives it for the whole reader.
-/

namespace DocTree

/-- A reflection with another variant. -/
def Reflection.holding (r : Reflection) (v : Variant) : Reflection := { r with variant := v }

/-! ### What reading leaves behind -/

/-- What reading adds to the state: reflections, in the order of their new numbers, new numbers by
old ones, work put off, and how many targets were stored by their old number. -/
structure Crop where
  block : List Reflection
  ids : List (Nat × ReflectionId)
  queue : List Deferred
  pending : Nat

namespace Crop

/-- Nothing is added. -/
def none : Crop := ⟨[], [], [], 0⟩

/-- Some targets were stored by their old number, and nothing else is added. -/
def light (pending : Nat) : Crop := ⟨[], [], [], pending⟩

/-- One piece of work is put off. -/
def work (d : Deferred) : Crop := ⟨[], [], [d], 0⟩

instance : Append Crop :=
  ⟨fun y z => ⟨y.block ++ z.block, y.ids ++ z.ids, y.queue ++ z.queue, y.pending + z.pending⟩⟩

@[simp] theorem block_append (y z : Crop) : (y ++ z).block = y.block ++ z.block := rfl
@[simp] theorem ids_append (y z : Crop) : (y ++ z).ids = y.ids ++ z.ids := rfl
@[simp] theorem queue_append (y z : Crop) : (y ++ z).queue = y.queue ++ z.queue := rfl
@[simp] theorem pending_append (y z : Crop) : (y ++ z).pending = y.pending + z.pending := rfl

@[simp] theorem none_append (y : Crop) : none ++ y = y := by
  obtain ⟨block, ids, queue, pending⟩ := y
  exact congrArg (Crop.mk block ids queue) (Nat.zero_add pending)

@[simp] theorem append_none (y : Crop) : y ++ none = y := by
  obtain ⟨block, ids, queue, pending⟩ := y
  change Crop.mk (block ++ []) (ids ++ []) (queue ++ []) (pending + 0) = _
  simp only [List.append_nil, Nat.add_zero]

@[simp] theorem light_append_light (k l : Nat) : light k ++ light l = light (k + l) := rfl

end Crop

/-- The issue is that a number leads to no reflection. Only numbers that were put off can do so. -/
def Issue.isMissing : Issue → Bool
  | .missingReflection .. => true
  | _ => false

/-! ### Before and after -/

/-- Where reading takes place. -/
structure Site where
  root : String
  /-- The new numbers of files by their old ones. -/
  files : List (Nat × FileId)
  /-- Every file that is linked to is listed. -/
  clean : Prop

/-- A state in which the fields of a reflection are read: its number, how many numbers were given,
and what the reflection says so far. -/
structure View (e : Site) (n base : Nat) (r : Reflection) (σ : Reading) : Prop where
  active : σ.revival.activeReflection = n
  size : σ.revival.project.arena.size = base
  here : σ.revival.project.get? n = some r
  root : σ.revival.root = e.root
  files : σ.revival.fileIds = e.files

/-- The state in which the fields of another reflection are read. -/
def Reading.inside (σ : Reading) (n : ReflectionId) : Reading :=
  { σ with revival := { σ.revival with active := n :: σ.revival.active } }

/-- The state after reading: the reflection says something else, and the crop is added. -/
structure Grows (e : Site) (n : Nat) (r : Reflection) (y : Crop) (σ σ' : Reading) : Prop where
  arena : σ'.revival.project.arena.toList =
    σ.revival.project.arena.toList.set n (some r) ++ y.block.map some
  symbolIndex : σ'.revival.project.symbolIndex = σ.revival.project.symbolIndex
  symbols : σ'.revival.project.symbols = σ.revival.project.symbols
  table : σ'.revival.project.files = σ.revival.project.files
  root : σ'.revival.root = σ.revival.root
  active : σ'.revival.active = σ.revival.active
  files : σ'.revival.fileIds = σ.revival.fileIds
  ids : σ'.revival.ids =
    y.ids.foldl (fun table entry => Assoc.insert entry.1 entry.2 table) σ.revival.ids
  queue : σ'.queue = σ.queue ++ y.queue
  pending : σ'.revival.pendingCount = σ.revival.pendingCount + y.pending
  issues : e.clean → σ'.revival.issues = σ.revival.issues
  found : σ'.revival.issues.filter Issue.isMissing = σ.revival.issues.filter Issue.isMissing

/-- Whatever the state is, the action succeeds and gives `a`; the reflection `n`, which was `r`, is
then `r'`, and the crop is `y`. -/
def Reads {α : Type} (e : Site) (n base : Nat) (m : ReadM α) (r : Reflection) (a : α)
    (r' : Reflection) (y : Crop) : Prop :=
  ∀ σ, View e n base r σ → ∃ σ', m.run σ = .ok (a, σ') ∧ Grows e n r' y σ σ'

variable {e : Site} {n base : Nat} {r r' r'' s : Reflection} {y z : Crop} {σ τ υ : Reading}
variable {α β : Type} {m : ReadM α} {a : α} {b : β}

theorem Project.get?_eq_toList (p : Project) (i : ReflectionId) :
    p.get? i = (p.arena.toList[i]?).join := by
  rw [Array.getElem?_toList, get?]

/-- A reflection is registered behind all others, in a slot of its parent. -/
theorem Project.exists_add {p : Project} {role : Role} {child : Reflection} {v : Variant}
    (hr : p.get? n = some r) (hslot : r.variant.attach? p.arena.size role = some v)
    (hproject : child.isProject = false) :
    ∃ q, p.add n role child = .ok (q, p.arena.size) ∧
      q.arena.toList = p.arena.toList.set n (some (r.holding v)) ++
        [some { child with id := p.arena.size, parent := some n }] ∧
      q.symbolIndex = p.symbolIndex ∧ q.symbols = p.symbols ∧ q.files = p.files := by
  have hattach : p.attach n p.arena.size role = .ok (p.put n (some (r.holding v))) := by
    rw [attach, hr]
    simp only [hslot, Reflection.holding]
  rw [add, if_neg (by rw [hproject]; exact Bool.false_ne_true)]
  simp only [supply, IdSupply.take, hattach]
  refine ⟨_, rfl, ?_, rfl, rfl, rfl⟩
  refine Array.toList_push.trans ?_
  congr 1
  exact Array.toList_setIfInBounds ..

theorem View.lt (h : View e n base r σ) : n < base := by
  rw [← h.size]
  exact Project.lt_size_of_get? h.here

theorem View.getElem? (h : View e n base r σ) :
    σ.revival.project.arena.toList[n]? = some (some r) := by
  have hn : n < σ.revival.project.arena.toList.length := by
    rw [Array.length_toList, h.size]
    exact h.lt
  have hhere := h.here
  rw [Project.get?_eq_toList, List.getElem?_eq_getElem hn] at hhere
  rw [List.getElem?_eq_getElem hn]
  exact congrArg some hhere

theorem View.set_self (h : View e n base r σ) :
    σ.revival.project.arena.toList.set n (some r) = σ.revival.project.arena.toList := by
  refine List.ext_getElem? fun i => ?_
  by_cases hi : n = i
  · subst hi
    rw [List.getElem?_set_self', h.getElem?]
    rfl
  · rw [List.getElem?_set_ne hi]

/-- What changed is the state alone, apart from the reflection that is read. -/
theorem Grows.view (h : Grows e n r' y σ τ) (hσ : View e n base r σ) :
    View e n (base + y.block.length) r' τ where
  active := by rw [Revival.activeReflection, h.active, ← hσ.active, Revival.activeReflection]
  size := by
    rw [← Array.length_toList, h.arena, List.length_append, List.length_set, List.length_map,
      Array.length_toList, hσ.size]
  here := by
    have hn : n < σ.revival.project.arena.toList.length := by
      rw [Array.length_toList, hσ.size]
      exact hσ.lt
    rw [Project.get?_eq_toList, h.arena, List.getElem?_append_left (by rwa [List.length_set]),
      List.getElem?_set_self hn]
    rfl
  root := h.root.trans hσ.root
  files := h.files.trans hσ.files

theorem Grows.trans (hσ : View e n base r σ) (h : Grows e n r' y σ τ) (h' : Grows e n r'' z τ υ) :
    Grows e n r'' (y ++ z) σ υ where
  arena := by
    have hn : n < (σ.revival.project.arena.toList.set n (some r')).length := by
      rw [List.length_set, Array.length_toList, hσ.size]
      exact hσ.lt
    rw [h'.arena, h.arena, List.set_append_left n _ hn, List.set_set, Crop.block_append,
      List.map_append, List.append_assoc]
  symbolIndex := h'.symbolIndex.trans h.symbolIndex
  symbols := h'.symbols.trans h.symbols
  table := h'.table.trans h.table
  root := h'.root.trans h.root
  active := h'.active.trans h.active
  files := h'.files.trans h.files
  ids := by rw [h'.ids, h.ids, Crop.ids_append, List.foldl_append]
  queue := by rw [h'.queue, h.queue, Crop.queue_append, List.append_assoc]
  pending := by rw [h'.pending, h.pending, Crop.pending_append, Nat.add_assoc]
  issues := fun hc => (h'.issues hc).trans (h.issues hc)
  found := h'.found.trans h.found

theorem Grows.of_eq (h : Grows e n r y σ τ) (hy : y = z) : Grows e n r z σ τ := hy ▸ h

/-- What was registered stands behind everything that was there before. -/
theorem Grows.get?_block (h : Grows e n r' y σ τ) (hσ : View e n base r σ) {i : Nat}
    (hs : y.block[i]? = some s) : τ.revival.project.get? (base + i) = some s := by
  have hlen : (σ.revival.project.arena.toList.set n (some r')).length = base := by
    rw [List.length_set, Array.length_toList, hσ.size]
  rw [Project.get?_eq_toList, h.arena, List.getElem?_append_right (by omega), hlen,
    Nat.add_sub_cancel_left, List.getElem?_map, hs]
  rfl

/-- Nothing but the count of targets, and issues where they are expected, has changed. -/
theorem Grows.of_light (hσ : View e n base r σ) (hp : τ.revival.project = σ.revival.project)
    (hroot : τ.revival.root = σ.revival.root) (hactive : τ.revival.active = σ.revival.active)
    (hfiles : τ.revival.fileIds = σ.revival.fileIds) (hids : τ.revival.ids = σ.revival.ids)
    (hqueue : τ.queue = σ.queue ++ y.queue)
    (hpending : τ.revival.pendingCount = σ.revival.pendingCount + y.pending)
    (hissues : e.clean → τ.revival.issues = σ.revival.issues)
    (hfound : τ.revival.issues.filter Issue.isMissing = σ.revival.issues.filter Issue.isMissing)
    (hy : y.block = []) (hi : y.ids = []) : Grows e n r y σ τ where
  arena := by rw [hσ.set_self, hy, hp, List.map_nil, List.append_nil]
  symbolIndex := by rw [hp]
  symbols := by rw [hp]
  table := by rw [hp]
  root := hroot
  active := hactive
  files := hfiles
  ids := by rw [hi, hids]; rfl
  queue := hqueue
  pending := hpending
  issues := hissues
  found := hfound

/-- After an action that succeeds comes the next one. -/
theorem ReadM.run_bind {f : α → ReadM β} (h : m.run σ = .ok (a, τ)) :
    (m >>= f).run σ = (f a).run τ := by
  rw [StateT.run_bind, h]
  rfl

theorem ReadM.run_change (f : Revival → Revival) :
    (ReadM.change f).run σ = .ok ((), { σ with revival := f σ.revival }) := rfl

theorem ReadM.run_revival : ReadM.revival.run σ = .ok (σ.revival, σ) := rfl

/-- A change of the project that may fail, when it does not. -/
theorem ReadM.run_tryProject {f : Project → Except Fault (Project × α)} {p : Project}
    (h : f σ.revival.project = .ok (p, a)) :
    (ReadM.tryProject f).run σ = .ok (a, { σ with revival := { σ.revival with project := p } }) := by
  simp [ReadM.tryProject, ReadM.revival, h]
  rfl

/-! ### Rules for combining actions -/

namespace Reads

theorem pure (a : α) : Reads e n base (Pure.pure a : ReadM α) r a r .none := fun _ hσ =>
  ⟨_, rfl, .of_light hσ rfl rfl rfl rfl rfl (List.append_nil _).symm rfl (fun _ => rfl) rfl rfl
    rfl⟩

theorem bind {f : α → ReadM β} {next : Nat} (h : Reads e n base m r a r' y)
    (hnext : base + y.block.length = next) (h' : Reads e n next (f a) r' b r'' z) :
    Reads e n base (m >>= f) r b r'' (y ++ z) := by
  intro σ hσ
  obtain ⟨τ, hm, hτ⟩ := h σ hσ
  obtain ⟨υ, hf, hυ⟩ := h' τ (hnext ▸ hτ.view hσ)
  exact ⟨υ, (ReadM.run_bind hm).trans hf, hτ.trans hσ hυ⟩

theorem map {f : α → β} (h : Reads e n base m r a r' y) :
    Reads e n base (f <$> m) r (f a) r' y := by
  intro σ hσ
  obtain ⟨τ, hm, hτ⟩ := h σ hσ
  refine ⟨τ, ?_, hτ⟩
  rw [StateT.run_map, hm]
  rfl

/-- What follows a look at the state may depend on all that is known of the state. -/
theorem ask {f : Revival → ReadM α} (h : ∀ v, v.root = e.root → v.fileIds = e.files →
    Reads e n base (f v) r a r' y) : Reads e n base (ReadM.revival >>= f) r a r' y := fun σ hσ =>
  h σ.revival hσ.root hσ.files σ hσ

/-- An action that registers nothing, between others. -/
theorem bind_light {f : α → ReadM β} {k : Nat} (h : Reads e n base m r a r' (.light k))
    (h' : Reads e n base (f a) r' b r'' z) : Reads e n base (m >>= f) r b r'' (.light k ++ z) :=
  h.bind rfl h'

theorem of_eq (h : Reads e n base m r a r' y) (hy : y = z) : Reads e n base m r a r' z := hy ▸ h

/-! ### Single actions -/

theorem bump : Reads e n base
    (ReadM.change fun v => { v with pendingCount := v.pendingCount + 1 }) r () r (.light 1) :=
  fun _ hσ => ⟨_, rfl, .of_light hσ rfl rfl rfl rfl rfl (List.append_nil _).symm rfl
    (fun _ => rfl) rfl rfl rfl⟩

theorem defer (d : Deferred) : Reads e n base (ReadM.defer d) r () r (.work d) := fun _ hσ =>
  ⟨_, rfl, .of_light hσ rfl rfl rfl rfl rfl rfl rfl (fun _ => rfl) rfl rfl rfl⟩

theorem report (issue : Issue) (h : ¬ e.clean) (hissue : issue.isMissing = false) :
    Reads e n base (ReadM.report issue) r () r .none := fun σ hσ => by
  refine ⟨_, rfl, .of_light hσ rfl rfl rfl rfl rfl (List.append_nil _).symm rfl
    (fun hc => (h hc).elim) ?_ rfl rfl⟩
  change (σ.revival.issues ++ [issue]).filter _ = _
  rw [List.filter_append, List.filter_cons_of_neg (by rw [hissue]; exact Bool.false_ne_true),
    List.filter_nil, List.append_nil]

/-- The reflection that is read is replaced. -/
theorem replace {change : Project → Project}
    (h : ∀ σ, View e n base r σ → ∃ p, change σ.revival.project = p ∧
      p.arena = (σ.revival.project.put n (some r')).arena ∧
      p.symbolIndex = σ.revival.project.symbolIndex ∧ p.symbols = σ.revival.project.symbols ∧
      p.files = σ.revival.project.files) :
    Reads e n base (ReadM.changeProject change) r () r' .none := by
  intro σ hσ
  obtain ⟨p, hp, harena, hindex, hsymbols, hfiles⟩ := h σ hσ
  refine ⟨_, rfl, ?_, ?_, ?_, ?_, rfl, rfl, rfl, rfl, (List.append_nil _).symm, rfl, fun _ => rfl, rfl⟩
  · change (change σ.revival.project).arena.toList = _
    rw [hp, harena]
    exact (Array.toList_setIfInBounds ..).trans (List.append_nil _).symm
  · exact (congrArg _ hp).trans hindex
  · exact (congrArg _ hp).trans hsymbols
  · exact (congrArg _ hp).trans hfiles

theorem edit (f : Reflection → Reflection) : Reads e n base (Reader.edit n f) r () (f r) .none := by
  refine replace fun σ hσ => ⟨_, rfl, ?_⟩
  rw [Project.edit, Project.update, hσ.here]
  exact ⟨rfl, rfl, rfl, rfl⟩

/-- The main type is read, with the declarations in it registered under the reflection, and set
where there is a place for one and none has been set. -/
theorem mainType {c : Constructors} {fields : Fields} {t : Ty} {v : Variant}
    (h : Reads e n base (c.typeAt fields "type") r (some t) r' y)
    (hv : r'.variant.setMainType? (some t) = some v) (hnone : r'.type? = none)
    (howned : ∀ d ∈ t.declarations, ∃ i s, d = base + i ∧ y.block[i]? = some s ∧
      s.parent = some n) :
    Reads e n base (Reader.mainType c n fields) r () (r'.holding v) y := by
  intro σ hσ
  obtain ⟨τ, hm, hτ⟩ := h σ hσ
  have hview := hτ.view hσ
  have hset : τ.revival.project.setType n (some t) =
      .ok (τ.revival.project.put n (some (r'.holding v))).forgetGraph := by
    rw [Project.setType, hview.here]
    simp only [hv, hnone, Option.elim_none, List.filter_nil, List.foldl_nil, Reflection.holding]
  have hliterals : τ.revival.project.ownsLiterals n t = true := by
    refine List.all_eq_true.mpr fun d hd => decide_eq_true ?_
    obtain ⟨i, s, rfl, hs, hparent⟩ := howned d hd
    rw [Project.parent?, hτ.get?_block hσ hs]
    exact hparent
  have hown : τ.revival.project.setOwnType n t =
      .ok (τ.revival.project.put n (some (r'.holding v))).forgetGraph := by
    rw [Project.setOwnType, hset]
    exact if_pos hliterals
  refine ⟨{ τ with revival := { τ.revival with
      project := (τ.revival.project.put n (some (r'.holding v))).forgetGraph } }, ?_, ?_⟩
  · rw [Reader.mainType, ReadM.run_bind hm]
    refine ReadM.run_tryProject ?_
    rw [hown]
    rfl
  · refine (Grows.trans hσ hτ (z := .none) ?_).of_eq (Crop.append_none y)
    refine ⟨?_, rfl, rfl, rfl, rfl, rfl, rfl, rfl, (List.append_nil _).symm, rfl, fun _ => rfl, rfl⟩
    exact (Array.toList_setIfInBounds ..).trans (List.append_nil _).symm

/-- The fields of a reflection are read while it is the active one. -/
theorem readReflection {c : Constructors} {fields : Fields}
    (h : Reads e n base (Reader.standardFields c n fields) r () r' y)
    (hσ : View e n base r (σ.inside n)) :
    ∃ τ, (Deserializer.standard.readReflection c n fields).run σ = .ok ((), τ) ∧
      Grows e n r' y σ τ := by
  obtain ⟨τ, hrun, hτ⟩ := h (σ.inside n) hσ
  refine ⟨{ τ with revival := { τ.revival with active := τ.revival.active.tail } }, ?_, ?_⟩
  · rw [Deserializer.readReflection, ReadM.run_bind (ReadM.run_change _)]
    change (Reader.standardFields c n fields >>= _).run (σ.inside n) = _
    rw [ReadM.run_bind hrun]
    rfl
  · refine ⟨hτ.arena, hτ.symbolIndex, hτ.symbols, hτ.table, hτ.root, ?_, hτ.files, hτ.ids, hτ.queue,
      hτ.pending, hτ.issues, hτ.found⟩
    change τ.revival.active.tail = _
    rw [hτ.active]
    rfl

/-- A nested reflection is registered in a slot of the one that is read, then its own fields are read. -/
theorem construct {c : Constructors} {fields : Fields} {tag : VariantTag} {build : ReflectionBuilder}
    {role : Role} {v : Variant} {child : Reflection}
    (hvariant : VariantTag.ofName? (fields.text "variant") = some tag)
    (hbuild : Deserializer.standard.reflectionBuilder tag = some build)
    (hproject : (build fields).isProject = false) (hslot : r.variant.attach? base role = some v)
    (hchild : Reads e base (base + 1) (Reader.standardFields c base fields)
      { build fields with id := base, parent := some n } () child y) :
    Reads e n base (Deserializer.standard.constructReflection c fields role) r (some base)
      (r.holding v) ⟨child :: y.block, (fields.word? "id").toList.map (·, base) ++ y.ids, y.queue,
        y.pending⟩ := by
  intro σ hσ
  obtain ⟨q, hadd, harena, hindex, hsymbols, htable⟩ := Project.exists_add hσ.here
    (by rw [hσ.size]; exact hslot) hproject
  rw [hσ.size] at hadd harena
  have hsize : (σ.revival.project.arena.toList.set n (some (r.holding v))).length = base := by
    rw [List.length_set, Array.length_toList, hσ.size]
  -- The reflection stands behind all that was there, and its old number is noted before it is read.
  let v₁ : Revival := { σ.revival with
    project := q
    ids := ((fields.word? "id").toList.map (·, base)).foldl
      (fun table entry => Assoc.insert entry.1 entry.2 table) σ.revival.ids }
  have hview : View e base (base + 1) { build fields with id := base, parent := some n }
      (Reading.inside ⟨v₁, σ.queue⟩ base) := by
    refine ⟨rfl, ?_, ?_, hσ.root, hσ.files⟩
    · change q.arena.size = base + 1
      rw [← Array.length_toList, harena, List.length_append, hsize, List.length_singleton]
    · change q.get? base = _
      rw [Project.get?_eq_toList, harena, List.getElem?_append_right (Nat.le_of_eq hsize), hsize,
        Nat.sub_self]
      rfl
  obtain ⟨τ, hread, hτ⟩ := hchild.readReflection hview
  refine ⟨τ, ?_, ?_⟩
  · have htry : (ReadM.tryProject fun p => p.add n role (build fields)).run σ =
        .ok (base, { σ with revival := { σ.revival with project := q } }) := ReadM.run_tryProject hadd
    simp only [Deserializer.constructReflection, hvariant, hbuild]
    rw [ReadM.run_bind ReadM.run_revival, hσ.active, ReadM.run_bind htry]
    cases hid : fields.word? "id" with
    | none =>
      simp only [v₁, hid] at hread
      exact ReadM.run_bind hread
    | some old =>
      simp only [v₁, hid] at hread
      exact (ReadM.run_bind (ReadM.run_change _)).trans (ReadM.run_bind hread)
  · refine ⟨?_, hτ.symbolIndex.trans hindex, hτ.symbols.trans hsymbols, hτ.table.trans htable, hτ.root,
      hτ.active, hτ.files, ?_, hτ.queue, hτ.pending, hτ.issues, hτ.found⟩
    · rw [hτ.arena]
      change q.arena.toList.set base (some child) ++ _ = _
      rw [harena, List.set_append_right _ _ (Nat.le_of_eq hsize), hsize, Nat.sub_self,
        List.set_cons_zero, List.append_assoc]
      rfl
    · rw [List.foldl_append]
      exact hτ.ids

/-- When targets were stored by old numbers while the fields of a reflection were read, here or
further in, the reflection is to be looked at again. -/
theorem standardFields {c : Constructors} {fields : Fields} {next : Nat}
    (h : Reads e n base (Reader.shared n fields) r () r' y) (hnext : base + y.block.length = next)
    (h' : Reads e n next (Reader.variantFields c n fields r.tag) r' () r'' z) :
    Reads e n base (Reader.standardFields c n fields) r () r''
      (y ++ z ++ if (y ++ z).pending = 0 then .none else .work (.pendingTargets n)) := by
  intro σ hσ
  obtain ⟨τ, hshared, hτ⟩ := h σ hσ
  obtain ⟨υ, hvariant, hυ⟩ := h' τ (hnext ▸ hτ.view hσ)
  have hgrown := hτ.trans hσ hυ
  have hcount : (υ.revival.pendingCount ≠ σ.revival.pendingCount) ↔ ¬ (y ++ z).pending = 0 := by
    rw [hgrown.pending]
    omega
  rw [Reader.standardFields, ReadM.run_bind ReadM.run_revival]
  simp only [hσ.here]
  rw [ReadM.run_bind hshared, ReadM.run_bind hvariant, ReadM.run_bind ReadM.run_revival]
  by_cases hnone : (y ++ z).pending = 0
  · rw [if_neg (mt hcount.mp (not_not_intro hnone)), if_pos hnone, Crop.append_none]
    exact ⟨υ, rfl, hgrown⟩
  · rw [if_pos (hcount.mpr hnone), if_neg hnone]
    obtain ⟨ω, hdefer, hω⟩ := defer (e := e) (.pendingTargets n) υ (hgrown.view hσ)
    exact ⟨ω, hdefer, hgrown.trans hσ hω⟩

end Reads

/-! ### Values -/

/-- The action reads a value without registering anything, wherever it runs; when it stored no target
by its old number, `P` holds. -/
def Takes {α : Type} (e : Site) (m : ReadM α) (a : α) (P : Prop) : Prop :=
  ∃ k, (∀ n base r, Reads e n base m r a r (.light k)) ∧ (k = 0 → P)

namespace Takes

variable {P Q : Prop}

theorem pure (a : α) (h : P) : Takes e (Pure.pure a : ReadM α) a P :=
  ⟨0, fun _ _ _ => Reads.pure a, fun _ => h⟩

theorem bind {f : α → ReadM β} (h : Takes e m a P) (h' : Takes e (f a) b Q) :
    Takes e (m >>= f) b (P ∧ Q) := by
  obtain ⟨k, hk, hP⟩ := h
  obtain ⟨l, hl, hQ⟩ := h'
  exact ⟨k + l, fun n base r => (hk n base r).bind rfl (hl n base r),
    fun h => ⟨hP (Nat.eq_zero_of_add_eq_zero_right h), hQ (Nat.eq_zero_of_add_eq_zero_left h)⟩⟩

theorem map {f : α → β} (h : Takes e m a P) : Takes e (f <$> m) (f a) P := by
  obtain ⟨k, hk, hP⟩ := h
  exact ⟨k, fun n base r => (hk n base r).map, hP⟩

theorem imp (h : Takes e m a P) (hPQ : P → Q) : Takes e m a Q := by
  obtain ⟨k, hk, hP⟩ := h
  exact ⟨k, hk, fun h => hPQ (hP h)⟩

/-- After a target was stored by its old number nothing is promised. -/
theorem bump_then {f : Unit → ReadM α} (h : Takes e (f ()) a Q) :
    Takes e (ReadM.change (fun v => { v with pendingCount := v.pendingCount + 1 }) >>= f) a P := by
  obtain ⟨k, hk, -⟩ := h
  exact ⟨1 + k, fun n base r => Reads.bump.bind rfl (hk n base r), fun h => by omega⟩

theorem ask {f : Revival → ReadM α}
    (h : ∃ k, (∀ v, v.root = e.root → v.fileIds = e.files →
      ∀ n base r, Reads e n base (f v) r a r (.light k)) ∧ (k = 0 → P)) :
    Takes e (ReadM.revival >>= f) a P := by
  obtain ⟨k, hk, hP⟩ := h
  exact ⟨k, fun n base r => Reads.ask fun v hroot hfiles => hk v hroot hfiles n base r, hP⟩

/-- What is read from each item, when something is read from each. -/
theorem collect {γ δ : Type} {f : γ → ReadM (Option α)} {h : δ → γ} {g : δ → α} {P : δ → Prop} :
    ∀ {xs : List δ}, (∀ x ∈ xs, Takes e (f (h x)) (some (g x)) (P x)) →
      Takes e (ReadM.collect f (xs.map h)) (xs.map g) (∀ x ∈ xs, P x)
  | [], _ => .pure _ (fun _ hx => (List.not_mem_nil hx).elim)
  | x :: rest, hf => by
    have hx := hf x (List.mem_cons_self ..)
    have hrest := collect fun y hy => hf y (List.mem_cons_of_mem x hy)
    have hall := hrest.bind (f := fun ys => Pure.pure ((some (g x)).toList ++ ys)) (.pure _ trivial)
    refine (hx.bind hall).imp fun hP y hy => ?_
    rcases List.mem_cons.mp hy with rfl | hy
    · exact hP.1
    · exact hP.2.1 y hy

end Takes

end DocTree

