import DocTree.Proofs.Reading.Reads
import DocTree.Proofs.Tolerance.Registry

/-!
Two reading actions in lockstep. From states that are the same as far as it is not passed over, two
actions that are alike give the same, both fail in the same way or leave states that are the same
again. One rule for each way of combining actions is enough for the whole reader.

Groupings of nothing may be put off by one of the two actions alone. So that carrying them out changes
nothing, it is kept along the way that groupings are put off once for each reflection: by whoever
reads the reflection, behind everything that is read inside it.
-/

namespace DocTree

/-! ### Groupings that were put off -/

/-- The reflection whose groupings were put off. -/
def Deferred.grouped? : Deferred → Option ReflectionId
  | .groupings id _ _ => some id
  | _ => none

namespace Reading

/-- The reflections whose groupings were put off. -/
def grouped (σ : Reading) : List ReflectionId := σ.queue.filterMap Deferred.grouped?

/-- How many numbers were given. -/
def size (σ : Reading) : Nat := σ.revival.project.arena.size

/-- Groupings were put off once at most for each reflection, and for registered ones alone. The
references have not been looked up. -/
structure Orderly (σ : Reading) : Prop where
  once : σ.grouped.Nodup
  lt : ∀ i ∈ σ.grouped, i < σ.size
  graph : σ.revival.project.graph = none

/-- The reflection is registered, and its groupings were not put off. -/
structure Awaits (σ : Reading) (n : ReflectionId) : Prop where
  lt : n < σ.size
  not_mem : n ∉ σ.grouped

/-- From one state to a later one groupings were put off for `own` or for new reflections alone. -/
structure Onward (own : Option ReflectionId) (σ τ : Reading) : Prop where
  le : σ.size ≤ τ.size
  mem : ∀ i ∈ τ.grouped, i ∈ σ.grouped ∨ own = some i ∨ σ.size ≤ i

variable {own : Option ReflectionId} {σ τ υ : Reading} {n : ReflectionId}

namespace Onward

theorem refl (σ : Reading) : Onward own σ σ := ⟨Nat.le_refl _, fun _ hi => .inl hi⟩

theorem of_le (hle : σ.size ≤ τ.size) (hgrouped : τ.grouped = σ.grouped) : Onward own σ τ :=
  ⟨hle, fun _ hi => .inl (hgrouped ▸ hi)⟩

theorem trans (h : Onward own σ τ) (k : Onward own τ υ) : Onward own σ υ where
  le := Nat.le_trans h.le k.le
  mem i hi := by
    rcases k.mem i hi with hi | hi | hi
    · exact h.mem i hi
    · exact .inr (.inl hi)
    · exact .inr (.inr (Nat.le_trans h.le hi))

theorem mono (h : Onward none σ τ) : Onward own σ τ where
  le := h.le
  mem i hi := by
    rcases h.mem i hi with hi | hi | hi
    · exact .inl hi
    · cases hi
    · exact .inr (.inr hi)

/-- What is awaited is awaited still when nothing was put off for it. -/
theorem awaits (h : Onward none σ τ) (hn : σ.Awaits n) : τ.Awaits n where
  lt := Nat.lt_of_lt_of_le hn.lt h.le
  not_mem hmem := by
    rcases h.mem n hmem with hi | hi | hi
    · exact hn.not_mem hi
    · cases hi
    · exact Nat.not_le_of_lt hn.lt hi

/-- What was put off for a new reflection was not put off for one that was there before. -/
theorem of_new {q : Project} (hn : n = σ.size) (hle : σ.size ≤ q.arena.size)
    (h : Onward (some n) { σ with revival := { σ.revival with project := q } } τ) :
    Onward none σ τ where
  le := Nat.le_trans hle h.le
  mem i hi := by
    rcases h.mem i hi with hi | hi | hi
    · exact .inl hi
    · exact .inr (.inr (hn ▸ Nat.le_of_eq (Option.some.inj hi)))
    · exact .inr (.inr (Nat.le_trans hle hi))

end Onward

/-- A reflection that was just registered is awaited. -/
theorem awaits_new {q : Project} (hσ : σ.Orderly) (hn : n = σ.size)
    (hsize : q.arena.size = σ.revival.project.arena.size + 1) :
    ({ σ with revival := { σ.revival with project := q } } : Reading).Awaits n where
  lt := by
    change n < q.arena.size
    rw [hn, hsize]
    exact Nat.lt_succ_self _
  not_mem hi := Nat.lt_irrefl _ (hn ▸ hσ.lt n hi)

end Reading

/-! ### States and results -/

/-- The states are the same as far as it is not passed over. -/
structure Near (b : Blur) (σ σ' : Reading) : Prop where
  blur : σ.blur b = σ'.blur b
  left : σ.Orderly
  right : σ'.Orderly

/-- The results are the same: a failure, or values that `g` does not tell apart and states that are
near. -/
inductive Agrees {α β : Type} (b : Blur) (own : Option ReflectionId) (g : α → β) (σ σ' : Reading) :
    Except Fault (α × Reading) → Except Fault (α × Reading) → Prop
  | error (fault : Fault) : Agrees b own g σ σ' (.error fault) (.error fault)
  | ok {a a' : α} {τ τ' : Reading} : g a = g a' → Near b τ τ' → Reading.Onward own σ τ →
    Reading.Onward own σ' τ' → Agrees b own g σ σ' (.ok (a, τ)) (.ok (a', τ'))

/-- From near states the actions give the same. If there is an `own`, its groupings may be put off. -/
def Alike {α β : Type} (b : Blur) (own : Option ReflectionId) (g : α → β) (m m' : ReadM α) : Prop :=
  ∀ σ σ', Near b σ σ' → (∀ n, own = some n → σ.Awaits n ∧ σ'.Awaits n) →
    Agrees b own g σ σ' (m.run σ) (m'.run σ')

variable {b : Blur} {own : Option ReflectionId} {α β γ δ : Type} {g : α → β} {k : γ → δ}
  {m m' : ReadM α} {f f' : α → ReadM γ} {σ σ' : Reading}

/-- What is the same of the two revivals. -/
theorem Near.revival (h : Near b σ σ') : σ.revival.blur b = σ'.revival.blur b :=
  congrArg Reading.revival h.blur

theorem Near.queue (h : Near b σ σ') :
    σ.queue.filterMap (Deferred.blur? b) = σ'.queue.filterMap (Deferred.blur? b) :=
  congrArg Reading.queue h.blur

theorem Near.project (h : Near b σ σ') :
    σ.revival.project.blur b = σ'.revival.project.blur b := congrArg Revival.project h.revival

section

variable {r r' : Revival} (h : r.blur b = r'.blur b)

include h

theorem Revival.root_of_blur : r.root = r'.root := by
  cases r
  cases r'
  simp_all [blur]

theorem Revival.active_of_blur : r.active = r'.active := by
  cases r
  cases r'
  simp_all [blur]

theorem Revival.fileIds_of_blur : r.fileIds = r'.fileIds := by
  cases r
  cases r'
  simp_all [blur]

theorem Revival.pendingCount_of_blur : r.pendingCount = r'.pendingCount := by
  cases r
  cases r'
  simp_all [blur]

end

/-- Another project in each of two revivals. -/
theorem Revival.blur_project {r r' : Revival} (h : r.blur b = r'.blur b) {p p' : Project}
    (hp : p.blur b = p'.blur b) :
    ({ r with project := p } : Revival).blur b = ({ r' with project := p' } : Revival).blur b := by
  cases r
  cases r'
  simp only [blur, Revival.mk.injEq] at h ⊢
  exact ⟨hp, h.2⟩

/-- From one project to a later one no number was taken back and no reference was looked up. -/
structure Project.Precedes (p q : Project) : Prop where
  le : p.arena.size ≤ q.arena.size
  graph : p.graph = none → q.graph = none

theorem Project.Precedes.of_eq {p q : Project} (h : q = p) : p.Precedes q :=
  ⟨Nat.le_of_eq (by rw [h]), fun hp => by rw [h, hp]⟩

/-- Other revivals in place of the ones before. -/
theorem Near.change (h : Near b σ σ') {r r' : Revival} (hblur : r.blur b = r'.blur b)
    (hr : σ.revival.project.Precedes r.project) (hr' : σ'.revival.project.Precedes r'.project) :
    Near b { σ with revival := r } { σ' with revival := r' } where
  blur := by
    change Reading.mk (r.blur b) _ = Reading.mk (r'.blur b) _
    rw [hblur, h.queue]
  left := ⟨h.left.once, fun i hi => Nat.lt_of_lt_of_le (h.left.lt i hi) hr.le, hr.graph h.left.graph⟩
  right :=
    ⟨h.right.once, fun i hi => Nat.lt_of_lt_of_le (h.right.lt i hi) hr'.le, hr'.graph h.right.graph⟩

namespace Alike

/-! ### Rules for combining actions -/

theorem pure {a a' : α} (h : g a = g a') : Alike b own g (Pure.pure a) (Pure.pure a') :=
  fun σ σ' hσ _ => .ok h hσ (.refl σ) (.refl σ')

/-- The own groupings are put off by the second action at most. -/
theorem bind (h : Alike b none g m m') (hf : ∀ a a', g a = g a' → Alike b own k (f a) (f' a')) :
    Alike b own k (m >>= f) (m' >>= f') := by
  intro σ σ' hσ hown
  have hm := h σ σ' hσ (fun _ hn => by cases hn)
  rw [StateT.run_bind, StateT.run_bind]
  generalize m.run σ = x at hm
  generalize m'.run σ' = x' at hm
  cases hm with
  | error fault => exact .error fault
  | @ok a a' τ τ' ha hτ honward honward' =>
    have hrest := hf a a' ha τ τ' hτ fun n hn =>
      ⟨honward.awaits (hown n hn).1, honward'.awaits (hown n hn).2⟩
    change Agrees b own k σ σ' ((f a).run τ) ((f' a').run τ')
    generalize (f a).run τ = y at hrest
    generalize (f' a').run τ' = y' at hrest
    cases hrest with
    | error fault => exact .error fault
    | ok hc hυ hnext hnext' =>
      exact .ok hc hυ (honward.mono.trans hnext) (honward'.mono.trans hnext')

/-- The own groupings are put off by the first action at most. -/
theorem bind_own (h : Alike b own g m m') (hf : ∀ a a', g a = g a' → Alike b none k (f a) (f' a')) :
    Alike b own k (m >>= f) (m' >>= f') := by
  intro σ σ' hσ hown
  have hm := h σ σ' hσ hown
  rw [StateT.run_bind, StateT.run_bind]
  generalize m.run σ = x at hm
  generalize m'.run σ' = x' at hm
  cases hm with
  | error fault => exact .error fault
  | @ok a a' τ τ' ha hτ honward honward' =>
    have hrest := hf a a' ha τ τ' hτ (fun _ hn => by cases hn)
    change Agrees b own k σ σ' ((f a).run τ) ((f' a').run τ')
    generalize (f a).run τ = y at hrest
    generalize (f' a').run τ' = y' at hrest
    cases hrest with
    | error fault => exact .error fault
    | ok hc hυ hnext hnext' =>
      exact .ok hc hυ (honward.trans hnext.mono) (honward'.trans hnext'.mono)

/-- One that puts off nothing of its own may stand where another could. -/
theorem mono (h : Alike b none g m m') : Alike b own g m m' := by
  intro σ σ' hσ _
  have hm := h σ σ' hσ (fun _ hn => by cases hn)
  generalize m.run σ = x at hm
  generalize m'.run σ' = x' at hm
  cases hm with
  | error fault => exact .error fault
  | ok ha hτ honward honward' => exact .ok ha hτ honward.mono honward'.mono

theorem collect {ξ : Type} {R : ξ → ξ → Prop} {h h' : ξ → ReadM (Option α)} {xs ys : List ξ}
    (hxs : List.Forall₂ R xs ys) (hh : ∀ x y, R x y → Alike b none (Option.map g) (h x) (h' y)) :
    Alike b none (List.map g) (ReadM.collect h xs) (ReadM.collect h' ys) := by
  induction hxs with
  | nil => exact .pure rfl
  | cons hxy _ ih =>
    refine (hh _ _ hxy).bind fun o o' ho => ih.bind fun as as' has => .pure ?_
    rw [List.map_append, List.map_append, has, ← Option.toList_map, ← Option.toList_map, ho]

/-- What follows two actions that give equal values. -/
theorem bind_eq (h : Alike b none id m m') (hf : ∀ a, Alike b own k (f a) (f' a)) :
    Alike b own k (m >>= f) (m' >>= f') := by
  refine h.bind fun a a' ha => ?_
  obtain rfl : a = a' := ha
  exact hf a

theorem collect_eq {ξ : Type} {R : ξ → ξ → Prop} {h h' : ξ → ReadM (Option α)} {xs ys : List ξ}
    (hxs : List.Forall₂ R xs ys) (hh : ∀ x y, R x y → Alike b none id (h x) (h' y)) :
    Alike b none id (ReadM.collect h xs) (ReadM.collect h' ys) := by
  have hall := collect (g := (id : α → α)) hxs fun x y hxy => by simpa using hh x y hxy
  simpa using hall

theorem each {ξ : Type} {R : ξ → ξ → Prop} {h h' : ξ → ReadM Unit} {xs ys : List ξ}
    (hxs : List.Forall₂ R xs ys) (hh : ∀ x y, R x y → Alike b none id (h x) (h' y)) :
    Alike b none id (ReadM.each h xs) (ReadM.each h' ys) := by
  induction hxs with
  | nil => exact .pure rfl
  | cons hxy _ ih => exact (hh _ _ hxy).bind fun _ _ _ => ih

/-! ### Single actions -/

theorem revival : Alike b own (Revival.blur b) ReadM.revival ReadM.revival := fun σ σ' hσ _ =>
  .ok hσ.revival hσ (.refl σ) (.refl σ')

/-- The revival is changed, and no number is given. -/
theorem change {h h' : Revival → Revival}
    (hblur : ∀ r r', r.blur b = r'.blur b → (h r).blur b = (h' r').blur b)
    (hh : ∀ r : Revival, r.project.Precedes (h r).project)
    (hh' : ∀ r : Revival, r.project.Precedes (h' r).project) :
    Alike b own id (ReadM.change h) (ReadM.change h') := fun _ _ hσ _ =>
  .ok rfl (hσ.change (hblur _ _ hσ.revival) (hh _) (hh' _)) (.of_le (hh _).le rfl)
    (.of_le (hh' _).le rfl)

/-- A change that leaves the project alone. -/
theorem note {h : Revival → Revival} (hblur : ∀ r, (h r).blur b = h (r.blur b))
    (hproject : ∀ r, (h r).project = r.project) : Alike b own id (ReadM.change h) (ReadM.change h) :=
  change (fun r r' hr => by rw [hblur, hblur, hr]) (fun r => .of_eq (hproject r))
    fun r => .of_eq (hproject r)

theorem report (issue : Issue) : Alike b own id (ReadM.report issue) (ReadM.report issue) :=
  note (fun _ => rfl) fun _ => rfl

theorem bump : Alike b own id (ReadM.change fun r => { r with pendingCount := r.pendingCount + 1 })
    (ReadM.change fun r => { r with pendingCount := r.pendingCount + 1 }) :=
  note (fun _ => rfl) fun _ => rfl

/-- A reflection is changed. -/
theorem edit {h h' : Reflection → Reflection} (i : ReflectionId)
    (hh : ∀ r r', r.blur b = r'.blur b → (h r).blur b = (h' r').blur b) :
    Alike b own id (Reader.edit i h) (Reader.edit i h') := by
  rw [Reader.edit, Reader.edit, ReadM.changeProject, ReadM.changeProject]
  have hedit (h : Reflection → Reflection) (p : Project) : p.Precedes (p.edit i h) :=
    ⟨Nat.le_of_eq (Project.size_update h).symm, fun _ => rfl⟩
  refine change (fun r r' hr => ?_) (fun r => hedit h r.project) fun r => hedit h' r.project
  have hproject : r.project.blur b = r'.project.blur b := congrArg Revival.project hr
  refine Revival.blur_project hr ?_
  change ((r.project.update i h).blur b).forgetGraph = ((r'.project.update i h').blur b).forgetGraph
  refine congrArg Project.forgetGraph ?_
  have hget : (r.project.get? i).map (Reflection.blur b) =
      (r'.project.get? i).map (Reflection.blur b) := by
    rw [← Project.get?_blur, ← Project.get?_blur, hproject]
  rw [Project.update, Project.update]
  cases hs : r.project.get? i with
  | none =>
    rw [hs, Option.map_none] at hget
    rw [Option.map_eq_none_iff.mp hget.symm]
    exact hproject
  | some s =>
    rw [hs, Option.map_some] at hget
    obtain ⟨s', hs', hblur⟩ := Option.map_eq_some_iff.mp hget.symm
    simp only [hs', Project.put_blur, Option.map_some, hproject, hh s s' hblur.symm]

/-- What a change of the project that may fail gives for two projects: the same failure, or later
projects that are the same, and values that `g` does not tell apart. -/
inductive Tried (b : Blur) (g : α → β) (p p' : Project) :
    Except Fault (Project × α) → Except Fault (Project × α) → Prop
  | error (fault : Fault) : Tried b g p p' (.error fault) (.error fault)
  | ok {q q' : Project} {a a' : α} : q.blur b = q'.blur b → g a = g a' → p.Precedes q →
    p'.Precedes q' → Tried b g p p' (.ok (q, a)) (.ok (q', a'))

theorem Tried.of_map {p p' : Project} {x x' : Except Fault (Project × α)}
    (h : x.map (fun y => (y.1.blur b, g y.2)) = x'.map fun y => (y.1.blur b, g y.2))
    (hx : ∀ q a, x = .ok (q, a) → p.Precedes q) (hx' : ∀ q a, x' = .ok (q, a) → p'.Precedes q) :
    Tried b g p p' x x' := by
  rcases x with fault | ⟨q, a⟩ <;> rcases x' with fault' | ⟨q', a'⟩
  · obtain rfl := Except.error.inj h
    exact .error fault
  · cases h
  · cases h
  · obtain ⟨hq, ha⟩ := Prod.mk.inj (Except.ok.inj h)
    exact .ok hq ha (hx q a rfl) (hx' q' a' rfl)

theorem run_tryProject_error {h : Project → Except Fault (Project × α)} {fault : Fault}
    (hp : h σ.revival.project = .error fault) : (ReadM.tryProject h).run σ = .error fault := by
  simp [ReadM.tryProject, ReadM.revival, hp]
  rfl

/-- The project is changed in a way that may fail. -/
theorem tryProject {h h' : Project → Except Fault (Project × α)}
    (hh : ∀ p p', p.blur b = p'.blur b → Tried b g p p' (h p) (h' p')) :
    Alike b own g (ReadM.tryProject h) (ReadM.tryProject h') := by
  intro σ σ' hσ _
  have hx := hh _ _ hσ.project
  generalize hp : h σ.revival.project = x at hx
  generalize hp' : h' σ'.revival.project = x' at hx
  cases hx with
  | error fault =>
    rw [run_tryProject_error hp, run_tryProject_error hp']
    exact .error fault
  | ok hq ha hnext hnext' =>
    rw [ReadM.run_tryProject hp, ReadM.run_tryProject hp']
    exact .ok ha (hσ.change (Revival.blur_project hσ.revival hq) hnext hnext')
      (.of_le hnext.le rfl) (.of_le hnext'.le rfl)

/-- A reflection is registered, and what is put off for it afterwards is put off for a new one. -/
theorem register {h h' : Project → Except Fault (Project × ReflectionId)}
    {f f' : ReflectionId → ReadM γ}
    (hh : ∀ p p', p.blur b = p'.blur b → Tried b id p p' (h p) (h' p'))
    (hnew : ∀ p q i, h p = .ok (q, i) → i = p.arena.size ∧ q.arena.size = p.arena.size + 1)
    (hnew' : ∀ p q i, h' p = .ok (q, i) → i = p.arena.size ∧ q.arena.size = p.arena.size + 1)
    (hf : ∀ i, Alike b (some i) k (f i) (f' i)) :
    Alike b none k (ReadM.tryProject h >>= f) (ReadM.tryProject h' >>= f') := by
  intro σ σ' hσ _
  have hx := hh _ _ hσ.project
  rw [StateT.run_bind, StateT.run_bind]
  generalize hp : h σ.revival.project = x at hx
  generalize hp' : h' σ'.revival.project = x' at hx
  cases hx with
  | error fault =>
    rw [run_tryProject_error hp, run_tryProject_error hp']
    exact .error fault
  | @ok q q' i i' hq hi hnext hnext' =>
    obtain rfl : i = i' := hi
    obtain ⟨hi, hsize⟩ := hnew _ _ _ hp
    obtain ⟨hi', hsize'⟩ := hnew' _ _ _ hp'
    rw [ReadM.run_tryProject hp, ReadM.run_tryProject hp']
    have hnear := hσ.change (Revival.blur_project hσ.revival hq) hnext hnext'
    have hrest := hf i _ _ hnear fun n hn => by
      obtain rfl := Option.some.inj hn
      exact ⟨Reading.awaits_new hσ.left hi hsize, Reading.awaits_new hσ.right hi' hsize'⟩
    change Agrees b none k σ σ' ((f i).run _) ((f' i).run _)
    generalize (f i).run _ = y at hrest
    generalize (f' i).run _ = y' at hrest
    cases hrest with
    | error fault => exact .error fault
    | ok hc hυ honward honward' =>
      exact .ok hc hυ (honward.of_new hi hnext.le) (honward'.of_new hi' hnext'.le)

/-! ### Putting work off -/

end Alike

/-- Several pieces of work are put off. -/
def ReadM.deferAll (works : List Deferred) : ReadM Unit :=
  modify fun σ => { σ with queue := σ.queue ++ works }

/-- No groupings are put off but those of `own`, once. -/
def Own (own : Option ReflectionId) (works : List Deferred) : Prop :=
  works.filterMap Deferred.grouped? = [] ∨
    ∃ n, own = some n ∧ works.filterMap Deferred.grouped? = [n]

theorem Reading.grouped_append (σ : Reading) (works : List Deferred) :
    ({ σ with queue := σ.queue ++ works } : Reading).grouped =
      σ.grouped ++ works.filterMap Deferred.grouped? := List.filterMap_append

theorem Own.orderly {works : List Deferred} (h : Own own works) (hσ : σ.Orderly)
    (hown : ∀ n, own = some n → σ.Awaits n) :
    ({ σ with queue := σ.queue ++ works } : Reading).Orderly := by
  rcases h with hnone | ⟨n, rfl, hn⟩
  · refine ⟨?_, ?_, hσ.graph⟩ <;> rw [Reading.grouped_append, hnone, List.append_nil]
    · exact hσ.once
    · exact hσ.lt
  · obtain ⟨hlt, hmem⟩ := hown n rfl
    refine ⟨?_, ?_, hσ.graph⟩ <;> rw [Reading.grouped_append, hn]
    · exact List.nodup_append.mpr ⟨hσ.once, by simp, fun i hi j hj hij => by
        obtain rfl := List.mem_singleton.mp hj
        exact hmem (hij ▸ hi)⟩
    · intro i hi
      rcases List.mem_append.mp hi with hi | hi
      · exact hσ.lt i hi
      · obtain rfl := List.mem_singleton.mp hi
        exact hlt

theorem Own.onward {works : List Deferred} (h : Own own works) (σ : Reading) :
    Reading.Onward own σ { σ with queue := σ.queue ++ works } where
  le := Nat.le_refl _
  mem i hi := by
    rw [Reading.grouped_append] at hi
    rcases List.mem_append.mp hi with hi | hi
    · exact .inl hi
    · rcases h with hnone | ⟨n, rfl, hn⟩
      · rw [hnone] at hi
        cases hi
      · rw [hn] at hi
        exact .inr (.inl (congrArg some (List.mem_singleton.mp hi).symm))

namespace Alike

theorem deferAll {works works' : List Deferred}
    (h : works.filterMap (Deferred.blur? b) = works'.filterMap (Deferred.blur? b))
    (hown : Own own works) (hown' : Own own works') :
    Alike b own id (ReadM.deferAll works) (ReadM.deferAll works') := by
  intro σ σ' hσ hawaits
  refine .ok rfl ⟨?_, ?_, ?_⟩ (hown.onward σ) (hown'.onward σ')
  · change Reading.mk (σ.revival.blur b) ((σ.queue ++ works).filterMap _) =
      Reading.mk (σ'.revival.blur b) ((σ'.queue ++ works').filterMap _)
    rw [List.filterMap_append, List.filterMap_append, hσ.revival, hσ.queue, h]
  · exact hown.orderly hσ.left fun n hn => (hawaits n hn).1
  · exact hown'.orderly hσ.right fun n hn => (hawaits n hn).2

/-- Work that is no grouping. -/
theorem defer {d : Deferred} (h : d.grouped? = none) :
    Alike b own id (ReadM.defer d) (ReadM.defer d) := by
  have hown : Own own [d] := .inl (by simp [h])
  exact deferAll rfl hown hown

/-- Groupings are put off where there are any. -/
theorem groupings {n : ReflectionId} {gs gs' : Option (List Group)} {cs cs' : Option (List Category)}
    (hgs : Group.blur? b gs = Group.blur? b gs') (hcs : Category.blur? b cs = Category.blur? b cs') :
    Alike b (some n) id
      (if gs.isSome || cs.isSome then ReadM.defer (.groupings n gs cs) else Pure.pure ())
      (if gs'.isSome || cs'.isSome then ReadM.defer (.groupings n gs' cs') else Pure.pure ()) := by
  let works (gs : Option (List Group)) (cs : Option (List Category)) : List Deferred :=
    if gs.isSome || cs.isSome then [.groupings n gs cs] else []
  have haction (gs : Option (List Group)) (cs : Option (List Category)) :
      (if gs.isSome || cs.isSome then ReadM.defer (.groupings n gs cs) else Pure.pure ()) =
        ReadM.deferAll (works gs cs) := by
    simp only [works]
    split
    · rfl
    · funext σ
      simp only [ReadM.deferAll, modify, modifyGet, MonadStateOf.modifyGet, StateT.modifyGet,
        List.append_nil]
      rfl
  have hown (gs : Option (List Group)) (cs : Option (List Category)) : Own (some n) (works gs cs) := by
    simp only [works]
    split
    · exact .inr ⟨n, rfl, rfl⟩
    · exact .inl rfl
  rw [haction, haction]
  refine deferAll ?_ (hown gs cs) (hown gs' cs')
  have hworks (gs : Option (List Group)) (cs : Option (List Category)) :
      (works gs cs).filterMap (Deferred.blur? b) =
        if (Group.blur? b gs).isSome || (Category.blur? b cs).isSome then
          [.groupings n (Group.blur? b gs) (Category.blur? b cs)] else [] := by
    rcases gs with _ | _ | ⟨g, gs⟩ <;> rcases cs with _ | _ | ⟨c, cs⟩ <;> cases hb : b.lists <;>
      simp [works, Deferred.blur?, Group.blur?, Category.blur?, hb]
  rw [hworks, hworks, hgs, hcs]

end Alike

end DocTree
