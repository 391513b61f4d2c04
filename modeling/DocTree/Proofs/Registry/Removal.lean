import DocTree.Proofs.Registry.Cascade

/-!
What a removal does. One step takes the reflection out after everything that depends on it has begun
to be removed, so `Cascade` is kept by a step and, by induction on the depth, by a whole removal.
-/

namespace DocTree.Project

variable {p : Project} {x : ReflectionId} {pending : List ReflectionId} {s : Removal}
  {id q : ReflectionId}

/-- A removal after one reflection was taken out. -/
def Removal.finish (s : Removal) (id : ReflectionId) : Removal :=
  { s with project := (s.project.cutOff id).1 }

/-! ### Taking one reflection out -/

/-- What a removal comes to when it takes out a reflection: all that depends on it has begun. -/
structure Ready (p : Project) (s : Removal) (id q : ReflectionId) : Prop where
  parent : p.parent? id = some q
  there : s.project.contains id = true
  begun : id ∈ s.begun
  settled : s.project.AllSettled
  children : ∀ c, p.parent? c = some id → c ∈ s.begun
  references : ∀ c, p.targetOf? c = some id → c ∈ s.begun

namespace Ready

variable {i : ReflectionId}

theorem parent? (hr : Ready p s id q) (h : Cascade p x pending s) :
    s.project.parent? id = some q :=
  (h.parent? hr.there).trans hr.parent

theorem gone_finish (hr : Ready p s id q) (h : Cascade p x pending s) (i : ReflectionId) :
    gone p (s.finish id).project i = (gone p s.project i || decide (i = id)) := by
  rw [Bool.eq_iff_iff, Bool.or_eq_true, decide_eq_true_eq, gone_iff, gone_iff, Removal.finish,
    get?_cutOff_eq_none (hr.parent? h)]
  constructor
  · rintro ⟨hc, rfl | hi⟩
    · exact .inr rfl
    · exact .inl ⟨hc, hi⟩
  · rintro (⟨hc, hi⟩ | rfl)
    · exact ⟨hc, .inr hi⟩
    · exact ⟨contains_of_parent? hr.parent, .inl rfl⟩

theorem goneFrom_finish_self (hr : Ready p s id q) (h : Cascade p x pending s) :
    goneFrom p (s.finish id).project q = fun c => goneFrom p s.project q c || decide (c = id) := by
  funext c
  rw [goneFrom, goneFrom, hr.gone_finish h]
  by_cases hc : c = id
  · simp [hc, hr.parent]
  · simp [hc]

theorem goneFrom_finish_of_ne (hr : Ready p s id q) (h : Cascade p x pending s) (hi : i ≠ q) :
    goneFrom p (s.finish id).project i = goneFrom p s.project i := by
  funext c
  rw [goneFrom, goneFrom, hr.gone_finish h]
  by_cases hc : c = id
  · simp [hc, hr.parent, Ne.symm hi]
  · simp [hc]

/-- A reflection in which the child does not stand is pruned as before. -/
theorem prune_finish_of_ne (hr : Ready p s id q) (h : Cascade p x pending s) (hown : p.OwnSlots)
    (hi : i ≠ q) {r : Reflection} (hri : p.get? i = some r) :
    r.variant.prune (gone p (s.finish id).project) = r.variant.prune (gone p s.project) := by
  refine Variant.prune_congr fun role c hc => ?_
  have hne : c ≠ id := by
    rintro rfl
    obtain ⟨hci, -⟩ := hown i r role c hri hc (contains_of_parent? hr.parent)
    exact hi (Option.some.inj (hci.symm.trans hr.parent))
  simp [hr.gone_finish h, hne]

/-- In the parent, vacating the slot is pruning the child. -/
theorem vacate_prune (hr : Ready p s id q) (h : Cascade p x pending s) (hown : p.OwnSlots)
    {r r' : Reflection} (hrq : p.get? q = some r) (hrq' : s.project.get? q = some r') :
    (r'.detach id (s.project.roleToVacate id)).variant.frame =
      (r.variant.prune (gone p (s.finish id).project)).frame := by
  have hshape := h.shape hown q r r' hrq hrq'
  have hslot (role : Role) (hid : id ∈ (r.variant.prune (gone p s.project)).slot role) :
      id ∈ r.variant.slot role := (Variant.mem_slot_prune hid).1
  have hunique (other : Role) (hid : id ∈ (r.variant.prune (gone p s.project)).slot other) :
      other = s.project.roleToVacate id := by
    have hmem := mem_slot_roleToVacate (hr.parent? h) hrq' (Variant.slot_of_frame hshape other ▸ hid)
    rw [Variant.slot_of_frame hshape] at hmem
    obtain ⟨-, hrole⟩ := hown q r (s.project.roleToVacate id) id hrq (hslot _ hmem)
      (contains_of_parent? hr.parent)
    exact hrole other (hslot other hid)
  have hgone : (fun c => gone p s.project c || decide (c = id)) =
      gone p (s.finish id).project := (funext (hr.gone_finish h)).symm
  calc (r'.detach id (s.project.roleToVacate id)).variant.frame
      = r'.variant.frame.vacate id (s.project.roleToVacate id) := by
        rw [Reflection.frame_detach, Variant.frame_vacate]
    _ = ((r.variant.prune (gone p s.project)).vacate id (s.project.roleToVacate id)).frame := by
        rw [hshape, Variant.frame_vacate]
    _ = (r.variant.prune (gone p (s.finish id).project)).frame := by
        rw [Variant.vacate_eq_prune hunique, Variant.prune_prune, hgone]

/-- What is struck off the types of the parent has begun to be removed, or nothing owns it now. -/
theorem literal_finish (hr : Ready p s id q) (h : Cascade p x pending s) {r' : Reflection}
    (hrq' : s.project.get? q = some r') {d : ReflectionId} (hd : p.parent? d = some q)
    (hmem : d ∈ r'.literals) (hnot : d ∉ (r'.detach id (s.project.roleToVacate id)).literals) :
    d ∈ s.begun ∨ d ∈ (s.project.cutOff id).2 := by
  by_cases hdid : d = id
  · exact .inl (hdid ▸ hr.begun)
  have hrole : s.project.roleToVacate id = .typeLiteral := Classical.byContradiction fun hne =>
    hnot (by rwa [Reflection.literals_detach hne])
  rcases h.parent?_or_begun hd with hparent | hbegun
  · exact .inr ((mem_orphans_cutOff (hr.parent? h)).mpr
      ⟨roleInParent?_of_roleToVacate hrole, hdid, hparent, r', hrq', hmem, hnot⟩)
  · exact .inl hbegun

/-- What nothing owns any more has to go as well. -/
theorem doomed_orphan (hr : Ready p s id q) (h : Cascade p x pending s) {d : ReflectionId}
    (hd : d ∈ (s.project.cutOff id).2) : p.parent? d = some q ∧ p.Doomed x d := by
  obtain ⟨-, -, hdq, r', hr', hmem, hnot⟩ := (mem_orphans_cutOff (hr.parent? h)).mp hd
  obtain ⟨r, hrq, -⟩ := h.held q r' hr'
  have hdp : p.parent? d = some q := h.parent?_eq hdq
  refine ⟨hdp, fun hown S hS => hS.literals d q r hdp hrq ?_ ?_⟩
  · have hmem' : d ∈ r'.variant.literals := hmem
    rw [Variant.literals_of_frame (h.shape hown q r r' hrq hr'), Variant.mem_literals_prune] at hmem'
    obtain ⟨t, ht, hdt, -⟩ := hmem'
    exact ⟨t, ht, hdt⟩
  · intro t ht hdt
    have hany : t.declarations.any (gone p (s.finish id).project) = true := by
      refine Classical.byContradiction fun hfalse => hnot ?_
      rw [Reflection.literals, Variant.literals_of_frame (hr.vacate_prune h hown hrq hr'),
        Variant.mem_literals_prune]
      exact ⟨t, ht, hdt, Bool.not_eq_true _ ▸ hfalse⟩
    obtain ⟨m, hm, hgone⟩ := List.any_eq_true.mp hany
    refine ⟨m, hm, ?_⟩
    rw [hr.gone_finish h, Bool.or_eq_true, decide_eq_true_eq, gone_iff] at hgone
    obtain ⟨hc, hlost⟩ | rfl := hgone
    · exact h.doomed m (h.lost m hc hlost) hown S hS
    · exact h.doomed m hr.begun hown S hS

end Ready

/-- Taking out a reflection leaves to be removed what nothing owns any more. -/
theorem Cascade.finish (h : Cascade p x pending s) (hp : p.Numbered) (hr : Ready p s id q) :
    Cascade p x ((s.project.cutOff id).2 ++ pending) (s.finish id) := by
  have hq := hr.parent? h
  refine
    { size := (size_cutOff hq).trans h.size
      held := fun i r' hr' => ?held
      lost := fun i hi hnone => ?lost
      known := h.known
      doomed := h.doomed
      named := .inr (hr.settled.cutOff hq)
      target := fun i hi => ?target
      graph := graphFits_of_none graph_cutOff
      table := fun a ha => ?table
      struck := fun a ha => ?struck
      children := fun c a hc hnone => ?children
      references := fun c t hc hnone => ?references
      shape := fun hown i r r' hri hr' => ?shape
      literals := fun hown i r r' d hri hr' hd hmem hnot => ?literals
      grouped := fun i r r' hri hr' => ?grouped
      symbols := fun i => ?symbols }
  case held =>
    obtain ⟨-, r₁, hr₁, hcase⟩ := get?_cutOff_eq_some hq hr'
    obtain ⟨r, hri, hout⟩ := h.held i r₁ hr₁
    refine ⟨r, hri, ?_⟩
    rcases hcase with ⟨-, rfl⟩ | ⟨-, rfl⟩
    · exact Reflection.outline_detach.trans hout
    · exact hout
  case lost =>
    rcases (get?_cutOff_eq_none hq).mp hnone with rfl | hi'
    · exact hr.begun
    · exact h.lost i hi hi'
  case target =>
    obtain ⟨r', hr'⟩ := contains_iff.mp hi
    obtain ⟨hne, r₁, hr₁, -⟩ := get?_cutOff_eq_some hq hr'
    exact (settled?_cutOff hr.settled hq hne).trans (h.target i (contains_of_get? hr₁))
  case table =>
    have hgone : gone p (s.finish id).project = fun c => gone p s.project c || decide (c = id) :=
      funext (hr.gone_finish h)
    rw [hgone, Removal.finish, registeredChildren_cutOff hq]
    by_cases haq : a = q
    · subst haq
      rw [if_pos rfl, h.table a ha, List.filter_filter]
      simp only [Bool.not_or, Bool.and_comm, decide_not]
    · rw [if_neg haq, h.table a ha]
      refine List.filter_congr fun c hc => ?_
      have hne : c ≠ id := by
        rintro rfl
        exact haq (Option.some.inj (((hp.listed a c).mp hc).symm.trans hr.parent))
      simp [hne]
  case struck =>
    rw [Removal.finish, registeredChildren_cutOff hq]
    split
    · rename_i haq
      rw [h.struck q (haq ▸ ha)]
      rfl
    · exact h.struck a ha
  case children =>
    rcases (get?_cutOff_eq_none hq).mp hnone with rfl | ha
    · exact hr.children c hc
    · exact h.children c a hc ha
  case references =>
    rcases (get?_cutOff_eq_none hq).mp hnone with rfl | ht
    · exact hr.references c hc
    · exact h.references c t hc ht
  case shape =>
    obtain ⟨-, r₁, hr₁, ⟨rfl, rfl⟩ | ⟨hiq, rfl⟩⟩ := get?_cutOff_eq_some hq hr'
    · exact hr.vacate_prune h hown hri hr₁
    · rw [hr.prune_finish_of_ne h hown hiq hri]
      exact h.shape hown i r r' hri hr₁
  case literals =>
    obtain ⟨-, r₁, hr₁, hcase⟩ := get?_cutOff_eq_some hq hr'
    -- It is struck off in this step, or it was before.
    by_cases hmem₁ : d ∈ r₁.literals
    · rcases hcase with ⟨rfl, rfl⟩ | ⟨-, rfl⟩
      · exact (hr.literal_finish h hr₁ hd hmem₁ hnot).imp (fun hb => hb)
          (List.mem_append_left pending)
      · exact absurd hmem₁ hnot
    · exact (h.literals hown i r r₁ d hri hr₁ hd hmem hmem₁).imp (fun hb => hb)
        (List.mem_append_right _)
  case grouped =>
    obtain ⟨-, r₁, hr₁, ⟨rfl, rfl⟩ | ⟨hiq, rfl⟩⟩ := get?_cutOff_eq_some hq hr'
    · rw [hr.goneFrom_finish_self h]
      exact (h.grouped i r r₁ hri hr₁).detach
    · rw [hr.goneFrom_finish_of_ne h hiq]
      exact h.grouped i r r' hri hr₁
  case symbols =>
    rw [hr.gone_finish h, Removal.finish, lookup_symbols_cutOff hq, h.symbols]
    by_cases hi : i = id <;> simp [hi]

/-! ### One part of a removal after the other -/

/-- A part of a removal that takes care of some reflections. -/
structure Handles (p : Project) (x : ReflectionId) (pending : List ReflectionId) (s s' : Removal)
    (ids : List ReflectionId) : Prop where
  cascade : Cascade p x pending s'
  progress : Progress s s'
  begun : ∀ c ∈ ids, c ∈ s'.begun

theorem handles_foldl {f : Removal → ReflectionId → Removal} {budget : Nat} :
    ∀ {ids : List ReflectionId} {s : Removal},
      (∀ c ∈ ids, ∀ s, Cascade p x pending s → p.todo s.begun ≤ budget →
        Handles p x pending s (f s c) [c]) →
      Cascade p x pending s → p.todo s.begun ≤ budget →
      Handles p x pending s (ids.foldl f s) ids
  | [], s, _, h, _ => ⟨h, .refl s, fun _ hc => absurd hc List.not_mem_nil⟩
  | i :: ids, s, hf, h, hb => by
    obtain ⟨h₁, k₁, hi⟩ := hf i List.mem_cons_self s h hb
    have hb₁ : p.todo (f s i).begun ≤ budget := Nat.le_trans (todo_le k₁.begun) hb
    obtain ⟨h₂, k₂, hids⟩ := handles_foldl (fun c hc => hf c (List.mem_cons_of_mem i hc)) h₁ hb₁
    refine ⟨h₂, k₁.trans k₂, fun c hc => ?_⟩
    rcases List.mem_cons.mp hc with rfl | hc
    · exact k₂.begun c (hi c (List.mem_singleton.mpr rfl))
    · exact hids c hc

/-- What has begun is pending no more. -/
theorem Cascade.of_begun {l : List ReflectionId} (h : Cascade p x (l ++ pending) s)
    (hl : ∀ d ∈ l, d ∈ s.begun) : Cascade p x pending s :=
  { h with
    literals := fun hown i r r' d hr hr' hd hmem hnot =>
      (h.literals hown i r r' d hr hr' hd hmem hnot).elim .inl fun hd =>
        (List.mem_append.mp hd).imp (hl d) fun hd => hd }

/-- From the beginning of a step to the reflection taken out. -/
theorem progress_finish {t : Removal} (hid : s.project.contains id = true) (hb : id ∉ s.begun)
    (k : Progress (s.start id) t) (hq : t.project.parent? id = some q) :
    Progress s (t.finish id) where
  begun i hi := k.begun i (List.mem_cons_of_mem id hi)
  finished i hi := by
    rcases k.finished i hi with hstart | hnone
    · rcases List.mem_cons.mp hstart with rfl | hi
      · exact .inr ((get?_cutOff_eq_none hq).mpr (.inl rfl))
      · exact .inl hi
    · exact .inr ((get?_cutOff_eq_none hq).mpr (.inr hnone))
  lost i hi := (get?_cutOff_eq_none hq).mpr (.inr (k.lost i hi))
  busy i hi hnone := by
    rcases (get?_cutOff_eq_none hq).mp hnone with rfl | hnone
    · exact absurd hi hb
    · exact k.busy i (List.mem_cons_of_mem id hi) hnone
  settled hs := (k.settled hs).cutOff hq

/-! ### The parts of a step -/

/-- A removal after the children of a reflection. -/
def afterChildren (steps : Nat) (id : ReflectionId) (s : Removal) : Removal :=
  (s.project.registeredChildren id).foldl (fun s child =>
    if s.project.parent? child = some id then removeWithin steps child s else s) (s.start id)

/-- A removal after the references to a reflection. -/
def afterReferences (steps : Nat) (id : ReflectionId) (s : Removal) : Removal :=
  (s.project.referencing id).2.foldl (fun s reference => removeWithin steps reference s)
    { s with project := (s.project.referencing id).1 }

/-- A removal after the declarations that nothing owns any more once a reflection is out. -/
def afterOrphans (steps : Nat) (id : ReflectionId) (s : Removal) : Removal :=
  (s.project.cutOff id).2.foldl (fun s orphan => removeWithin steps orphan s) (s.finish id)

theorem removeWithin_succ (steps : Nat) (hid : s.project.contains id = true) (hb : id ∉ s.begun) :
    removeWithin (steps + 1) id s =
      afterOrphans steps id (afterReferences steps id (afterChildren steps id s)) := by
  rw [removeWithin, if_neg (by simp [hid, hb])]
  rfl

/-- A removal that is not begun leaves everything as it is. -/
theorem removeWithin_of_not (steps : Nat) (h : ¬(s.project.contains id = true ∧ id ∉ s.begun)) :
    removeWithin steps id s = s := by
  cases steps with
  | zero => rfl
  | succ steps =>
    rw [removeWithin, if_pos]
    simpa [Classical.or_iff_not_imp_left] using h

/-- A relation between projects that can be chained and holds across each part of a removal. -/
structure Removal.Keeps (R : Project → Project → Prop) : Prop where
  refl : ∀ p, R p p
  trans : ∀ {p q t}, R p q → R q t → R p t
  start : ∀ p id, R p { p with registered := Assoc.erase id p.registered }
  referencing : ∀ p id, R p (p.referencing id).1
  cutOff : ∀ p id, R p (p.cutOff id).1

namespace Removal.Keeps

variable {R : Project → Project → Prop}

theorem foldl (h : Keeps R) {f : Removal → ReflectionId → Removal}
    (hf : ∀ s i, R s.project (f s i).project) (ids : List ReflectionId) (s : Removal) :
    R s.project (ids.foldl f s).project := by
  induction ids generalizing s with
  | nil => exact h.refl s.project
  | cons i rest ih => exact h.trans (hf s i) (ih (f s i))

/-- However much goes with a reflection, the relation holds between before and after. -/
theorem removeWithin (h : Keeps R) (steps : Nat) (id : ReflectionId) (s : Removal) :
    R s.project (removeWithin steps id s).project := by
  induction steps generalizing id s with
  | zero => exact h.refl s.project
  | succ steps ih =>
    by_cases hstart : s.project.contains id = true ∧ id ∉ s.begun
    · have hchildren : R s.project (afterChildren steps id s).project := by
        refine h.trans (h.start s.project id) (h.foldl (fun t child => ?_) _ (s.start id))
        split
        · exact ih child t
        · exact h.refl t.project
      have hreferences (t : Removal) : R t.project (afterReferences steps id t).project :=
        h.trans (h.referencing t.project id) (h.foldl (fun t reference => ih reference t) _
          { t with project := (t.project.referencing id).1 })
      have horphans (t : Removal) : R t.project (afterOrphans steps id t).project :=
        h.trans (h.cutOff t.project id) (h.foldl (fun t orphan => ih orphan t) _ (t.finish id))
      rw [removeWithin_succ steps hstart.1 hstart.2]
      exact h.trans (h.trans hchildren (hreferences _)) (horphans _)
    · rw [removeWithin_of_not _ hstart]
      exact h.refl s.project

end Removal.Keeps

/-- One step down takes care of whatever it is given. -/
def StepHandles (p : Project) (x : ReflectionId) (steps : Nat) : Prop :=
  ∀ pending s id, Cascade p x pending s → p.contains id = true → id ≠ ReflectionId.project →
    p.Doomed x id → p.todo s.begun ≤ steps →
    Handles p x pending s (removeWithin steps id s) [id]

variable {steps : Nat}

theorem handles_children (hp : p.Numbered) (ih : p.StepHandles x steps)
    (h : Cascade p x pending s) (hid : s.project.contains id = true) (hb : id ∉ s.begun)
    (hne : id ≠ ReflectionId.project) (hdoomed : p.Doomed x id)
    (hsteps : p.todo s.begun ≤ steps + 1) :
    Handles p x pending (s.start id) (afterChildren steps id s)
      (s.project.registeredChildren id) := by
  refine handles_foldl (fun c hc t ht hbudget => ?_) (h.start hid hne hdoomed)
    (Nat.le_of_lt_succ (Nat.lt_of_lt_of_le (todo_lt (h.contains hid) hb) hsteps))
  have hparent : p.parent? c = some id := h.parent?_eq ((h.listed hp hb).mp hc)
  split
  · exact ih pending t c ht (contains_of_parent? hparent) (hp.ne_root_of_parent? hparent)
      (fun hown S hS => hS.children c id hparent (hdoomed hown S hS)) hbudget
  · rename_i hnot
    refine ⟨ht, .refl t, fun d hd => ?_⟩
    obtain rfl := List.mem_singleton.mp hd
    exact (ht.parent?_or_begun hparent).resolve_left hnot

theorem handles_references (hp : p.Numbered) (ih : p.StepHandles x steps)
    (h : Cascade p x pending s) (hdoomed : p.Doomed x id) (hsteps : p.todo s.begun ≤ steps) :
    Handles p x pending s (afterReferences steps id s) (s.project.referencesTo id) ∧
      (afterReferences steps id s).project.AllSettled := by
  have hnum : ∀ i r, s.project.get? i = some r → r.id = i := fun i r hr => h.numbers hp r hr
  obtain ⟨hrefs, hl, hfit, hall⟩ := referencing_eq hnum h.graph id
  have hloop : Handles p x pending { s with project := (s.project.referencing id).1 }
      (afterReferences steps id s) (s.project.referencing id).2 := by
    refine handles_foldl (fun c hc t ht hbudget => ?_) (h.looked hl hfit hall) hsteps
    have htarget : p.targetOf? c = some id :=
      h.targetOf? ((mem_referencesTo hnum).mp (hrefs ▸ hc))
    obtain ⟨r, hr, -⟩ := isReference_of_targetOf? htarget
    exact ih pending t c ht (contains_of_get? hr) (hp.ne_root_of_targetOf? htarget)
      (fun hown S hS => hS.references c id htarget (hdoomed hown S hS)) hbudget
  have hlooked := Progress.looked hl hall
  exact ⟨⟨hloop.cascade, hlooked.trans hloop.progress, fun c hc => hloop.begun c (hrefs ▸ hc)⟩,
    hloop.progress.settled hall⟩

theorem handles_orphans (hp : p.Numbered) (ih : p.StepHandles x steps)
    (h : Cascade p x pending s) (hr : Ready p s id q) (hsteps : p.todo s.begun ≤ steps) :
    Handles p x pending (s.finish id) (afterOrphans steps id s) (s.project.cutOff id).2 := by
  have hloop : Handles p x ((s.project.cutOff id).2 ++ pending) (s.finish id)
      (afterOrphans steps id s) (s.project.cutOff id).2 :=
    handles_foldl (fun d hd t ht hbudget =>
      have ⟨hparent, hdoomed⟩ := hr.doomed_orphan h hd
      ih _ t d ht (contains_of_parent? hparent) (hp.ne_root_of_parent? hparent) hdoomed hbudget)
      (h.finish hp hr) hsteps
  exact ⟨hloop.cascade.of_begun hloop.begun, hloop.progress, hloop.begun⟩

/-- A removal within enough steps takes care of the reflection. -/
theorem handles_removeWithin (hp : p.Numbered) : ∀ steps, p.StepHandles x steps
  | 0, pending, s, id, h, hid, _, _, hsteps => by
    refine ⟨h, .refl s, fun c hc => ?_⟩
    obtain rfl := List.mem_singleton.mp hc
    exact Classical.byContradiction fun hb =>
      Nat.not_le_of_lt (todo_pos hid hb) hsteps
  | steps + 1, pending, s, id, h, hid, hne, hdoomed, hsteps => by
    by_cases hb : id ∈ s.begun
    case pos =>
      rw [removeWithin_of_not _ fun h => h.2 hb]
      exact ⟨h, .refl s, fun c hc => List.mem_singleton.mp hc ▸ hb⟩
    have hthere : s.project.contains id = true := Classical.byContradiction fun hc =>
      hb (h.lost id hid (not_contains_iff.mp hc))
    obtain ⟨q, hq, -⟩ := hp.parent?_of_ne_root hid hne
    have ih := handles_removeWithin hp steps
    have htodo : p.todo (id :: s.begun) ≤ steps :=
      Nat.le_of_lt_succ (Nat.lt_of_lt_of_le (todo_lt hid hb) hsteps)
    -- The children, then the references, while the reflection itself stays.
    obtain ⟨h₁, k₁, hchildren⟩ := handles_children hp ih h hthere hb hne hdoomed hsteps
    have htodo₁ : p.todo (afterChildren steps id s).begun ≤ steps :=
      Nat.le_trans (todo_le k₁.begun) htodo
    obtain ⟨⟨h₂, k₂, hreferences⟩, hall⟩ := handles_references hp ih h₁ hdoomed htodo₁
    generalize hs₂ : afterReferences steps id (afterChildren steps id s) = s₂ at h₂ k₂ hreferences hall
    have k := k₁.trans k₂
    have hthere₁ : (afterChildren steps id s).project.contains id = true :=
      Classical.byContradiction fun hnot => (contains_iff.mp hthere).elim fun r hr =>
        nomatch hr.symm.trans (k₁.busy id List.mem_cons_self (not_contains_iff.mp hnot))
    have hready : Ready p s₂ id q :=
      { parent := hq
        there := Classical.byContradiction fun hnot => (contains_iff.mp hthere).elim fun r hr =>
          nomatch hr.symm.trans (k.busy id List.mem_cons_self (not_contains_iff.mp hnot))
        begun := k.begun id List.mem_cons_self
        settled := hall
        children := fun c hc => (h.parent?_or_begun hc).elim
          (fun hc => k₂.begun c (hchildren c ((h.listed hp hb).mpr hc)))
          (fun hc => k.begun c (List.mem_cons_of_mem id hc))
        references := fun c hc => (h₁.targetOf?_or_begun hc hthere₁).elim
          (fun hc => hreferences c ((mem_referencesTo fun i r hr => h₁.numbers hp r hr).mpr hc))
          (fun hc => k₂.begun c hc) }
    have htodo₂ : p.todo s₂.begun ≤ steps := Nat.le_trans (todo_le k₂.begun) htodo₁
    obtain ⟨h₃, k₃, -⟩ := handles_orphans hp ih h₂ hready htodo₂
    rw [removeWithin_succ steps hthere hb, hs₂]
    refine ⟨h₃, (progress_finish hthere hb k (hready.parent? h₂)).trans k₃, fun c hc => ?_⟩
    obtain rfl := List.mem_singleton.mp hc
    exact k₃.begun c hready.begun

end DocTree.Project
