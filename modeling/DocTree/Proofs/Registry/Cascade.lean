import DocTree.Proofs.Registry.CutOff

/-!
Removal as a walk through what depends on a reflection. `Cascade` is what holds between any two steps
of it: everything that depends on a removed reflection has at least begun to be removed, everything
begun has to go, and what is still there is the old reflection pruned by what is gone. A step adds
its own reflection to those begun before it looks further, so `todo`, the number of those not yet
begun, bounds the depth, and circles end.
-/

namespace DocTree.Project

variable {p : Project} {x : ReflectionId}

/-- Registered at first and not any more. -/
def gone (p q : Project) (i : ReflectionId) : Bool := p.contains i && !q.contains i

/-- A child of one reflection that is gone. -/
def goneFrom (p q : Project) (parent i : ReflectionId) : Bool :=
  decide (p.parent? i = some parent) && gone p q i

theorem gone_iff {q : Project} {i : ReflectionId} :
    gone p q i = true ↔ p.contains i = true ∧ q.get? i = none := by
  rw [gone, Bool.and_eq_true, Bool.not_eq_true', ← Bool.not_eq_true, not_contains_iff]

/-- Lies in every closed set. When reflections stand in slots of others than their parents, nothing
is said. -/
def Doomed (p : Project) (x i : ReflectionId) : Prop := p.OwnSlots → ∀ S, p.Closed x S → S i

/-- Between two steps of a removal that set out from `p` to remove `x`. The declarations in `pending`
have lost their last type and are still to be removed. -/
structure Cascade (p : Project) (x : ReflectionId) (pending : List ReflectionId) (s : Removal) :
    Prop where
  size : s.project.arena.size = p.arena.size
  held : ∀ i r', s.project.get? i = some r' → ∃ r, p.get? i = some r ∧ r'.outline = r.outline
  lost : ∀ i, p.contains i = true → s.project.get? i = none → i ∈ s.begun
  known : ∀ i ∈ s.begun, p.contains i = true ∧ i ≠ ReflectionId.project
  doomed : ∀ i ∈ s.begun, p.Doomed x i
  /-- Names are looked up before the first reflection goes. -/
  named : s.project.outline = p.outline ∨ s.project.AllSettled
  target : ∀ i, s.project.contains i = true → s.project.settled? i = p.settled? i
  graph : s.project.GraphFits
  table : ∀ q, q ∉ s.begun → s.project.registeredChildren q =
    (p.registeredChildren q).filter fun c => !gone p s.project c
  struck : ∀ q ∈ s.begun, s.project.registeredChildren q = []
  children : ∀ c q, p.parent? c = some q → s.project.get? q = none → c ∈ s.begun
  references : ∀ c t, p.targetOf? c = some t → s.project.get? t = none → c ∈ s.begun
  shape : p.OwnSlots → ∀ i r r', p.get? i = some r → s.project.get? i = some r' →
    r'.variant.frame = (r.variant.prune (gone p s.project)).frame
  literals : p.OwnSlots → ∀ i r r' d, p.get? i = some r → s.project.get? i = some r' →
    p.parent? d = some i → d ∈ r.literals → d ∉ r'.literals → d ∈ s.begun ∨ d ∈ pending
  grouped : ∀ i r r', p.get? i = some r → s.project.get? i = some r' →
    Reflection.Regrouped (goneFrom p s.project i) r r'
  symbols : ∀ i, s.project.symbols.lookup i =
    if gone p s.project i = true then none else p.symbols.lookup i

/-- What a part of a removal does to those begun and to those there. -/
structure Progress (s s' : Removal) : Prop where
  begun : ∀ i ∈ s.begun, i ∈ s'.begun
  finished : ∀ i ∈ s'.begun, i ∈ s.begun ∨ s'.project.get? i = none
  lost : ∀ i, s.project.get? i = none → s'.project.get? i = none
  /-- What had begun before is not finished by a part. -/
  busy : ∀ i ∈ s.begun, s'.project.get? i = none → s.project.get? i = none
  settled : s.project.AllSettled → s'.project.AllSettled

namespace Progress

theorem refl (s : Removal) : Progress s s :=
  ⟨fun _ h => h, fun _ h => .inl h, fun _ h => h, fun _ _ h => h, fun h => h⟩

theorem trans {s t u : Removal} (h : Progress s t) (k : Progress t u) : Progress s u where
  begun i hi := k.begun i (h.begun i hi)
  finished i hi := (k.finished i hi).elim
    (fun ht => (h.finished i ht).imp id (k.lost i)) .inr
  lost i hi := k.lost i (h.lost i hi)
  busy i hi hu := h.busy i hi (k.busy i (h.begun i hi) hu)
  settled hs := k.settled (h.settled hs)

end Progress

/-! ### How much is left to begin -/

/-- The numbers whose removal has not begun. -/
def untouched (p : Project) (begun : List ReflectionId) : List ReflectionId :=
  (List.range p.arena.size).filter fun i => p.contains i && decide (i ∉ begun)

/-- The number of reflections whose removal has not begun. -/
def todo (p : Project) (begun : List ReflectionId) : Nat := (p.untouched begun).length

theorem mem_untouched {b : List ReflectionId} {i : ReflectionId} :
    i ∈ p.untouched b ↔ p.contains i = true ∧ i ∉ b := by
  rw [untouched, List.mem_filter, List.mem_range, Bool.and_eq_true, decide_eq_true_eq]
  exact ⟨And.right, fun h => ⟨lt_size_of_contains h.1, h⟩⟩

theorem todo_le {b b' : List ReflectionId} (h : ∀ i ∈ b, i ∈ b') : p.todo b' ≤ p.todo b := by
  rw [todo, todo, untouched, untouched, ← List.countP_eq_length_filter,
    ← List.countP_eq_length_filter]
  refine List.countP_mono_left fun i _ hi => ?_
  simp only [Bool.and_eq_true, decide_eq_true_eq] at hi ⊢
  exact ⟨hi.1, fun hb => hi.2 (h i hb)⟩

theorem todo_lt {b : List ReflectionId} {i : ReflectionId} (hi : p.contains i = true)
    (hb : i ∉ b) : p.todo (i :: b) < p.todo b := by
  have heq : p.untouched (i :: b) = (p.untouched b).filter fun j => decide (j ≠ i) := by
    rw [untouched, untouched, List.filter_filter]
    congr 1
    funext j
    simp only [List.mem_cons, not_or, Bool.decide_and, ne_eq, Bool.and_left_comm]
  rw [todo, todo, heq, List.length_filter_lt_length_iff_exists]
  exact ⟨i, mem_untouched.mpr ⟨hi, hb⟩, by simp⟩

theorem todo_pos {b : List ReflectionId} {i : ReflectionId} (hi : p.contains i = true)
    (hb : i ∉ b) : 0 < p.todo b :=
  List.length_pos_of_mem (mem_untouched.mpr ⟨hi, hb⟩)

/-- Before anything has begun, there are as many as there are reflections. -/
theorem todo_nil (p : Project) : p.todo [] = p.size := by
  have harena : p.arena.toList = (List.range p.arena.size).map fun i => p.get? i := by
    refine List.ext_getElem (by simp) fun i h _ => ?_
    have hi : i < p.arena.size := by simpa using h
    simp [get?, Array.getElem?_eq_getElem hi]
  rw [todo, untouched, size, reflections, harena, List.filterMap_map, List.length_filterMap_eq_countP,
    List.countP_eq_length_filter]
  simp [contains]

/-! ### Reading the state between two steps -/

namespace Cascade

variable {pending : List ReflectionId} {s : Removal} {i q : ReflectionId}

theorem contains (h : Cascade p x pending s) (hi : s.project.contains i = true) :
    p.contains i = true := by
  obtain ⟨r', hr'⟩ := contains_iff.mp hi
  obtain ⟨r, hr, -⟩ := h.held i r' hr'
  exact contains_of_get? hr

/-- What is still there has the parent that it had. -/
theorem parent? (h : Cascade p x pending s) (hi : s.project.contains i = true) :
    s.project.parent? i = p.parent? i := by
  obtain ⟨r', hr'⟩ := contains_iff.mp hi
  obtain ⟨r, hr, hout⟩ := h.held i r' hr'
  rw [parent?_of_get? hr', parent?_of_get? hr, Reflection.parent_of_outline hout]

theorem parent?_eq (h : Cascade p x pending s) (hi : s.project.parent? i = some q) :
    p.parent? i = some q := by
  rw [← h.parent? (contains_of_parent? hi), hi]

/-- A child in the project that is no child any more has begun to be removed. -/
theorem parent?_or_begun (h : Cascade p x pending s) (hi : p.parent? i = some q) :
    s.project.parent? i = some q ∨ i ∈ s.begun := by
  by_cases hc : s.project.contains i = true
  · exact .inl ((h.parent? hc).trans hi)
  · exact .inr (h.lost i (contains_of_parent? hi) (not_contains_iff.mp hc))

theorem listed (h : Cascade p x pending s) (hp : p.Numbered) (hq : q ∉ s.begun) :
    i ∈ s.project.registeredChildren q ↔ s.project.parent? i = some q := by
  rw [h.table q hq, List.mem_filter, hp.listed]
  constructor
  · rintro ⟨hi, hgone⟩
    have hc : s.project.contains i = true := by
      simpa [gone, contains_of_parent? hi] using hgone
    rw [h.parent? hc, hi]
  · intro hi
    exact ⟨h.parent?_eq hi, by simp [gone, contains_of_parent? hi]⟩

theorem nodup (h : Cascade p x pending s) (hp : p.Numbered) (q : ReflectionId) :
    (s.project.registeredChildren q).Nodup := by
  by_cases hq : q ∈ s.begun
  · rw [h.struck q hq]
    exact List.nodup_nil
  · rw [h.table q hq]
    exact (hp.nodup q).filter _

theorem numbers (h : Cascade p x pending s) (hp : p.Numbered) (r : Reflection)
    (hr : s.project.get? i = some r) : r.id = i := by
  obtain ⟨r₀, hr₀, hout⟩ := h.held i r hr
  exact (Reflection.id_of_outline hout).trans (hp.id i r₀ hr₀)

theorem targetOf? (h : Cascade p x pending s) (hi : s.project.targetOf? i = some q) :
    p.targetOf? i = some q := by
  obtain ⟨r, hr, -⟩ := isReference_of_targetOf? hi
  rw [Project.targetOf?, Option.filter_eq_some_iff] at hi ⊢
  rw [← h.target i (contains_of_get? hr)]
  exact ⟨hi.1, h.contains hi.2⟩

/-- A reference in the project that does not lead there any more has begun to be removed. -/
theorem targetOf?_or_begun (h : Cascade p x pending s) (hi : p.targetOf? i = some q)
    (hq : s.project.contains q = true) : s.project.targetOf? i = some q ∨ i ∈ s.begun := by
  obtain ⟨r, hr, -⟩ := isReference_of_targetOf? hi
  by_cases hc : s.project.contains i = true
  · rw [Project.targetOf?, Option.filter_eq_some_iff] at hi ⊢
    exact .inl ⟨h.target i hc ▸ hi.1, hq⟩
  · exact .inr (h.lost i (contains_of_get? hr) (not_contains_iff.mp hc))

end Cascade

/-! ### Beginning a removal -/

/-- A removal begun: the children are struck off first. -/
def Removal.start (s : Removal) (id : ReflectionId) : Removal :=
  ⟨{ s.project with registered := Assoc.erase id s.project.registered }, id :: s.begun⟩

theorem registeredChildren_start (s : Removal) (id i : ReflectionId) :
    (s.start id).project.registeredChildren i =
      if i = id then [] else s.project.registeredChildren i := by
  rw [registeredChildren, Removal.start]
  split
  · rename_i h
    rw [h, Assoc.lookup_erase_self]
    rfl
  · rename_i h
    rw [Assoc.lookup_erase_of_ne h]
    rfl

theorem Cascade.start {pending : List ReflectionId} {s : Removal} {id : ReflectionId}
    (h : Cascade p x pending s) (hid : s.project.contains id = true)
    (hne : id ≠ ReflectionId.project) (hdoomed : p.Doomed x id) :
    Cascade p x pending (s.start id) where
  size := h.size
  held := h.held
  lost i hi hr := List.mem_cons_of_mem id (h.lost i hi hr)
  known i hi := (List.mem_cons.mp hi).elim (fun e => e ▸ ⟨h.contains hid, hne⟩) (h.known i)
  doomed i hi := (List.mem_cons.mp hi).elim (fun e => e ▸ hdoomed) (h.doomed i)
  named := h.named
  target i hi := by
    have hout : (s.start id).project.outline = s.project.outline := rfl
    have hget : (s.start id).project.get? i = s.project.get? i := rfl
    rw [settled?_of_outline hout (by rw [hget])]
    exact h.target i hi
  graph := h.graph.of_outline rfl (fun _ => rfl) rfl
  table q hq := by
    rw [registeredChildren_start, if_neg fun e => hq (List.mem_cons.mpr (.inl e))]
    exact h.table q fun hb => hq (List.mem_cons_of_mem id hb)
  struck q hq := by
    rw [registeredChildren_start]
    split
    · rfl
    · rename_i hqid
      exact h.struck q ((List.mem_cons.mp hq).resolve_left hqid)
  children c q hc hq := List.mem_cons_of_mem id (h.children c q hc hq)
  references c t hc ht := List.mem_cons_of_mem id (h.references c t hc ht)
  shape := h.shape
  literals hown i r r' d hr hr' hd hmem hnot :=
    (h.literals hown i r r' d hr hr' hd hmem hnot).imp (List.mem_cons_of_mem id) fun hd => hd
  grouped := h.grouped
  symbols := h.symbols

/-! ### Looking references up on the way -/

theorem Cascade.looked {pending : List ReflectionId} {s : Removal} {t : Project}
    (h : Cascade p x pending s) (hl : Looked s.project t) (hfit : t.GraphFits)
    (hall : t.AllSettled) : Cascade p x pending { s with project := t } := by
  have hnone {i : ReflectionId} (hi : t.get? i = none) : s.project.get? i = none :=
    get?_eq_none_of_outline hl.outline hi
  have hgone : gone p t = gone p s.project := by
    funext i
    rw [gone, gone, hl.contains]
  have hfrom : goneFrom p t = goneFrom p s.project := by
    funext q i
    rw [goneFrom, goneFrom, hgone]
  have hchildren (q : ReflectionId) : t.registeredChildren q = s.project.registeredChildren q := by
    rw [registeredChildren, registeredChildren, hl.registered]
  have hframe {i : ReflectionId} {r' : Reflection} (hr' : t.get? i = some r') :
      ∃ r, s.project.get? i = some r ∧ r.variant.frame = r'.variant.frame ∧
        r.groupings = r'.groupings := by
    obtain ⟨r, hr, hu⟩ := hl.get? hr'
    exact ⟨r, hr, Reflection.frame_of_untargeted hu, Reflection.groupings_of_untargeted hu⟩
  -- Targets of references were settled and the graph was made; the rest is as it was.
  refine
    { size := hl.size.trans h.size
      held := fun i r' hr' => ?_
      lost := fun i hi hr => h.lost i hi (hnone hr)
      known := h.known
      doomed := h.doomed
      named := .inr hall
      target := fun i hi => (hl.settled i).trans (h.target i (hl.contains i ▸ hi))
      graph := hfit
      table := fun q hq => hgone ▸ (hchildren q).trans (h.table q hq)
      struck := fun q hq => (hchildren q).trans (h.struck q hq)
      children := fun c q hc hq => h.children c q hc (hnone hq)
      references := fun c t hc ht => h.references c t hc (hnone ht)
      shape := fun hown i r r' hr hr' => ?_
      literals := fun hown i r r' d hr hr' hd hmem hnot => ?_
      grouped := fun i r r' hr hr' => ?_
      symbols := fun i => ?_ }
  · obtain ⟨r₁, hr₁, hu⟩ := hl.get? hr'
    obtain ⟨r, hr, hout⟩ := h.held i r₁ hr₁
    exact ⟨r, hr, (Reflection.outline_of_untargeted hu).symm.trans hout⟩
  · obtain ⟨r₁, hr₁, hf, -⟩ := hframe hr'
    rw [hgone, ← hf]
    exact h.shape hown i r r₁ hr hr₁
  · obtain ⟨r₁, hr₁, hf, -⟩ := hframe hr'
    exact h.literals hown i r r₁ d hr hr₁ hd hmem fun hd₁ => hnot <| by
      rwa [Reflection.literals, ← Variant.literals_of_frame hf]
  · obtain ⟨r₁, hr₁, -, hg⟩ := hframe hr'
    obtain ⟨hsame, hpurged⟩ := h.grouped i r r₁ hr hr₁
    rw [hfrom]
    exact ⟨fun hn => hg ▸ hsame hn, fun he => hg ▸ hpurged he⟩
  · show t.symbols.lookup i = _
    rw [hl.symbols, hgone]
    exact h.symbols i

theorem Progress.looked {s : Removal} {t : Project} (hl : Looked s.project t)
    (hall : t.AllSettled) : Progress s { s with project := t } where
  begun _ hi := hi
  finished _ hi := .inl hi
  lost _ hi := get?_eq_none_of_outline hl.outline.symm hi
  busy _ _ hi := get?_eq_none_of_outline hl.outline hi
  settled _ := hall

end DocTree.Project
