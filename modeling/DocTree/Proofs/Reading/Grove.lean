import DocTree.Proofs.Reading.Relocate

/-!
What the tree looks like after the first pass, whatever was read. Reflections are registered one
behind the other, each after its parent; the slots of a reflection name children of its own, each once.
All that points at a reflection still does so by an old number, and where something does, the reflection
that holds it is noted to be looked at again. `Crop.Sound` says this of what one action adds to the
state; it is kept when actions follow one another and when a reflection is put around what was read.
-/

namespace DocTree

/-! ### What points at reflections -/

/-- A reflection that something points at. -/
inductive Aim where
  /-- By its number in the serialized project. -/
  | old (number : Nat)
  /-- By its number in this project. -/
  | new (id : ReflectionId)
  deriving DecidableEq, Repr

def Aim.isOld : Aim → Bool
  | .old _ => true
  | .new _ => false

def RefTarget.aim? : RefTarget → Option Aim
  | .reflection id => some (.new id)
  | .pending old => some (.old old)
  | .symbol _ | .broken => none

def LinkTarget.aim? : LinkTarget → Option Aim
  | .reflection id => some (.new id)
  | .pending old => some (.old old)
  | .symbol _ | .url _ => none

def Part.aim? (p : Part) : Option Aim := p.target?.bind LinkTarget.aim?

/-- The reflections that texts point at. -/
def Part.aims (ps : List Part) : List Aim := ps.filterMap Part.aim?

/-- The reflections that a type points at: by references, queries included, and in texts. -/
def Ty.aims (t : Ty) : List Aim :=
  t.references.filterMap (fun entry => entry.1.target.aim?) ++ Part.aims t.parts

/-- The reflections that the types and texts of a reflection point at. -/
def Reflection.aims (r : Reflection) : List Aim := r.types.flatMap Ty.aims ++ Part.aims r.parts

def Category.aims (k : Category) : List Aim := Part.aims (k.description.getD [])

def Group.aims (g : Group) : List Aim :=
  Part.aims (g.description.getD []) ++ (g.categories.getD []).flatMap Category.aims

/-- The reflections that texts in a piece of work point at. -/
def Deferred.aims : Deferred → List Aim
  | .groupings _ groups categories =>
    (groups.getD []).flatMap Group.aims ++ (categories.getD []).flatMap Category.aims
  | _ => []

@[simp] theorem Part.aims_nil : Part.aims [] = [] := rfl

@[simp] theorem Part.aims_append (ps qs : List Part) :
    Part.aims (ps ++ qs) = Part.aims ps ++ Part.aims qs := List.filterMap_append

/-- Everything points by old numbers, and nothing does unless targets were counted. -/
def Fresh (count : Nat) (aims : List Aim) : Prop := ∀ a ∈ aims, count ≠ 0 ∧ a.isOld = true

namespace Fresh

variable {k l : Nat} {xs ys : List Aim}

theorem nil : Fresh k [] := by
  intro a ha
  cases ha

theorem mono (h : Fresh k xs) (hsub : ∀ a ∈ ys, a ∈ xs) : Fresh k ys := by
  intro a ha
  exact h a (hsub a ha)

theorem append (h : Fresh k xs) (h' : Fresh l ys) : Fresh (k + l) (xs ++ ys) := by
  intro a ha
  rcases List.mem_append.mp ha with ha | ha
  · obtain ⟨hk, hold⟩ := h a ha
    exact ⟨by omega, hold⟩
  · obtain ⟨hl, hold⟩ := h' a ha
    exact ⟨by omega, hold⟩

end Fresh

/-! ### Families -/

/-- Of the reflections in the block, these are children of `p`, each named once; if `W` holds, they are
all of its children. -/
structure Family (W : Prop) (block : List Reflection) (p : Nat) (kids : List ReflectionId) : Prop where
  nodup : kids.Nodup
  child : ∀ d ∈ kids, ∃ t ∈ block, t.id = d ∧ t.parent = some p
  full : W → ∀ t ∈ block, t.parent = some p → t.id ∈ kids

namespace Family

variable {W : Prop} {block block' : List Reflection} {p : Nat} {kids kids' : List ReflectionId}

theorem perm (h : Family W block p kids) (hperm : kids.Perm kids') : Family W block p kids' where
  nodup := hperm.nodup_iff.mp h.nodup
  child := fun d hd => h.child d (hperm.mem_iff.mpr hd)
  full := fun hW t ht hp => hperm.mem_iff.mp (h.full hW t ht hp)

theorem append_left (h : Family W block p kids) (hother : ∀ t ∈ block', t.parent ≠ some p) :
    Family W (block ++ block') p kids where
  nodup := h.nodup
  child := by
    intro d hd
    obtain ⟨t, ht, hid⟩ := h.child d hd
    exact ⟨t, List.mem_append_left _ ht, hid⟩
  full := by
    intro hW t ht hp
    rcases List.mem_append.mp ht with ht | ht
    · exact h.full hW t ht hp
    · exact absurd hp (hother t ht)

theorem append_right (h : Family W block p kids) (hother : ∀ t ∈ block', t.parent ≠ some p) :
    Family W (block' ++ block) p kids where
  nodup := h.nodup
  child := by
    intro d hd
    obtain ⟨t, ht, hid⟩ := h.child d hd
    exact ⟨t, List.mem_append_right _ ht, hid⟩
  full := by
    intro hW t ht hp
    rcases List.mem_append.mp ht with ht | ht
    · exact absurd hp (hother t ht)
    · exact h.full hW t ht hp

theorem join (h : Family W block p kids) (h' : Family W block' p kids')
    (hapart : ∀ s ∈ block, ∀ t ∈ block', s.id ≠ t.id) :
    Family W (block ++ block') p (kids ++ kids') where
  nodup := by
    refine List.nodup_append.mpr ⟨h.nodup, h'.nodup, ?_⟩
    intro d hd e he
    obtain ⟨s, hs, rfl, -⟩ := h.child d hd
    obtain ⟨t, ht, rfl, -⟩ := h'.child e he
    exact hapart s hs t ht
  child := by
    intro d hd
    rcases List.mem_append.mp hd with hd | hd
    · obtain ⟨t, ht, hid⟩ := h.child d hd
      exact ⟨t, List.mem_append_left _ ht, hid⟩
    · obtain ⟨t, ht, hid⟩ := h'.child d hd
      exact ⟨t, List.mem_append_right _ ht, hid⟩
  full := by
    intro hW t ht hp
    rcases List.mem_append.mp ht with ht | ht
    · exact List.mem_append_left _ (h.full hW t ht hp)
    · exact List.mem_append_right _ (h'.full hW t ht hp)

end Family

/-! ### Groves -/

/-- The reflections in the block were registered inside `n` from the number `base` on; `ds` are
children of `n` among them. -/
structure Grove (n base : Nat) (W : Prop) (ds : List ReflectionId) (block : List Reflection) : Prop where
  numbers : block.map (·.id) = List.range' base block.length
  parent : ∀ s ∈ block, s.parent = some n ∨ ∃ t ∈ block, s.parent = some t.id ∧ t.id < s.id
  own : Family W block n ds
  kids : ∀ s ∈ block, Family W block s.id s.childIds

namespace Grove

variable {n base : Nat} {W : Prop} {ds es : List ReflectionId} {block block' : List Reflection}

theorem nil : Grove n base W [] [] where
  numbers := rfl
  parent := by simp
  own := ⟨List.nodup_nil, by simp, by simp⟩
  kids := by simp

theorem number_mem (h : Grove n base W ds block) {s : Reflection} (hs : s ∈ block) :
    base ≤ s.id ∧ base + block.length > s.id := by
  have hmem : s.id ∈ block.map (·.id) := List.mem_map_of_mem hs
  rw [h.numbers, List.mem_range'_1] at hmem
  exact hmem

/-- The place of a reflection follows from its number. -/
theorem getElem? (h : Grove n base W ds block) {s : Reflection} (hs : s ∈ block) :
    ∃ i, s.id = base + i ∧ block[i]? = some s := by
  obtain ⟨i, hi, rfl⟩ := List.getElem_of_mem hs
  refine ⟨i, ?_, List.getElem?_eq_getElem hi⟩
  have hnumber : (block.map (·.id))[i]? = (List.range' base block.length)[i]? := by rw [h.numbers]
  rw [List.getElem?_map, List.getElem?_eq_getElem hi, List.getElem?_range' hi, Nat.one_mul] at hnumber
  exact Option.some.inj hnumber

theorem id_getElem? (h : Grove n base W ds block) {i : Nat} {s : Reflection} (hs : block[i]? = some s) :
    s.id = base + i := by
  obtain ⟨hi, rfl⟩ := List.getElem?_eq_some_iff.mp hs
  have hnumber : (block.map (·.id))[i]? = (List.range' base block.length)[i]? := by rw [h.numbers]
  rw [List.getElem?_map, List.getElem?_eq_getElem hi, List.getElem?_range' hi, Nat.one_mul] at hnumber
  exact Option.some.inj hnumber

theorem perm (h : Grove n base W ds block) (hperm : ds.Perm es) : Grove n base W es block :=
  ⟨h.numbers, h.parent, h.own.perm hperm, h.kids⟩

/-- The children in hand are given up. -/
theorem drop (h : Grove n base W ds block) (hW : ¬ W) : Grove n base W [] block :=
  ⟨h.numbers, h.parent, ⟨List.nodup_nil, by simp, fun hyes => (hW hyes).elim⟩, h.kids⟩

/-- No reflection registered later is a child of one registered before. -/
theorem parent_ne (h' : Grove n (base + block.length) W es block') (hn : n < base)
    (h : Grove n base W ds block) {s t : Reflection} (hs : s ∈ block) (ht : t ∈ block') :
    t.parent ≠ some s.id := by
  intro hparent
  have hs := h.number_mem hs
  rcases h'.parent t ht with heq | ⟨u, hu, heq, -⟩
  · have heq : (n : Nat) = s.id := Option.some.inj (heq.symm.trans hparent)
    omega
  · have hu := h'.number_mem hu
    rw [Option.some.inj (heq.symm.trans hparent)] at hu
    omega

/-- No reflection registered before is a child of one registered later. -/
theorem parent_ne' (h' : Grove n (base + block.length) W es block') (hn : n < base)
    (h : Grove n base W ds block) {s t : Reflection} (hs : s ∈ block) (ht : t ∈ block') :
    s.parent ≠ some t.id := by
  intro hparent
  have ht := h'.number_mem ht
  rcases h.parent s hs with heq | ⟨u, hu, heq, -⟩
  · have heq : (n : Nat) = t.id := Option.some.inj (heq.symm.trans hparent)
    omega
  · have hu := h.number_mem hu
    rw [Option.some.inj (heq.symm.trans hparent)] at hu
    omega

theorem append (hn : n < base) (h : Grove n base W ds block)
    (h' : Grove n (base + block.length) W es block') :
    Grove n base W (ds ++ es) (block ++ block') where
  numbers := by
    rw [List.map_append, h.numbers, h'.numbers, List.length_append, List.range'_append_1]
  parent := by
    intro s hs
    rcases List.mem_append.mp hs with hs | hs
    · refine (h.parent s hs).imp_right ?_
      rintro ⟨t, ht, hparent⟩
      exact ⟨t, List.mem_append_left _ ht, hparent⟩
    · refine (h'.parent s hs).imp_right ?_
      rintro ⟨t, ht, hparent⟩
      exact ⟨t, List.mem_append_right _ ht, hparent⟩
  own := by
    refine h.own.join h'.own ?_
    intro s hs t ht
    have hs := h.number_mem hs
    have ht := h'.number_mem ht
    exact Nat.ne_of_lt (by omega)
  kids := by
    intro s hs
    rcases List.mem_append.mp hs with hs | hs
    · exact (h.kids s hs).append_left fun t ht => h'.parent_ne hn h hs ht
    · exact (h'.kids s hs).append_right fun t ht => h'.parent_ne' hn h ht hs

/-- A reflection is put around what was read inside it. -/
theorem nest {child : Reflection} {kids : List ReflectionId} (hn : n < base)
    (h : Grove base (base + 1) W kids block) (hid : child.id = base) (hparent : child.parent = some n)
    (hkids : kids.Perm child.childIds) : Grove n base W [base] (child :: block) where
  numbers := by rw [List.map_cons, h.numbers, hid, List.length_cons, List.range'_succ]
  parent := by
    intro s hs
    rcases List.mem_cons.mp hs with rfl | hs
    · exact .inl hparent
    · have hlt := h.number_mem hs
      rcases h.parent s hs with heq | ⟨t, ht, heq⟩
      · exact .inr ⟨child, List.mem_cons_self .., hid ▸ heq, hid ▸ hlt.1⟩
      · exact .inr ⟨t, List.mem_cons_of_mem _ ht, heq⟩
  own := by
    refine ⟨by simp, ?_, ?_⟩
    · intro d hd
      obtain rfl := List.mem_singleton.mp hd
      exact ⟨child, List.mem_cons_self .., hid, hparent⟩
    · intro _ t ht heq
      rcases List.mem_cons.mp ht with rfl | ht
      · exact List.mem_singleton.mpr hid
      · rcases h.parent t ht with hbase | ⟨u, hu, hu', -⟩
        · have hsame : base = n := Option.some.inj (hbase.symm.trans heq)
          omega
        · have hu := h.number_mem hu
          rw [Option.some.inj (hu'.symm.trans heq)] at hu
          omega
  kids := by
    intro s hs
    have hchild : ∀ p, n ≠ p → ∀ t ∈ [child], t.parent ≠ some p := by
      intro p hp t ht heq
      obtain rfl := List.mem_singleton.mp ht
      exact hp (Option.some.inj (hparent.symm.trans heq))
    rcases List.mem_cons.mp hs with rfl | hs
    · rw [hid]
      exact (h.own.perm hkids).append_right (hchild base (by omega))
    · have hlt := h.number_mem hs
      exact (h.kids s hs).append_right (hchild s.id (by omega))

end Grove

/-! ### Work put off -/

/-- No grouping is known yet, and no target of a reference. -/
def Variant.Plain : Variant → Prop
  | .project d => d.container.groups = none ∧ d.container.categories = none
  | .declaration d => d.container.groups = none ∧ d.container.categories = none
  | .reference t => t = .broken
  | _ => True

/-- A reflection as the first pass leaves it: if it points at anything, it is to be looked at again. -/
structure Reflection.Raw (r : Reflection) (queue : List Deferred) : Prop where
  plain : r.variant.Plain
  old : ∀ a ∈ r.aims, a.isOld = true
  noted : r.aims ≠ [] → .pendingTargets r.id ∈ queue

theorem Reflection.Raw.mono {r : Reflection} {queue queue' : List Deferred} (h : r.Raw queue)
    (hsub : ∀ d ∈ queue, d ∈ queue') : r.Raw queue' :=
  ⟨h.plain, h.old, fun haims => hsub _ (h.noted haims)⟩

/-- What an action adds to the state while the fields of `n` are read. -/
structure Crop.Sound (n base : Nat) (W : Prop) (ds : List ReflectionId) (y : Crop) : Prop where
  grove : Grove n base W ds y.block
  subject : ∀ d ∈ y.queue, d.subject? = some n ∨ ∃ s ∈ y.block, d.subject? = some s.id
  old : ∀ d ∈ y.queue, ∀ a ∈ d.aims, a.isOld = true
  raw : ∀ s ∈ y.block, s.Raw y.queue
  entries : ∀ entry ∈ y.ids, ∃ s ∈ y.block, s.id = entry.2

namespace Crop.Sound

variable {n base : Nat} {W : Prop} {ds es : List ReflectionId} {y z : Crop}

theorem light (k : Nat) : Sound n base W [] (.light k) where
  grove := .nil
  subject := by simp [Crop.light]
  old := by simp [Crop.light]
  raw := by simp [Crop.light]
  entries := by simp [Crop.light]

theorem none : Sound n base W [] .none := light 0

/-- Work about `n` itself is put off. -/
theorem work {d : Deferred} (hsubject : d.subject? = some n) (hold : ∀ a ∈ d.aims, a.isOld = true) :
    Sound n base W [] (.work d) where
  grove := .nil
  subject := by
    intro e he
    obtain rfl := List.mem_singleton.mp he
    exact .inl hsubject
  old := by
    intro e he
    obtain rfl := List.mem_singleton.mp he
    exact hold
  raw := by simp [Crop.work]
  entries := by simp [Crop.work]

theorem perm (h : Sound n base W ds y) (hperm : ds.Perm es) : Sound n base W es y :=
  ⟨h.grove.perm hperm, h.subject, h.old, h.raw, h.entries⟩

theorem drop (h : Sound n base W ds y) (hW : ¬ W) : Sound n base W [] y :=
  ⟨h.grove.drop hW, h.subject, h.old, h.raw, h.entries⟩

theorem append (hn : n < base) (h : Sound n base W ds y)
    (h' : Sound n (base + y.block.length) W es z) : Sound n base W (ds ++ es) (y ++ z) where
  grove := h.grove.append hn h'.grove
  subject := by
    intro d hd
    rcases List.mem_append.mp hd with hd | hd
    · refine (h.subject d hd).imp_right ?_
      rintro ⟨s, hs, hsubject⟩
      exact ⟨s, List.mem_append_left _ hs, hsubject⟩
    · refine (h'.subject d hd).imp_right ?_
      rintro ⟨s, hs, hsubject⟩
      exact ⟨s, List.mem_append_right _ hs, hsubject⟩
  old := by
    intro d hd
    rcases List.mem_append.mp hd with hd | hd
    · exact h.old d hd
    · exact h'.old d hd
  raw := by
    intro s hs
    rcases List.mem_append.mp hs with hs | hs
    · exact (h.raw s hs).mono fun d hd => List.mem_append_left _ hd
    · exact (h'.raw s hs).mono fun d hd => List.mem_append_right _ hd
  entries := by
    intro e he
    rcases List.mem_append.mp he with he | he
    · obtain ⟨s, hs, hid⟩ := h.entries e he
      exact ⟨s, List.mem_append_left _ hs, hid⟩
    · obtain ⟨s, hs, hid⟩ := h'.entries e he
      exact ⟨s, List.mem_append_right _ hs, hid⟩

/-- A reflection is put around what was read inside it. -/
theorem nest (child : Reflection) {kids : List ReflectionId} {entries : List (Nat × ReflectionId)}
    (hn : n < base) (h : Sound base (base + 1) W kids y) (hid : child.id = base)
    (hparent : child.parent = some n) (hkids : kids.Perm child.childIds) (hraw : child.Raw y.queue)
    (hentries : ∀ entry ∈ entries, entry.2 = base) :
    Sound n base W [base] ⟨child :: y.block, entries ++ y.ids, y.queue, y.pending⟩ where
  grove := h.grove.nest hn hid hparent hkids
  subject := by
    intro d hd
    right
    rcases h.subject d hd with hsubject | ⟨s, hs, hsubject⟩
    · exact ⟨child, List.mem_cons_self .., hid ▸ hsubject⟩
    · exact ⟨s, List.mem_cons_of_mem _ hs, hsubject⟩
  old := h.old
  raw := by
    intro s hs
    rcases List.mem_cons.mp hs with rfl | hs
    · exact hraw
    · exact h.raw s hs
  entries := by
    intro e he
    rcases List.mem_append.mp he with he | he
    · exact ⟨child, List.mem_cons_self .., hid.trans (hentries e he).symm⟩
    · obtain ⟨s, hs, hid⟩ := h.entries e he
      exact ⟨s, List.mem_cons_of_mem _ hs, hid⟩

end Crop.Sound

end DocTree
