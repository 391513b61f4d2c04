import Mathlib.Data.List.Nodup
import DocTree.Proofs.Registry.Structural

/-!
Where a reflection is met when the children of its parent are gone through. Most slots take any
number of children. An accessor has one getter and one setter: putting another into such a slot pushes
out the child that stood there, which stays registered under its parent and is met no more until it is
moved. Every other reflection is met exactly once.
-/

namespace DocTree

/-- The slots for one child. -/
def Role.isSingle : Role → Bool
  | .getSignature | .setSignature => true
  | _ => false

theorem Reflection.traverse_all (r : Reflection) :
    r.traverse (fun _ _ => false) = (r.structuralChildren, false) := by
  have hgo : ∀ l, traverse.go (fun _ _ => false) l = (l, false) := by
    intro l
    induction l with
    | nil => rfl
    | cons entry rest ih =>
      obtain ⟨id, role⟩ := entry
      simp only [traverse.go, Bool.false_eq_true, if_false, ih]
  exact hgo _

namespace Variant

variable {v w : Variant} {c : ReflectionId} {role : Role}

/-- A child is put at the end of a slot, or in place of the one child that stands there. -/
theorem slot_attach? (h : v.attach? c role = some w) (hrole : role ≠ .typeLiteral) (other : Role) :
    w.slot other = if other = role then (if role.isSingle then [c] else v.slot role ++ [c])
      else v.slot other := by
  cases v <;> cases role <;> cases h <;>
    first
    | exact absurd rfl hrole
    | cases other <;> rfl

theorem eq_slot_of_mem_slots {entry : Role × List ReflectionId} (h : entry ∈ v.slots) :
    entry.2 = v.slot entry.1 := by
  have hslots : v.slots = v.slots.map fun e => (e.1, v.slot e.1) := by cases v <;> rfl
  rw [hslots] at h
  obtain ⟨e, -, rfl⟩ := List.mem_map.mp h
  rfl

theorem nodup_roles (v : Variant) : (v.slots.map (·.1)).Nodup := by
  cases v <;> simp [slots]

/-- No child is met twice when no slot holds one twice and no two slots share one. -/
theorem nodup_childIds (hslot : ∀ role, (v.slot role).Nodup)
    (hone : ∀ c role other, c ∈ v.slot role → c ∈ v.slot other → other = role) :
    v.childIds.Nodup := by
  rw [childIds_eq, List.nodup_flatMap]
  refine ⟨fun entry hentry => eq_slot_of_mem_slots hentry ▸ hslot _, ?_⟩
  have hroles : v.slots.Pairwise fun a b => a.1 ≠ b.1 := List.pairwise_map.mp v.nodup_roles
  refine hroles.imp_of_mem fun {a b} ha hb hne c hca hcb => hne ?_
  have ha' : c ∈ v.slot a.1 := eq_slot_of_mem_slots ha ▸ hca
  have hb' : c ∈ v.slot b.1 := eq_slot_of_mem_slots hb ▸ hcb
  exact (hone c a.1 b.1 ha' hb').symm

end Variant

namespace Project

variable {p q b : Project} {id parent old child : ReflectionId} {role : Role} {r : Reflection}
  {name : String} {lost lost' : List ReflectionId} {c : Project.Command}

/-- Commands that put reflections into slots as they were made, and those that take them out. -/
def Seating (_ : Project) : Command → Prop
  | .add _ role r => role ≠ .typeLiteral ∧ r.structuralChildren = []
  | .reparent _ _ role => role ≠ .typeLiteral
  | .remove _ => True
  | _ => False

/-- The child that another one pushes out of a slot. -/
def evicted (p : Project) (parent : ReflectionId) (role : Role) : List ReflectionId :=
  if role.isSingle then (p.get? parent).elim [] (·.variant.slot role) else []

/-- What has lost its place after a command: what was pushed out before or is now, unless it is what
the command moves. -/
def lostAfter (p : Project) (lost : List ReflectionId) : Command → List ReflectionId
  | .add parent role _ => p.evicted parent role ++ lost
  | .reparent id parent role =>
    if p.contains id then (p.evicted parent role ++ lost).filter (· ≠ id) else lost
  | _ => lost

/-- A run of seating commands, with what has lost its place on the way. -/
inductive SeatingRun (name : String) : Project → List ReflectionId → Prop where
  | new : SeatingRun name (ofName name) []
  | step {p q : Project} {lost new : List ReflectionId} {c : Command} : SeatingRun name p lost →
      p.Seating c → p.perform c = .ok (q, new) → SeatingRun name q (p.lostAfter lost c)

theorem SeatingRun.after (h : SeatingRun name p lost) (hc : p.Seating c)
    (hok : (p.perform c).isOk = true) : SeatingRun name (p.after c) (p.lostAfter lost c) :=
  .step h hc (perform_after hok)

theorem Seating.proper (h : p.Seating c) : p.Proper c := by
  cases c with
  | add parent role r => exact h.2
  | reparent id parent role => trivial
  | remove id => trivial
  | _ => exact h.elim

/-! ### The places in a registry -/

/-- No slot holds a child twice, types own nothing, and every reflection stands in a slot of its
parent, but for those that have lost their place: they stand nowhere. -/
structure Seats (p : Project) (lost : List ReflectionId) : Prop where
  nodup : ∀ i r role, p.get? i = some r → (r.variant.slot role).Nodup
  bare : ∀ i r, p.get? i = some r → r.variant.slot .typeLiteral = []
  seat : ∀ i a, p.parent? i = some a → i ∉ lost →
    ∃ r role, p.get? a = some r ∧ i ∈ r.variant.slot role
  out : ∀ i ∈ lost, ∀ j r role, p.get? j = some r → i ∉ r.variant.slot role

theorem Seats.congr (h : Seats p lost) (hlost : ∀ i, i ∈ lost' ↔ i ∈ lost) : Seats p lost' where
  nodup := h.nodup
  bare := h.bare
  seat i a ha hi := h.seat i a ha fun hmem => hi ((hlost i).mpr hmem)
  out i hi := h.out i ((hlost i).mp hi)

/-- What stands in no slot may be counted as lost. -/
theorem Seats.cons (h : Seats p lost) (hloose : p.LooseSlots id) : Seats p (id :: lost) where
  nodup := h.nodup
  bare := h.bare
  seat i a ha hi := h.seat i a ha fun hmem => hi (List.mem_cons_of_mem id hmem)
  out i hi j r role hr hmem := by
    rcases List.mem_cons.mp hi with rfl | hi
    · exact (hloose j r role i hr hmem).1 rfl
    · exact h.out i hi j r role hr hmem

/-- Slots may lose what is counted as lost or gone. -/
theorem Seats.filtered (keep : ReflectionId → Bool) (h : Seats p lost)
    (hslots : ∀ i r', q.get? i = some r' → ∃ r, p.get? i = some r ∧
      ∀ role, r'.variant.slot role = (r.variant.slot role).filter keep)
    (hseat : ∀ i a, q.parent? i = some a → i ∉ lost' →
      p.parent? i = some a ∧ q.contains a = true ∧ keep i = true ∧ i ∉ lost)
    (hout : ∀ i ∈ lost', i ∈ lost ∨ keep i = false) : Seats q lost' where
  nodup i r' role hr' := by
    obtain ⟨r, hr, hslot⟩ := hslots i r' hr'
    rw [hslot]
    exact (h.nodup i r role hr).filter _
  bare i r' hr' := by
    obtain ⟨r, hr, hslot⟩ := hslots i r' hr'
    rw [hslot, h.bare i r hr]
    rfl
  seat i a ha hi := by
    obtain ⟨hp, hqa, hkeep, hlost⟩ := hseat i a ha hi
    obtain ⟨r, role, hr, hmem⟩ := h.seat i a hp hlost
    obtain ⟨r', hr'⟩ := contains_iff.mp hqa
    obtain ⟨s, hs, hslot⟩ := hslots a r' hr'
    obtain rfl := Option.some.inj (hs.symm.trans hr)
    exact ⟨r', role, hr', hslot role ▸ List.mem_filter.mpr ⟨hmem, hkeep⟩⟩
  out i hi j r' role hr' hmem := by
    obtain ⟨r, hr, hslot⟩ := hslots j r' hr'
    rw [hslot, List.mem_filter] at hmem
    rcases hout i hi with hlost | hkeep
    · exact h.out i hlost j r role hr hmem.1
    · rw [hkeep] at hmem
      cases hmem.2

/-! ### Putting a child into a slot -/

/-- One slot of the parent takes the child, every other slot is as it was, and a new reflection has
empty slots. -/
def Seated (b q : Project) (child parent : ReflectionId) (role : Role) : Prop :=
  ∀ i r', q.get? i = some r' →
    (∃ r, b.get? i = some r ∧ ∀ other, r'.variant.slot other =
      if i = parent ∧ other = role then
        (if role.isSingle then [child] else r.variant.slot role ++ [child])
      else r.variant.slot other) ∨
    (b.get? i = none ∧ ∀ other, r'.variant.slot other = [])

theorem mem_evicted {i : ReflectionId} : i ∈ p.evicted parent role ↔
    role.isSingle = true ∧ ∃ r, p.get? parent = some r ∧ i ∈ r.variant.slot role := by
  rw [evicted]
  by_cases hsingle : role.isSingle = true
  · cases hr : p.get? parent with
    | none => simp
    | some r => simp [hsingle]
  · simp [hsingle]

section Placed

variable (h : Seats b lost) (hseated : Seated b q child parent role)

include h hseated

theorem Seats.nodup_placed (hchild : child ∈ lost) {i : ReflectionId} {r' : Reflection} {other : Role}
    (hr' : q.get? i = some r') : (r'.variant.slot other).Nodup := by
  rcases hseated i r' hr' with ⟨r, hr, hslot⟩ | ⟨-, hslot⟩
  · rw [hslot]
    split
    · split
      · exact List.nodup_singleton child
      · refine List.nodup_append.mpr ⟨h.nodup i r role hr, List.nodup_singleton child, ?_⟩
        rintro a ha c hc rfl
        obtain rfl := List.mem_singleton.mp hc
        exact h.out a hchild i r role hr ha
    · exact h.nodup i r other hr
  · rw [hslot]
    exact List.nodup_nil

/-- What stood in a slot and was not pushed out stands there still. -/
theorem Seats.seat_placed (hplaced : Placed b q child parent) {i a : ReflectionId} {r' : Reflection}
    (ha : q.parent? i = some a) (hr' : q.get? a = some r') (hne : i ≠ child)
    (hevicted : i ∉ b.evicted parent role) (hlost : i ∉ lost) :
    ∃ other, i ∈ r'.variant.slot other := by
  rw [hplaced.parent?_of_ne hne] at ha
  obtain ⟨s, other, hs, hmem⟩ := h.seat i a ha hlost
  rcases hseated a r' hr' with ⟨r, hr, hslot⟩ | ⟨hnone, -⟩
  · obtain rfl := Option.some.inj (hs.symm.trans hr)
    refine ⟨other, ?_⟩
    rw [hslot]
    split
    · next heq =>
      obtain ⟨rfl, rfl⟩ := heq
      rw [if_neg fun hsingle => hevicted (mem_evicted.mpr ⟨hsingle, s, hs, hmem⟩)]
      exact List.mem_append_left _ hmem
    · exact hmem
  · rw [hnone] at hs
    cases hs

/-- What has lost its place stands nowhere, unless it is the child that gets one. -/
theorem Seats.out_placed (hloose : b.LooseSlots child) {i j : ReflectionId} {r' : Reflection}
    {other : Role} (hi : i ∈ b.evicted parent role ++ lost) (hne : i ≠ child)
    (hr' : q.get? j = some r') : i ∉ r'.variant.slot other := by
  intro hmem
  rcases hseated j r' hr' with ⟨r, hr, hslot⟩ | ⟨-, hslot⟩
  · rw [hslot] at hmem
    rcases List.mem_append.mp hi with hi | hi
    · obtain ⟨hsingle, s, hs, hold⟩ := mem_evicted.mp hi
      split at hmem
      · exact hne (List.mem_singleton.mp hmem)
      · next hother =>
        -- What was pushed out stood in the one slot alone.
        obtain ⟨-, hj, honly⟩ := hloose j r other i hr hmem
        obtain ⟨-, hparent, -⟩ := hloose parent s role i hs hold
        obtain rfl := Option.some.inj (hj.symm.trans hparent)
        obtain rfl := Option.some.inj (hs.symm.trans hr)
        exact hother ⟨rfl, (honly role hold).symm⟩
    · split at hmem
      · split at hmem
        · exact hne (List.mem_singleton.mp hmem)
        · rcases List.mem_append.mp hmem with hmem | hmem
          · exact h.out i hi j r role hr hmem
          · exact hne (List.mem_singleton.mp hmem)
      · exact h.out i hi j r other hr hmem
  · rw [hslot] at hmem
    cases hmem

/-- A child that stood nowhere gets its place, and takes that of another one in a slot for one. -/
theorem Seats.placed (hchild : child ∈ lost) (hloose : b.LooseSlots child)
    (hrole : role ≠ .typeLiteral) (hparent : b.contains parent = true)
    (hplaced : Placed b q child parent) (hq : q.Numbered) :
    Seats q ((b.evicted parent role ++ lost).filter (· ≠ child)) where
  nodup i r' other hr' := h.nodup_placed hseated hchild hr'
  bare i r' hr' := by
    rcases hseated i r' hr' with ⟨r, hr, hslot⟩ | ⟨-, hslot⟩
    · rw [hslot, if_neg fun heq => hrole heq.2.symm]
      exact h.bare i r hr
    · exact hslot _
  seat i a ha hi := by
    obtain ⟨r', hr'⟩ := contains_iff.mp (hq.contains_parent ha)
    by_cases hne : i = child
    · -- The child stands where it was put.
      subst hne
      obtain rfl := Option.some.inj (hplaced.parent?_self.symm.trans ha)
      rcases hseated parent r' hr' with ⟨r, hr, hslot⟩ | ⟨hnone, -⟩
      · refine ⟨r', role, hr', ?_⟩
        rw [hslot, if_pos ⟨rfl, rfl⟩]
        split <;> simp
      · exact absurd hparent (not_contains_iff.mpr hnone)
    · have hkept : i ∉ b.evicted parent role ++ lost := fun hmem =>
        hi (List.mem_filter.mpr ⟨hmem, by simpa using hne⟩)
      obtain ⟨other, hmem⟩ := h.seat_placed hseated hplaced ha hr' hne
        (fun hmem => hkept (List.mem_append_left _ hmem)) fun hmem =>
          hkept (List.mem_append_right _ hmem)
      exact ⟨r', other, hr', hmem⟩
  out i hi j r' other hr' := by
    obtain ⟨hi, hne⟩ := List.mem_filter.mp hi
    exact h.out_placed hseated hloose hi (by simpa using hne) hr'

end Placed

/-! ### Each command -/

theorem Variant.slot_eq_nil (h : r.structuralChildren = []) (role : Role) :
    r.variant.slot role = [] := by
  refine List.eq_nil_iff_forall_not_mem.mpr fun c hc => ?_
  have hmem : (c, role) ∈ r.structuralChildren := Variant.mem_structuralChildren.mpr hc
  rw [h] at hmem
  cases hmem

theorem seated_add (hadd : p.add parent role r = .ok (q, id)) (hrole : role ≠ .typeLiteral)
    (hnew : r.structuralChildren = []) : Seated p q id parent role := by
  obtain ⟨hid, -, rp, v, hrp, hv, hget, -⟩ := add_eq_ok hadd
  intro i r' hr'
  rw [hget] at hr'
  split at hr'
  · rename_i hi
    obtain rfl := Option.some.inj hr'
    refine .inr ⟨get?_eq_none_of_size_le (Nat.le_of_eq (hi.trans hid).symm), fun other => ?_⟩
    exact Variant.slot_eq_nil hnew other
  · split at hr'
    · rename_i hpi
      subst hpi
      obtain rfl := Option.some.inj hr'
      refine .inl ⟨rp, hrp, fun other => ?_⟩
      simp only [Variant.slot_attach? hv hrole, true_and]
    · rename_i hpi
      exact .inl ⟨r', hr', fun other => (if_neg fun heq => hpi heq.1.symm).symm⟩

theorem Seats.add (h : Seats p lost) (hl : p.Linked) (hp : p.Numbered)
    (hold : ∀ i ∈ lost, i < p.arena.size) (hadd : p.add parent role r = .ok (q, id))
    (hrole : role ≠ .typeLiteral) (hnew : r.structuralChildren = []) :
    Seats q (p.evicted parent role ++ lost) := by
  obtain ⟨hid, -, rp, v, hrp, -⟩ := add_eq_ok hadd
  have hloose : p.LooseSlots id :=
    hl.looseSlots_of_not_contains (get?_eq_none_of_size_le (Nat.le_of_eq hid.symm))
  refine ((h.cons hloose).placed (seated_add hadd hrole hnew) (List.mem_cons_self ..) hloose hrole
    (contains_of_get? hrp) (placed_add hadd) (hp.add hadd)).congr fun i => ?_
  have hne : ∀ j ∈ p.evicted parent role ++ lost, j ≠ id := by
    rintro j hj rfl
    rcases List.mem_append.mp hj with hj | hj
    · obtain ⟨-, s, hs, hmem⟩ := mem_evicted.mp hj
      exact (hloose parent s role j hs hmem).1 rfl
    · exact Nat.lt_irrefl _ (hid ▸ hold j hj)
  simp only [List.mem_filter, List.mem_append, List.mem_cons, decide_not, Bool.not_eq_true',
    decide_eq_false_iff_not]
  constructor
  · intro hi
    exact ⟨hi.imp_right .inr, hne i (List.mem_append.mpr hi)⟩
  · rintro ⟨hi | rfl | hi, hid'⟩
    · exact .inl hi
    · exact absurd rfl hid'
    · exact .inr hi

/-- Taking a child out of its parent takes it out of every slot. -/
theorem Seats.slots_takeOut (h : Seats p lost) (hl : p.Linked) (hold : p.parent? id = some old)
    {i : ReflectionId} {r' : Reflection} (hr' : (p.takeOut old id).get? i = some r') :
    ∃ r, p.get? i = some r ∧ ∀ role,
      r'.variant.slot role = (r.variant.slot role).filter (· ≠ id) := by
  rcases get?_takeOut hold hr' with ⟨hr, hnot⟩ | ⟨rfl, r, vacated, hr, rfl, hmem⟩
  · refine ⟨r', hr, fun role => (List.filter_eq_self.mpr fun c hc => decide_eq_true ?_).symm⟩
    rintro rfl
    exact hnot (Option.some.inj ((hl i r' role c hr hc).1.symm.trans hold)) role hc
  · have hvacated : vacated ≠ .typeLiteral := by
      rintro rfl
      rw [h.bare i r hr] at hmem
      cases hmem
    refine ⟨r, hr, fun role => ?_⟩
    by_cases hliteral : role = .typeLiteral
    · subst hliteral
      rw [Variant.literals_eq_slot, ← Reflection.literals, Reflection.literals_detach hvacated,
        Reflection.literals, ← Variant.literals_eq_slot, h.bare i r hr]
      rfl
    · rw [Variant.slot_of_frame Reflection.frame_detach,
        Variant.vacate_eq_prune (hl i r vacated id hr hmem).2, Variant.slot_prune hliteral]
      simp

/-- A child taken out of its parent has lost its place; all else stays where it is. -/
theorem Seats.takeOut (h : Seats p lost) (hl : p.Linked) (hp : p.Numbered)
    (hold : p.parent? id = some old) : Seats (p.takeOut old id) (id :: lost) := by
  have houtline : (p.takeOut old id).outline = p.outline := outline_takeOut
  refine h.filtered (· ≠ id) (fun i r' hr' => h.slots_takeOut hl hold hr') (fun i a ha hi => ?_)
    fun i hi => ?_
  · rw [parent?_of_outline houtline] at ha
    refine ⟨ha, (contains_of_outline houtline a).trans (hp.contains_parent ha), ?_, ?_⟩
    · simpa using fun heq : i = id => hi (heq ▸ List.mem_cons_self ..)
    · exact fun hmem => hi (List.mem_cons_of_mem id hmem)
  · rcases List.mem_cons.mp hi with rfl | hi
    · exact .inr (by simp)
    · exact .inl hi

theorem seated_reparent {rp : Reflection} {v : Variant} (hrp : b.get? parent = some rp)
    (hv : rp.variant.attach? id role = some v) (hrole : role ≠ .typeLiteral) :
    Seated b ((((b.put parent (some { rp with variant := v })).update id fun r =>
      { r with parent := some parent }).enterChild parent id).forgetGraph) id parent role := by
  intro i r' hr'
  have hput : ∀ s, (b.put parent (some { rp with variant := v })).get? i = some s →
      ∃ r, b.get? i = some r ∧ ∀ other, s.variant.slot other =
        if i = parent ∧ other = role then
          (if role.isSingle then [id] else r.variant.slot role ++ [id])
        else r.variant.slot other := by
    intro s hs
    rw [get?_put_of_lt (lt_size_of_get? hrp)] at hs
    split at hs
    · rename_i hi
      subst hi
      obtain rfl := Option.some.inj hs
      refine ⟨rp, hrp, fun other => ?_⟩
      simp only [Variant.slot_attach? hv hrole, true_and]
    · rename_i hi
      exact ⟨s, hs, fun other => (if_neg fun heq => hi heq.1.symm).symm⟩
  have hr' : ((b.put parent (some { rp with variant := v })).update id fun r =>
      { r with parent := some parent }).get? i = some r' := hr'
  rw [get?_update] at hr'
  split at hr'
  · obtain ⟨s, hs, rfl⟩ := Option.map_eq_some_iff.mp hr'
    exact .inl (hput s hs)
  · exact .inl (hput r' hr')

theorem Seats.reparent (h : Seats p lost) (hl : p.Linked) (hp : p.Numbered)
    (hmove : p.reparent id parent role = .ok q) (hrole : role ≠ .typeLiteral) :
    Seats q (p.lostAfter lost (.reparent id parent role)) := by
  rcases reparent_eq_ok hmove with ⟨hnone, rfl⟩ | ⟨old, rp, v, hold, hrp, hv, hq⟩
  · -- Only what is not registered stays where it is.
    have hid : ¬ q.contains id = true := by
      intro hid
      have hne : id ≠ ReflectionId.project := by
        rintro rfl
        rw [Project.reparent, if_pos (by decide)] at hmove
        cases hmove
      obtain ⟨a, ha, -⟩ := hp.parent?_of_ne_root hid hne
      rw [hnone] at ha
      cases ha
    rw [lostAfter, if_neg hid]
    exact h
  · have hloose : (p.takeOut old id).LooseSlots id := hl.takeOut hold
    have hplaced : Placed (p.takeOut old id) q id parent := by
      rcases placed_reparent hp hmove with ⟨hnone, -⟩ | ⟨old', hold', hplaced, -⟩
      · rw [hnone] at hold
        cases hold
      · obtain rfl := Option.some.inj (hold.symm.trans hold')
        exact hplaced
    have hseated : Seated (p.takeOut old id) q id parent role :=
      hq ▸ seated_reparent hrp hv hrole
    refine ((h.takeOut hl hp hold).placed hseated (List.mem_cons_self ..) hloose hrole
      (contains_of_get? hrp) hplaced (hp.reparent hmove)).congr fun i => ?_
    rw [lostAfter, if_pos (contains_of_parent? hold)]
    -- Taking the child out changes no slot but for the child itself.
    have hevicted : i ≠ id → (i ∈ (p.takeOut old id).evicted parent role ↔
        i ∈ p.evicted parent role) := by
      intro hne
      obtain ⟨s, hs, hslot⟩ := h.slots_takeOut hl hold hrp
      rw [mem_evicted, mem_evicted, hrp, hs]
      simp only [Option.some.injEq, exists_eq_left', hslot, List.mem_filter, decide_eq_true_eq,
        hne, ne_eq, not_false_eq_true, and_true]
    simp only [List.mem_filter, List.mem_append, List.mem_cons, decide_eq_true_eq]
    constructor
    · rintro ⟨hi, hne⟩
      exact ⟨hi.imp (hevicted hne).mpr .inr, hne⟩
    · rintro ⟨hi | rfl | hi, hne⟩
      · exact ⟨.inl ((hevicted hne).mp hi), hne⟩
      · exact absurd rfl hne
      · exact ⟨.inr hi, hne⟩

/-- A removal takes what is gone out of the slots, and nothing else. -/
theorem Seats.removed {x : ReflectionId} (h : Seats p lost) (hl : p.Linked)
    (hr : Removed p x q) (hq : q.Numbered) : Seats q lost := by
  refine h.filtered (fun c => !gone p q c) (fun i r' hr' => ?_) (fun i a ha hi => ?_)
    fun i hi => .inl hi
  · obtain ⟨r, hri, -⟩ := hr.held i r' hr'
    have hshape := hr.shape hl.ownSlots i r r' hri hr'
    refine ⟨r, hri, fun role => ?_⟩
    by_cases hliteral : role = .typeLiteral
    · subst hliteral
      have hnone : r'.variant.slot .typeLiteral = [] := by
        refine List.eq_nil_iff_forall_not_mem.mpr fun c hc => ?_
        have hmem := (Variant.mem_slot_prune (Variant.slot_of_frame hshape .typeLiteral ▸ hc)).1
        rw [h.bare i r hri] at hmem
        cases hmem
      rw [hnone, h.bare i r hri]
      rfl
    · rw [Variant.slot_of_frame hshape, Variant.slot_prune hliteral]
  · have hqi := contains_of_parent? ha
    rw [hr.contains, Bool.and_eq_true] at hqi
    exact ⟨(hr.parent? (contains_of_parent? ha)).symm.trans ha, hq.contains_parent ha, hqi.2, hi⟩

/-! ### Whole runs -/

theorem seats_ofName (name : String) : Seats (ofName name) [] := by
  have hslot : ∀ i r role, (ofName name).get? i = some r → r.variant.slot role = [] := by
    intro i r role hr
    match i with
    | 0 =>
      obtain rfl := Option.some.inj hr
      exact Variant.slot_eq_nil (r := Reflection.project name) rfl role
    | i + 1 => cases hr
  refine ⟨fun i r role hr => ?_, fun i r hr => hslot i r _ hr, fun i a ha _ => ?_, by simp⟩
  · rw [hslot i r role hr]
    exact List.nodup_nil
  · obtain ⟨r, hr, hparent⟩ := parent?_eq_some_iff.mp ha
    match i with
    | 0 =>
      obtain rfl := Option.some.inj hr
      cases hparent
    | i + 1 => cases hr

/-- One command of a run keeps the places. -/
theorem Seats.perform {new : List ReflectionId} (h : Seats p lost) (hs : p.Sound) (hl : p.Linked)
    (hold : ∀ i ∈ lost, i < p.arena.size) (hc : p.Seating c) (hq : p.perform c = .ok (q, new)) :
    Seats q (p.lostAfter lost c) ∧ ∀ i ∈ p.lostAfter lost c, i < q.arena.size := by
  have hevicted : ∀ parent role, ∀ i ∈ p.evicted parent role, i < p.arena.size := by
    intro parent role i hi
    obtain ⟨-, r, hr, hmem⟩ := mem_evicted.mp hi
    exact lt_size_of_contains (contains_of_parent? (hl parent r role i hr hmem).1)
  have hboth : ∀ parent role, ∀ i ∈ p.evicted parent role ++ lost, i < p.arena.size :=
    fun parent role i hi => (List.mem_append.mp hi).elim (hevicted parent role i) (hold i)
  cases c with
  | add parent role r =>
    obtain ⟨⟨q', id⟩, hadd, ⟨⟩⟩ := map_eq_ok hq
    refine ⟨h.add hl hs.numbered hold hadd hc.1 hc.2, fun i hi => ?_⟩
    obtain ⟨-, -, rp, v, -, -, -, hsize, -⟩ := add_eq_ok hadd
    exact hsize ▸ Nat.lt_succ_of_lt (hboth parent role i hi)
  | reparent id parent role =>
    obtain ⟨q', hmove, ⟨⟩⟩ := map_eq_ok hq
    refine ⟨h.reparent hl hs.numbered hmove hc, fun i hi => size_reparent hmove ▸ ?_⟩
    rw [lostAfter] at hi
    split at hi
    · exact hboth parent role i (List.mem_filter.mp hi).1
    · exact hold i hi
  | remove id =>
    obtain ⟨q', hremove, ⟨⟩⟩ := map_eq_ok hq
    obtain ⟨hne, rfl⟩ := remove_eq_ok hremove
    by_cases hx : p.contains id = true
    · have hr := removed_spec hs.numbered hs.graph hx hne
      exact ⟨h.removed hl hr (hr.numbered hs.numbered), fun i hi => hr.size ▸ hold i hi⟩
    · rw [removed_of_not_contains (not_contains_iff.mp hx)]
      exact ⟨h, hold⟩
  | _ => exact hc.elim

theorem SeatingRun.seats (h : SeatingRun name p lost) :
    p.Sound ∧ p.Linked ∧ Seats p lost ∧ ∀ i ∈ lost, i < p.arena.size := by
  induction h with
  | new => exact ⟨sound_ofName name, linked_ofName name, seats_ofName name, by simp⟩
  | step _ hc hq ih =>
    obtain ⟨hs, hl, hseats, hold⟩ := ih
    exact ⟨hs.perform hc.proper.keepsOutline hq, hl.perform hs hc.proper hq,
      hseats.perform hs hl hold hc hq⟩

/-- After every run of seating commands, going through the children of its parent meets a reflection
once; only what was pushed out of the slot of a getter or setter, and not moved since, is met not at
all. -/
theorem count_traverse (h : SeatingRun name p lost) {i : ReflectionId} (hi : p.contains i = true)
    (hne : i ≠ ReflectionId.project) : ∃ a r, p.parent? i = some a ∧ p.get? a = some r ∧
      ((r.traverse fun _ _ => false).1.map (·.1)).count i = if i ∈ lost then 0 else 1 := by
  obtain ⟨hs, hl, hseats, -⟩ := h.seats
  obtain ⟨a, ha, hcontains⟩ := hs.numbered.parent?_of_ne_root hi hne
  obtain ⟨r, hr⟩ := contains_iff.mp hcontains
  refine ⟨a, r, ha, hr, ?_⟩
  rw [Reflection.traverse_all]
  change r.variant.childIds.count i = _
  split
  · rename_i hlost
    refine List.count_eq_zero.mpr fun hmeet => ?_
    obtain ⟨role, hrole⟩ := Variant.mem_childIds.mp hmeet
    exact hseats.out i hlost a r role hr hrole
  · rename_i hlost
    have hnodup : r.variant.childIds.Nodup := Variant.nodup_childIds
      (fun role => hseats.nodup a r role hr) fun c role other hc ho =>
        (hl a r role c hr hc).2 other ho
    obtain ⟨s, role, hs', hrole⟩ := hseats.seat i a ha hlost
    obtain rfl := Option.some.inj (hs'.symm.trans hr)
    exact List.count_eq_one_of_mem hnodup (Variant.mem_childIds.mpr ⟨role, hrole⟩)

/-- Of two getters the first is met no more. -/
theorem count_traverse_getter :
    let p := (((ofName "p").after (.add 0 .children (.declaration "v" .accessor))).after
      (.add 1 .getSignature (.signature "v" .getSignature))).after
      (.add 1 .getSignature (.signature "v" .getSignature))
    SeatingRun "p" p [2] ∧ p.contains 2 = true ∧ p.parent? 2 = some 1 ∧
      ∃ a r, p.parent? 2 = some a ∧ p.get? a = some r ∧
        ((r.traverse fun _ _ => false).1.map (·.1)).count 2 = 0 := by
  intro p
  have h₁ : SeatingRun "p" ((ofName "p").after (.add 0 .children (.declaration "v" .accessor))) [] :=
    SeatingRun.new.after (c := .add 0 .children (.declaration "v" .accessor)) ⟨by decide, rfl⟩ rfl
  have hget : ∀ q : Project, q.Seating (.add 1 .getSignature (.signature "v" .getSignature)) :=
    fun _ => ⟨by decide, rfl⟩
  have h₂ : SeatingRun "p" p [2] := (h₁.after (hget _) rfl).after (hget _) rfl
  exact ⟨h₂, rfl, rfl, count_traverse h₂ rfl (by decide)⟩

/-- Not every registered reflection is met among the children of its parent. -/
theorem not_forall_met : ¬ ∀ (name : String) (p : Project) (ids : List ReflectionId),
    Run Seating (ofName name) ids p → ∀ i, p.contains i = true → i ≠ ReflectionId.project →
      ∃ a r, p.parent? i = some a ∧ p.get? a = some r ∧
        ((r.traverse fun _ _ => false).1.map (·.1)).count i = 1 := by
  intro h
  let p := (((ofName "p").after (.add 0 .children (.declaration "v" .accessor))).after
    (.add 1 .getSignature (.signature "v" .getSignature))).after
    (.add 1 .getSignature (.signature "v" .getSignature))
  have h₁ : Run Seating (ofName "p") [1]
      ((ofName "p").after (.add 0 .children (.declaration "v" .accessor))) :=
    (Run.refl _).after (c := .add 0 .children (.declaration "v" .accessor)) ⟨by decide, rfl⟩ rfl
  have hget : ∀ q : Project, q.Seating (.add 1 .getSignature (.signature "v" .getSignature)) :=
    fun _ => ⟨by decide, rfl⟩
  have h₂ : Run Seating (ofName "p") [1, 2, 3] p := (h₁.after (hget _) rfl).after (hget _) rfl
  obtain ⟨a, r, ha, hr, hcount⟩ := h "p" p _ h₂ 2 rfl (by decide)
  obtain rfl : 1 = a := Option.some.inj ha
  cases hr
  exact absurd hcount (by decide)

end Project

end DocTree
