import DocTree.Proofs.Registry.Orderly
import DocTree.Proofs.Registry.Page
import DocTree.Proofs.Registry.Shelter

/-!
Setting the main type of a reflection. The declarations that only the old type owned are removed one
after the other, each with all that depends on it, and such a removal may take types, other
declarations and references along. What it cannot take is the type that was just set, unless it takes
the reflection itself: that happens only by way of a reference among the declarations that are owned
further up.
-/

namespace DocTree

namespace Variant

variable {v w : Variant} {type : Option Ty}

theorem mainType?_prune (gone : ReflectionId → Bool) (v : Variant) :
    (v.prune gone).mainType? = v.mainType?.map (Ty.clear gone) := by
  cases v <;> rfl

theorem mainType?_of_frame (h : v.frame = w.frame) : v.mainType? = w.mainType? := by
  have hframe (u : Variant) : u.frame.mainType? = u.mainType? := by cases u <;> rfl
  rw [← hframe v, h, hframe]

theorem mainType?_setMainType? (h : v.setMainType? type = some w) : w.mainType? = type := by
  cases v <;> cases h <;> rfl

theorem mem_types_of_mainType? {t : Ty} (h : v.mainType? = some t) : t ∈ v.types := by
  rw [types_eq, h]
  exact List.mem_cons_self

end Variant

theorem mem_declarations_elim {d : ReflectionId} {type : Option Ty} :
    d ∈ type.elim [] Ty.declarations ↔ ∃ t, type = some t ∧ d ∈ t.declarations := by
  cases type <;> simp

namespace Project

variable {p q : Project} {id x d owner : ReflectionId} {type : Option Ty} {r : Reflection}
  {v : Variant} {n : Nat} {ds : List ReflectionId}

/-- The type owns no reference. -/
def Plain (p : Project) (t : Ty) : Prop :=
  ∀ d ∈ t.declarations, ∀ s, p.get? d = some s → s.isReference = false

theorem Plain.targetOf? {t : Ty} {u : ReflectionId} (h : p.Plain t) (hd : d ∈ t.declarations) :
    p.targetOf? d ≠ some u := by
  intro ht
  obtain ⟨s, hs, href⟩ := isReference_of_targetOf? ht
  rw [h d hd s hs] at href
  cases href

theorem Plain.of_held {t : Ty} (h : p.Plain t)
    (hq : ∀ i r', q.get? i = some r' → ∃ r, p.get? i = some r ∧ r'.outline = r.outline) :
    q.Plain t := by
  intro d hd s' hs'
  obtain ⟨s, hs, hout⟩ := hq d s' hs'
  rw [Reflection.isReference_of_outline hout]
  exact h d hd s hs

/-! ### Dropping declarations -/

/-- What holds at first and is kept by the removal of each of the declarations holds in the end. -/
theorem Linked.dropped {P : Project → Prop} (hl : p.Linked) (hp : p.Sound) (owner : ReflectionId)
    (hP : ∀ t q, ∀ d ∈ ds, t.OwnSlots → Removed t d q → P t → P q) (h : P p) :
    P (ds.foldl (dropLiteral owner) p) := by
  have hfold := foldl_dropLiteral_of_mem (P := fun t => t.Sound ∧ t.Linked ∧ P t) owner ds p
    (fun t d hd ⟨ht, htl, h⟩ hparent =>
      have hr := ht.removed_child hparent
      ⟨ht.removed_of_parent? hparent, hr.linked htl, hP t _ d hd htl.ownSlots hr h⟩)
    ⟨hp, hl, h⟩
  exact hfold.2.2

/-- What is left stands where it stood. -/
theorem parent?_foldl_dropLiteral (h : p.Sound)
    (hd : (ds.foldl (dropLiteral owner) p).contains d = true) :
    (ds.foldl (dropLiteral owner) p).parent? d = p.parent? d := by
  have hfold := foldl_dropLiteral
    (P := fun t => t.Sound ∧ (t.contains d = true → t.parent? d = p.parent? d)) owner
    (fun t e ⟨ht, hparent⟩ he =>
      have hr := ht.removed_child he
      ⟨ht.removed_of_parent? he, fun hc => (hr.parent? hc).trans (hparent (hr.contains_of hc))⟩)
    ds p ⟨h, fun _ => rfl⟩
  exact hfold.2 hd

theorem parent?_dropLiteral_ne (h : p.Sound) : (dropLiteral owner p d).parent? d ≠ some owner := by
  rw [dropLiteral]
  split
  case isTrue hd =>
    intro hparent
    have hgone := (h.removed_child hd).self
    exact absurd (contains_of_parent? hparent) (not_contains_iff.mpr (gone_iff.mp hgone).2)
  case isFalse hd => exact hd

/-- No declaration that was dropped still belongs to its owner. -/
theorem parent?_ne_of_mem (h : p.Sound) (hd : d ∈ ds) :
    (ds.foldl (dropLiteral owner) p).parent? d ≠ some owner := by
  induction ds generalizing p with
  | nil => exact absurd hd List.not_mem_nil
  | cons e ds ih =>
    have he : (dropLiteral owner p e).Sound := h.dropped [e]
    rw [List.foldl_cons]
    rcases List.mem_cons.mp hd with rfl | hd
    · intro hparent
      rw [parent?_foldl_dropLiteral he (contains_of_parent? hparent)] at hparent
      exact parent?_dropLiteral_ne h hparent
    · exact ih he hd

theorem not_contains_of_mem (h : p.Sound) (hd : d ∈ ds) (hparent : p.parent? d = some owner) :
    (ds.foldl (dropLiteral owner) p).contains d = false :=
  Bool.eq_false_iff.mpr fun hc =>
    parent?_ne_of_mem h hd ((parent?_foldl_dropLiteral h hc).trans hparent)

/-- Nothing goes from a sheltered set that holds none of the declarations. -/
theorem Sheltered.dropped {S : ReflectionId → Prop} {i : ReflectionId}
    (h : p.Sheltered S) (hl : p.Linked) (hp : p.Sound) (hds : ∀ d ∈ ds, ¬ S d) (hi : S i)
    (hc : p.contains i = true) : (ds.foldl (dropLiteral owner) p).contains i = true := by
  have hfold := hl.dropped (P := fun t => t.Sheltered S ∧ t.contains i = true) hp owner
    (fun t q d hd hown hq ⟨hS, hc⟩ =>
      ⟨hq.sheltered hown hS (hds d hd), hq.contains_of_sheltered hown hS (hds d hd) hi hc⟩)
    ⟨h, hc⟩
  exact hfold.2

/-! ### The type that was set -/

/-- The reflection has the main type, and all declarations of that stand below it. -/
structure Installed (p : Project) (id : ReflectionId) (type : Option Ty) : Prop where
  main : ∀ r, p.get? id = some r → r.type? = type
  literals : ∀ d ∈ type.elim [] Ty.declarations, p.parent? d = some id
  plain : ∀ t, type = some t → p.Plain t

/-- As long as the reflection is left over, what is left over together with the declarations of its
main type depends on nothing else. -/
theorem Installed.sheltered (h : p.Installed id type) (hq : Removed p x q) (hown : p.OwnSlots)
    (hid : q.contains id = true) :
    p.Sheltered fun i => ¬ gone p q i = true ∨ i ∈ type.elim [] Ty.declarations := by
  have hrest := hq.sheltered_not_gone hown
  have hstays : ¬ gone p q id = true := by
    rw [gone, hid]
    simp
  refine ⟨fun c a hc hS => ?_, fun c t hc hS => ?_, fun d a r hd hr hmem hS => ?_⟩
  · rcases hS with hS | hkept
    · exact .inl (hrest.parents c a hc hS)
    · obtain rfl := Option.some.inj ((h.literals c hkept).symm.trans hc)
      exact .inl hstays
  · rcases hS with hS | hkept
    · exact .inl (hrest.targets c t hc hS)
    · obtain ⟨u, hu, hcu⟩ := mem_declarations_elim.mp hkept
      exact absurd hc ((h.plain u hu).targetOf? hcu)
  · rcases hS with hS | hkept
    · obtain ⟨t, ht, hdt, hin⟩ := hrest.literals d a r hd hr hmem hS
      exact ⟨t, ht, hdt, fun m hm => .inl (hin m hm)⟩
    · obtain rfl := Option.some.inj ((h.literals d hkept).symm.trans hd)
      obtain ⟨u, hu, hdu⟩ := mem_declarations_elim.mp hkept
      refine ⟨u, Variant.mem_types_of_mainType? ((h.main r hr).trans hu), hdu, fun m hm => ?_⟩
      exact .inr (mem_declarations_elim.mpr ⟨u, hu, hm⟩)

/-- Removing anything but a declaration of the main type leaves the main type in place, if it leaves
the reflection. -/
theorem Installed.removed (h : p.Installed id type) (hq : Removed p x q) (hown : p.OwnSlots)
    (hx : x ∉ type.elim [] Ty.declarations) (hid : q.contains id = true) :
    q.Installed id type := by
  have hstays (d : ReflectionId) (hd : d ∈ type.elim [] Ty.declarations) : gone p q d = false :=
    hq.not_gone hown (h.sheltered hq hown hid) (fun hS => hS.elim (fun hn => hn hq.self) hx) (.inr hd)
  refine ⟨fun r' hr' => ?_, fun d hd => ?_, fun t ht => (h.plain t ht).of_held hq.held⟩
  · obtain ⟨r, hr, -⟩ := hq.held id r' hr'
    have hmain : r'.type? = r.type?.map (Ty.clear (gone p q)) :=
      (Variant.mainType?_of_frame (hq.shape hown id r r' hr hr')).trans (Variant.mainType?_prune _ _)
    rw [hmain, h.main r hr]
    cases type with
    | none => rfl
    | some t => exact congrArg some (Variant.clear_of_not_mem hstays)
  · have hparent := h.literals d hd
    have hqd : q.contains d = true := by
      rw [hq.contains, contains_of_parent? hparent, hstays d hd]
      rfl
    exact (hq.parent? hqd).trans hparent

theorem Installed.dropped (h : p.Installed id type) (hl : p.Linked) (hp : p.Sound)
    (hds : ∀ d ∈ ds, d ∉ type.elim [] Ty.declarations)
    (hid : (ds.foldl (dropLiteral owner) p).contains id = true) :
    (ds.foldl (dropLiteral owner) p).Installed id type :=
  hl.dropped (P := fun t => t.contains id = true → t.Installed id type) hp owner
    (fun _ _ d hd hown hq hin hc => (hin (hq.contains_of hc)).removed hq hown (hds d hd) hc)
    (fun _ => h) hid

/-! ### The reflection itself -/

/-- Of the reflections on the way up to the root, each that is owned by types of its parent is owned
by one that owns no reference. -/
def Steady (p : Project) (id : ReflectionId) : Prop :=
  ∀ b a r, p.Under b id → p.parent? b = some a → p.get? a = some r → b ∈ r.literals →
    ∃ t ∈ r.types, b ∈ t.declarations ∧ p.Plain t

/-- What a reflection with a new main type depends on: the way up to the root, the declarations of the
type, and what the types own that own something on the way up. -/
inductive Support (p : Project) (id : ReflectionId) (type : Option Ty) : ReflectionId → Prop where
  | above {i : ReflectionId} : p.Under i id → Support p id type i
  | kept {d : ReflectionId} : d ∈ type.elim [] Ty.declarations → Support p id type d
  | beside {b a d : ReflectionId} {r : Reflection} {t : Ty} : p.Under b id → p.parent? b = some a →
      p.get? a = some r → t ∈ r.types → b ∈ t.declarations → p.Plain t → d ∈ t.declarations →
      Support p id type d

/-- On the way up, the reflection is nobody's parent. -/
theorem Numbered.ne_of_under (hp : p.Numbered) (hlinks : p.Links n id) {b a : ReflectionId}
    (hb : p.Under b id) (ha : p.parent? b = some a) : a ≠ id := by
  rintro rfl
  obtain ⟨m, -, hm⟩ := hp.links_of_under hb hlinks
  exact hp.not_under_parent hm ha hb

/-- What a type on the way up owns stands beside what is on the way up. -/
theorem Linked.parent?_of_mem_types (h : p.Linked) {a : ReflectionId} {t : Ty}
    (hr : p.get? a = some r) (ht : t ∈ r.types) (hd : d ∈ t.declarations) :
    p.parent? d = some a :=
  (h a r .typeLiteral d hr
    ((Variant.literals_eq_slot _).symm ▸ Variant.mem_literals.mpr ⟨t, ht, hd⟩)).1

/-- A declaration of the reflection that its new type does not own is nothing that it depends on. -/
theorem Orderly.not_support (hp : p.Orderly) (hlinks : p.Links n id) (hd : p.parent? d = some id)
    (hnot : d ∉ type.elim [] Ty.declarations) : ¬ p.Support id type d := by
  intro h
  cases h with
  | above hunder => exact hp.sound.numbered.not_under_parent (.up hd hlinks) hd hunder
  | kept hkept => exact hnot hkept
  | beside hb hba hr ht _ _ hdt =>
    have hparent := hp.linked.parent?_of_mem_types hr ht hdt
    exact hp.sound.numbered.ne_of_under hlinks hb hba (Option.some.inj (hparent.symm.trans hd))

section Setting

variable (hr : p.get? id = some r) (hv : r.variant.setMainType? type = some v)
  (htype : ∀ d ∈ type.elim [] Ty.declarations, p.parent? d = some id)
  (hplain : ∀ t, type = some t → p.Plain t)

include htype in
/-- What the reflection depends on hangs on the way up. -/
theorem Support.under_parent {c a : ReflectionId} (h : p.Support id type c) (hl : p.Linked)
    (hc : p.parent? c = some a) : p.Under a id := by
  cases h with
  | above hunder => exact (Under.child hc .self).trans hunder
  | kept hkept =>
    obtain rfl := Option.some.inj ((htype c hkept).symm.trans hc)
    exact .self
  | beside hb hba hr ht _ _ hct =>
    have hparent := hl.parent?_of_mem_types hr ht hct
    obtain rfl := Option.some.inj (hparent.symm.trans hc)
    exact (Under.child hba .self).trans hb

include hr hv

include hplain in
/-- There is no reference in what the reflection depends on. -/
theorem Support.not_reference {c : ReflectionId} {s : Reflection} (h : p.Support id type c)
    (hp : p.Hosted) (hs : p.get? c = some s) : s.isReference = false := by
  cases h with
  | above hunder =>
    rcases hunder.eq_or_parent with rfl | ⟨c', hc'⟩
    · obtain rfl := Option.some.inj (hr.symm.trans hs)
      exact Reflection.isReference_eq_false_iff.mpr (Variant.tag_ne_reference_of_setMainType? hv)
    · exact hp c' c s hc' hs
  | kept hkept =>
    obtain ⟨t, ht, hct⟩ := mem_declarations_elim.mp hkept
    exact hplain t ht c hct s hs
  | beside _ _ _ _ _ hpl hct => exact hpl c hct s hs

theorem held_setVariant (i : ReflectionId) (s' : Reflection)
    (hs' : (p.put id (some { r with variant := v })).get? i = some s') :
    ∃ s, p.get? i = some s ∧ s'.outline = s.outline :=
  have ⟨s, hs, hout⟩ := get?_of_outline (outline_setVariant hr (Variant.tag_setMainType? hv)) hs'
  ⟨s, hs, hout.symm⟩

include htype hplain

theorem installed_setVariant : (p.put id (some { r with variant := v })).Installed id type where
  main s hs := by
    rw [get?_put_of_lt (lt_size_of_get? hr), if_pos rfl] at hs
    obtain rfl := Option.some.inj hs
    exact Variant.mainType?_setMainType? hv
  literals d hd :=
    (parent?_of_outline (outline_setVariant hr (Variant.tag_setMainType? hv)) d).trans (htype d hd)
  plain t ht := (hplain t ht).of_held (held_setVariant hr hv)

/-- Among the types of its parent, what the reflection depends on is owned by one that owns nothing
else. -/
theorem Steady.literals (h : p.Steady id) (hp : p.Orderly) (hlinks : p.Links n id)
    {a : ReflectionId} {s : Reflection} (hd : p.parent? d = some a)
    (hs : (p.put id (some { r with variant := v })).get? a = some s) (hmem : d ∈ s.literals)
    (hS : p.Support id type d) :
    ∃ t ∈ s.types, d ∈ t.declarations ∧ ∀ m ∈ t.declarations, p.Support id type m := by
  -- Further up the types are what they were.
  have hget {a : ReflectionId} (ha : a ≠ id) :
      (p.put id (some { r with variant := v })).get? a = p.get? a := by
    rw [get?_put_of_lt (lt_size_of_get? hr), if_neg (Ne.symm ha)]
  cases hS with
  | above hunder =>
    rw [hget (hp.sound.numbered.ne_of_under hlinks hunder hd)] at hs
    obtain ⟨t, ht, hdt, hpl⟩ := h d a s hunder hd hs hmem
    exact ⟨t, ht, hdt, fun m hm => .beside hunder hd hs ht hdt hpl hm⟩
  | kept hkept =>
    obtain rfl := Option.some.inj ((htype d hkept).symm.trans hd)
    obtain ⟨t, ht, hdt⟩ := mem_declarations_elim.mp hkept
    have hmain := (installed_setVariant hr hv htype hplain).main s hs
    refine ⟨t, Variant.mem_types_of_mainType? (hmain.trans ht), hdt, fun m hm => ?_⟩
    exact .kept (mem_declarations_elim.mpr ⟨t, ht, hm⟩)
  | beside hb hba hra ht hbt hpl hdt =>
    have hparent := hp.linked.parent?_of_mem_types hra ht hdt
    obtain rfl := Option.some.inj (hparent.symm.trans hd)
    rw [hget (hp.sound.numbered.ne_of_under hlinks hb hba)] at hs
    obtain rfl := Option.some.inj (hra.symm.trans hs)
    exact ⟨_, ht, hdt, fun m hm => .beside hb hba hra ht hbt hpl hm⟩

theorem Steady.sheltered (h : p.Steady id) (hp : p.Orderly) (hlinks : p.Links n id) :
    (p.put id (some { r with variant := v })).Sheltered (p.Support id type) where
  parents c a hc hS := by
    rw [parent?_of_outline (outline_setVariant hr (Variant.tag_setMainType? hv))] at hc
    exact .above (hS.under_parent htype hp.linked hc)
  targets c u hc hS := by
    obtain ⟨s', hs', href⟩ := isReference_of_targetOf? hc
    obtain ⟨s, hs, hout⟩ := held_setVariant hr hv c s' hs'
    have hnone := hS.not_reference hr hv hplain hp.hosted hs
    rw [Reflection.isReference_of_outline hout, hnone] at href
    cases href
  literals d a s hd hs hmem hS := by
    rw [parent?_of_outline (outline_setVariant hr (Variant.tag_setMainType? hv))] at hd
    exact h.literals hr hv htype hplain hp hlinks hd hs (Variant.mem_literals.mpr hmem) hS

end Setting

/-! ### The whole command -/

theorem setType_eq (hr : p.get? id = some r) (hv : r.variant.setMainType? type = some v) :
    p.setType id type = .ok (((r.type?.elim [] Ty.declarations).filter
      (· ∉ type.elim [] Ty.declarations)).foldl (dropLiteral id)
        (p.put id (some { r with variant := v }))).forgetGraph := by
  rw [setType, hr]
  simp only [hv]

theorem Orderly.setType (h : p.Orderly) (htype : p.Proper (.setType id type))
    (hq : p.setType id type = .ok q) : q.Orderly :=
  ⟨h.sound.setType hq, h.linked.setType h.sound htype hq, h.hosted.setType h.sound hq⟩

/-- Every declaration that a stored type owns is registered. -/
theorem Linked.contains_of_mem_types (h : p.Linked) {s : Reflection} (hs : p.get? id = some s)
    {t : Ty} (ht : t ∈ s.types) (hd : d ∈ t.declarations) : p.contains d = true :=
  contains_of_parent? (h.parent?_of_mem_types hs ht hd)

/-- In a registry in order, a reflection can be given every main type whose declarations stand below it
and in no other slot and are no references. The registry is in order afterwards, and the declarations
that only the old type owned are gone. As long as the reflection is registered, it has the type with all
of its declarations, and none of its types mentions what is gone; and it is registered if it is
steady. -/
theorem setType_installs (hp : p.Orderly) (hlinks : p.Links n id) (hr : p.get? id = some r)
    (hslot : (r.variant.setMainType? type).isSome = true) (htype : p.Proper (.setType id type))
    (hplain : ∀ t, type = some t → p.Plain t) :
    ∃ q, p.setType id type = .ok q ∧ q.Orderly ∧ q.Structural ∧
      (∀ d ∈ r.type?.elim [] Ty.declarations, d ∉ type.elim [] Ty.declarations →
        q.contains d = false) ∧
      (∀ s, q.get? id = some s → s.type? = type ∧
        (∀ d ∈ type.elim [] Ty.declarations, q.parent? d = some id) ∧
        ∀ t ∈ s.types, ∀ d ∈ t.declarations, q.contains d = true) ∧
      (p.Steady id → q.contains id = true) := by
  obtain ⟨v, hv⟩ := Option.isSome_iff_exists.mp hslot
  have hset := setType_eq hr hv
  have hq := hp.setType htype hset
  have hunder : ∀ d ∈ type.elim [] Ty.declarations, p.parent? d = some id := fun d hd =>
    (htype d hd).1
  have hold : ∀ d ∈ r.type?.elim [] Ty.declarations, p.parent? d = some id := by
    intro d hd
    obtain ⟨t, ht, hdt⟩ := mem_declarations_elim.mp hd
    exact hp.linked.parent?_of_mem_types hr (Variant.mem_types_of_mainType? ht) hdt
  have hsound := hp.sound.setVariant hr hv
  have hlinked := hp.linked.setVariant hr hv htype
  have hin := installed_setVariant hr hv hunder hplain
  have hparent (d : ReflectionId) :
      (p.put id (some { r with variant := v })).parent? d = p.parent? d :=
    parent?_of_outline (outline_setVariant hr (Variant.tag_setMainType? hv)) d
  -- What is dropped is owned by the old type and not by the new one.
  have hlost {d : ReflectionId} : d ∈ (r.type?.elim [] Ty.declarations).filter
      (· ∉ type.elim [] Ty.declarations) ↔
        d ∈ r.type?.elim [] Ty.declarations ∧ d ∉ type.elim [] Ty.declarations := by
    rw [List.mem_filter, decide_eq_true_eq]
  generalize (r.type?.elim [] Ty.declarations).filter (· ∉ type.elim [] Ty.declarations) = lost
    at hset hq hlost
  refine ⟨_, hset, hq, hq.sound.structural hq.linked, fun d hd hnot => ?_, fun s hs => ?_,
    fun hsteady => ?_⟩
  · exact not_contains_of_mem hsound (hlost.mpr ⟨hd, hnot⟩) ((hparent d).trans (hold d hd))
  · have hkept := hin.dropped hlinked hsound (fun d hd => (hlost.mp hd).2) (contains_of_get? hs)
    exact ⟨hkept.main s hs, hkept.literals, fun t ht d hd =>
      hq.linked.contains_of_mem_types hs ht hd⟩
  · have hshelter := hsteady.sheltered hr hv hunder hplain hp hlinks
    refine hshelter.dropped hlinked hsound (fun d hd => ?_) (.above .self) ?_
    · obtain ⟨hd, hnot⟩ := hlost.mp hd
      exact hp.not_support hlinks (hold d hd) hnot
    · rw [contains_of_outline (outline_setVariant hr (Variant.tag_setMainType? hv))]
      exact contains_of_get? hr

/-! ### Object types in object types -/

/-- A type may be given whatever stands below its reflection and under no other role there. -/
theorem Linked.proper_setType (h : p.Linked) (htype : ∀ d ∈ type.elim [] Ty.declarations,
    p.parent? d = some id ∧ (p.get? id).all fun r =>
      r.structuralChildren.all fun child => child.1 ≠ d || child.2 = .typeLiteral) :
    p.Proper (.setType id type) := by
  intro d hd
  obtain ⟨hparent, hall⟩ := htype d hd
  refine ⟨hparent, fun i r role hr hmem => ?_⟩
  obtain ⟨hi, -⟩ := h i r role d hr (Variant.mem_structuralChildren.mp hmem)
  obtain rfl := Option.some.inj (hparent.symm.trans hi)
  rw [hr, Option.all_some] at hall
  have hrole := List.all_eq_true.mp hall _ hmem
  simpa using hrole

theorem run_setType {name : String} {ids : List ReflectionId}
    (hrun : Run Proper (ofName name) ids p) (id : ReflectionId) (type : Option Ty)
    (htype : ∀ d ∈ type.elim [] Ty.declarations, p.parent? d = some id ∧ (p.get? id).all fun r =>
      r.structuralChildren.all fun child => child.1 ≠ d || child.2 = .typeLiteral)
    (hok : (p.perform (.setType id type)).isOk = true) :
    Run Proper (ofName name) (ids ++ p.issued (.setType id type)) (p.after (.setType id type)) :=
  hrun.after ((orderly_run hrun).linked.proper_setType htype) hok

/-- An object type in an object type, the outer one that of an alias. -/
def nestedLiterals : Project :=
  let p := (((ofName "p").after (.add 0 .children (.declaration "A" .typeAlias))).after
    (.add 1 .typeLiteral (.declaration "__type" .typeLiteral))).after
    (.add 2 .typeLiteral (.declaration "__type" .typeLiteral))
  (p.after (.setType 2 (some (.reflection 3)))).after (.setType 1 (some (.reflection 2)))

theorem run_nestedLiterals : Run Proper (ofName "p") [1, 2, 3] nestedLiterals := by
  have hadded : Run Proper (ofName "p") [1, 2, 3] _ :=
    (((Run.refl _).after (c := .add 0 .children (.declaration "A" .typeAlias)) rfl rfl).after
      (c := .add 1 .typeLiteral (.declaration "__type" .typeLiteral)) rfl rfl).after
      (c := .add 2 .typeLiteral (.declaration "__type" .typeLiteral)) rfl rfl
  have hinner := run_setType hadded 2 (some (.reflection 3)) (by decide +kernel)
    (by decide +kernel)
  exact run_setType hinner 1 (some (.reflection 2)) (by decide +kernel) (by decide +kernel)

/-- The inner object type is exchanged for another: it goes, and both the alias and the outer one keep
their types. -/
theorem setType_installs_nested :
    let p := nestedLiterals.after (.add 2 .typeLiteral (.declaration "__type" .typeLiteral))
    p.Orderly ∧ p.Links 2 2 ∧ p.Proper (.setType 2 (some (.reflection 4))) ∧
      p.Plain (.reflection 4) ∧ p.Steady 2 ∧ ∃ q s, p.setType 2 (some (.reflection 4)) = .ok q ∧
        q.contains 3 = false ∧ q.get? 2 = some s ∧ s.type? = some (.reflection 4) ∧
        q.parent? 4 = some 2 := by
  intro p
  have hp : p.Orderly := orderly_run (run_nestedLiterals.after
    (c := .add 2 .typeLiteral (.declaration "__type" .typeLiteral)) rfl (by decide +kernel))
  have h2 : p.parent? 2 = some 1 := by decide +kernel
  have h1 : p.parent? 1 = some 0 := by decide +kernel
  have h0 : p.parent? 0 = none := by decide +kernel
  have hlinks : p.Links 2 2 := .up h2 (.up h1 .root)
  have htype : p.Proper (.setType 2 (some (.reflection 4))) :=
    hp.linked.proper_setType (by decide +kernel)
  have hall {i : ReflectionId} {r : Reflection} {P : Reflection → Bool} (hr : p.get? i = some r)
      (hP : (p.get? i).all P = true) : P r = true := by
    rwa [hr] at hP
  have hplain {i : ReflectionId} (hi : (p.get? i).all (!·.isReference) = true) :
      p.Plain (.reflection i) := by
    intro d hd s hs
    obtain rfl := List.mem_singleton.mp hd
    simpa using hall hs hi
  have hsteady : p.Steady 2 := by
    intro b a r hb ha hr hmem
    cases hb with
    | self =>
      obtain rfl := Option.some.inj (h2.symm.trans ha)
      have htypes : (p.get? 1).map (·.types) = some [.reflection 2] := rfl
      rw [hr, Option.map_some, Option.some.injEq] at htypes
      exact ⟨.reflection 2, htypes ▸ List.mem_cons_self, List.mem_cons_self,
        hplain (by decide +kernel)⟩
    | child hparent hb =>
      obtain rfl := Option.some.inj (h2.symm.trans hparent)
      cases hb with
      | self =>
        obtain rfl := Option.some.inj (h1.symm.trans ha)
        have hnone : r.literals = [] := by
          simpa using hall (P := fun r => r.literals = []) hr (by decide +kernel)
        rw [hnone] at hmem
        exact absurd hmem List.not_mem_nil
      | child hparent hb =>
        obtain rfl := Option.some.inj (h1.symm.trans hparent)
        cases hb with
        | self => exact nomatch h0.symm.trans ha
        | child hparent => exact nomatch h0.symm.trans hparent
  obtain ⟨r, hr⟩ := contains_iff.mp (show p.contains 2 = true by decide +kernel)
  have hslot : (r.variant.setMainType? (some (.reflection 4))).isSome = true :=
    hall (P := fun r => (r.variant.setMainType? (some (.reflection 4))).isSome) hr (by decide +kernel)
  have hold : (p.get? 2).bind (·.type?) = some (.reflection 3) := rfl
  rw [hr, Option.bind_some] at hold
  obtain ⟨q, hq, -, -, hlost, hkept, hstays⟩ := setType_installs hp hlinks hr hslot htype
    fun t ht => Option.some.inj ht ▸ hplain (by decide +kernel)
  obtain ⟨s, hs⟩ := contains_iff.mp (hstays hsteady)
  obtain ⟨hmain, hparents, -⟩ := hkept s hs
  refine ⟨hp, hlinks, htype, hplain (by decide +kernel), hsteady, q, s, hq, ?_, hs, hmain, ?_⟩
  · exact hlost 3 (hold ▸ List.mem_cons_self) (by decide)
  · exact hparents 4 List.mem_cons_self

/-- The alias with a union of the outer object type and a reference to the inner one. -/
def tangledLiterals : Project :=
  (nestedLiterals.after (.add 1 .typeLiteral (.reference "r" (.toId 3)))).after
    (.setType 1 (some (.union [.reflection 2, .reflection 4] none)))

theorem run_tangledLiterals : Run Proper (ofName "p") [1, 2, 3, 4] tangledLiterals := by
  have hadded : Run Proper (ofName "p") [1, 2, 3, 4] _ := run_nestedLiterals.after
    (c := .add 1 .typeLiteral (.reference "r" (.toId 3))) rfl (by decide +kernel)
  exact run_setType hadded 1 (some (.union [.reflection 2, .reflection 4] none))
    (by decide +kernel) (by decide +kernel)

/-- Not every type that is set is there afterwards. With the inner object type goes the reference to it,
with that the union that mentions it, and with the union the outer object type, which was just given
another type. -/
theorem not_forall_installed : ¬ ∀ (p : Project) (id : ReflectionId) (type : Option Ty)
    (r : Reflection) (n : Nat), p.Orderly → p.Links n id → p.get? id = some r →
    (r.variant.setMainType? type).isSome = true → p.Proper (.setType id type) →
    (∀ t, type = some t → p.Plain t) →
    ∃ q s, p.setType id type = .ok q ∧ q.get? id = some s ∧ s.type? = type := by
  intro h
  have hp : tangledLiterals.Orderly := orderly_run run_tangledLiterals
  have h2 : tangledLiterals.parent? 2 = some 1 := by decide +kernel
  have h1 : tangledLiterals.parent? 1 = some 0 := by decide +kernel
  have hlinks : tangledLiterals.Links 2 2 := .up h2 (.up h1 .root)
  have hplain (t : Ty) (ht : some (Ty.intrinsic "string") = some t) : tangledLiterals.Plain t := by
    obtain rfl := Option.some.inj ht
    exact fun d hd => absurd hd List.not_mem_nil
  obtain ⟨r, hr⟩ := contains_iff.mp (show tangledLiterals.contains 2 = true by decide +kernel)
  have hslot : (r.variant.setMainType? (some (.intrinsic "string"))).isSome = true := by
    have hall : (tangledLiterals.get? 2).all fun r =>
        (r.variant.setMainType? (some (.intrinsic "string"))).isSome := by decide +kernel
    rwa [hr] at hall
  obtain ⟨q, s, hq, hs, -⟩ := h tangledLiterals 2 (some (.intrinsic "string")) r 2 hp hlinks hr
    hslot (fun d hd => absurd hd List.not_mem_nil) hplain
  have hlost : (tangledLiterals.setType 2 (some (.intrinsic "string"))).toOption.all
      (!·.contains 2) = true := by decide +kernel
  rw [hq] at hlost
  simp [Except.toOption, contains_of_get? hs] at hlost

end Project

end DocTree
