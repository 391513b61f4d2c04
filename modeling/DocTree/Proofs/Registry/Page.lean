import DocTree.Project.Name
import DocTree.Proofs.Registry.Invariant

/-!
The way from a reflection up to the root, and the page on which a reflection is shown. It is found by
going up the parents, and as long as these are not too many, it is the nearest reflection that has a
page of its own, or the root.
-/

namespace DocTree.Project

/-- The root is so many parents up. -/
inductive Links (p : Project) : Nat → ReflectionId → Prop
  | root : Links p 0 ReflectionId.project
  | up {n : Nat} {i parent : ReflectionId} : p.parent? i = some parent → Links p n parent →
      Links p (n + 1) i

/-- The reflection is `top`, or stands somewhere below it. -/
inductive Under (p : Project) (top : ReflectionId) : ReflectionId → Prop where
  | self : Under p top top
  | child {i a : ReflectionId} : p.parent? i = some a → Under p top a → Under p top i

/-- Every parent chain ends at the root, after fewer parents than are followed. -/
def Shallow (p : Project) : Prop := ∀ i, p.contains i = true → ∃ n < maxParents, p.Links n i

/-- The page on which a reflection is shown: of itself and its ancestors the nearest that has a page
of its own or is the root. -/
inductive ShownOn (p : Project) : ReflectionId → ReflectionId → Prop
  | here {i : ReflectionId} {r : Reflection} : p.get? i = some r →
      r.ownDocument = true ∨ i = ReflectionId.project → ShownOn p i i
  | above {i parent page : ReflectionId} {r : Reflection} : p.get? i = some r →
      r.ownDocument = false → i ≠ ReflectionId.project → r.parent = some parent →
      ShownOn p parent page → ShownOn p i page

variable {p q : Project} {i j page : ReflectionId} {r : Reflection} {n : Nat}

/-! ### The way up to the root -/

theorem Under.trans {top : ReflectionId} (h : p.Under top i) (h' : p.Under i j) :
    p.Under top j := by
  induction h' with
  | self => exact h
  | child hparent _ ih => exact .child hparent ih

/-- What something stands below is that itself or the parent of something. -/
theorem Under.eq_or_parent {top : ReflectionId} (h : p.Under top i) :
    i = top ∨ ∃ c, p.parent? c = some top := by
  induction h with
  | self => exact .inl rfl
  | child hparent _ ih =>
    rcases ih with rfl | hc
    · exact .inr ⟨_, hparent⟩
    · exact .inr hc

theorem Numbered.links_unique (hp : p.Numbered) {m : Nat} (h : p.Links n i) (h' : p.Links m i) :
    n = m := by
  induction h generalizing m with
  | root =>
    cases h' with
    | root => rfl
    | up hparent => exact absurd rfl (hp.ne_root_of_parent? hparent)
  | up hparent _ ih =>
    cases h' with
    | root => exact absurd rfl (hp.ne_root_of_parent? hparent)
    | up hparent' h' =>
      obtain rfl := Option.some.inj (hparent.symm.trans hparent')
      rw [ih h']

theorem Numbered.links_of_under (hp : p.Numbered) {top : ReflectionId} (h : p.Under top i)
    (hi : p.Links n i) : ∃ m ≤ n, p.Links m top := by
  induction h generalizing n with
  | self => exact ⟨n, Nat.le_refl n, hi⟩
  | child hparent _ ih =>
    cases hi with
    | root => exact absurd rfl (hp.ne_root_of_parent? hparent)
    | up hparent' hi =>
      obtain rfl := Option.some.inj (hparent.symm.trans hparent')
      obtain ⟨m, hm, htop⟩ := ih hi
      exact ⟨m, Nat.le_succ_of_le hm, htop⟩

/-- A chain that ends at the root has no circle. -/
theorem Numbered.not_under_parent (hp : p.Numbered) {a : ReflectionId} (hi : p.Links n i)
    (ha : p.parent? i = some a) : ¬ p.Under i a := by
  intro hunder
  cases hi with
  | root => exact hp.ne_root_of_parent? ha rfl
  | up hparent hlinks =>
    obtain rfl := Option.some.inj (hparent.symm.trans ha)
    obtain ⟨m, hm, hi⟩ := hp.links_of_under hunder hlinks
    have heq := hp.links_unique (.up hparent hlinks) hi
    omega

/-! ### Pages -/

theorem ShownOn.contains (h : p.ShownOn i page) : p.contains page = true := by
  induction h with
  | here hr _ => exact contains_of_get? hr
  | above _ _ _ _ _ ih => exact ih

/-- A reflection is shown on one page. -/
theorem ShownOn.eq {other : ReflectionId} (h : p.ShownOn i page) (h' : p.ShownOn i other) :
    page = other := by
  induction h with
  | here hr hown =>
    cases h' with
    | here => rfl
    | above hr' hown' hne =>
      obtain rfl := Option.some.inj (hr.symm.trans hr')
      rw [hown'] at hown
      exact absurd (hown.resolve_left (by simp)) hne
  | above hr hown hne hparent _ ih =>
    cases h' with
    | here hr' hown' =>
      obtain rfl := Option.some.inj (hr.symm.trans hr')
      rw [hown] at hown'
      exact absurd (hown'.resolve_left (by simp)) hne
    | above hr' _ _ hparent' h' =>
      obtain rfl := Option.some.inj (hr.symm.trans hr')
      obtain rfl := Option.some.inj (hparent.symm.trans hparent')
      exact ih h'

/-- Shows others on its page. -/
def hasPage (r : Reflection) : Bool := r.ownDocument || r.parent.isNone

theorem Numbered.hasPage_iff (hp : p.Numbered) (hr : p.get? i = some r) :
    hasPage r = true ↔ r.ownDocument = true ∨ i = ReflectionId.project := by
  rw [hasPage, Bool.or_eq_true]
  refine or_congr_right ⟨fun h => ?_, fun h => ?_⟩
  · refine Classical.byContradiction fun hne => ?_
    obtain ⟨-, parent, hparent, -⟩ := hp.below i r hr hne
    rw [hparent] at h
    cases h
  · obtain ⟨s, hs, -, hparent⟩ := hp.root
    subst h
    obtain rfl := Option.some.inj (hr.symm.trans hs)
    rw [hparent]
    rfl

/-- Going up as many parents as there are, the page is found. -/
theorem Numbered.find?_upward (hp : p.Numbered) (hlinks : p.Links n i) {steps : Nat}
    (hn : n ≤ steps) (hr : p.get? i = some r) :
    ∃ s, (r :: p.upward steps r.parent).find? hasPage = some s ∧ p.ShownOn i s.id := by
  induction hlinks generalizing r steps with
  | root =>
    have hown : hasPage r = true := (hp.hasPage_iff hr).mpr (.inr rfl)
    exact ⟨r, List.find?_cons_of_pos hown, (hp.id _ r hr).symm ▸ .here hr (.inr rfl)⟩
  | @up n i parent hparent _ ih =>
    cases hown : hasPage r with
    | true =>
      have hshown := (hp.hasPage_iff hr).mp hown
      exact ⟨r, List.find?_cons_of_pos hown, (hp.id _ r hr).symm ▸ .here hr hshown⟩
    | false =>
      have hshown := mt (hp.hasPage_iff hr).mpr (Bool.eq_false_iff.mp hown)
      rw [not_or, Bool.not_eq_true] at hshown
      rw [parent?_of_get? hr] at hparent
      obtain ⟨-, parent', hparent', hcontains⟩ := hp.below i r hr hshown.2
      obtain rfl := Option.some.inj (hparent.symm.trans hparent')
      obtain ⟨a, ha⟩ := contains_iff.mp hcontains
      obtain ⟨steps, rfl⟩ : ∃ m, steps = m + 1 := ⟨steps - 1, by omega⟩
      obtain ⟨s, hs, hpage⟩ := ih (Nat.le_of_succ_le_succ hn) ha
      refine ⟨s, ?_, .above hr hshown.1 hshown.2 hparent hpage⟩
      rw [List.find?_cons_of_neg (by rw [hown]; exact Bool.false_ne_true), hparent, upward,
        Option.bind_some, ha]
      exact hs

theorem Numbered.shownOn_page (hp : p.Numbered) (hshallow : p.Shallow) (hr : p.get? i = some r) :
    p.ShownOn i (p.page r) := by
  obtain ⟨n, hn, hlinks⟩ := hshallow i (contains_of_get? hr)
  obtain ⟨s, hs, hshown⟩ := hp.find?_upward hlinks (Nat.le_of_lt hn) hr
  rw [page, ancestors, hp.id i r hr, parent?_of_get? hr]
  change p.ShownOn i (((r :: p.upward maxParents r.parent).find? hasPage).elim i (·.id))
  rwa [hs]

theorem Numbered.page_eq_iff (hp : p.Numbered) (hshallow : p.Shallow) (hr : p.get? i = some r) :
    p.page r = page ↔ p.ShownOn i page := by
  have hshown := hp.shownOn_page hshallow hr
  exact ⟨fun h => h ▸ hshown, hshown.eq⟩

end DocTree.Project
