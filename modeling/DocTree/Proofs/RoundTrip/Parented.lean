import DocTree.Proofs.RoundTrip.Again
import DocTree.Proofs.RoundTrip.Renamed

/-!
The tree of what was read. Every reflection is held by its parent alone, so nothing is in the way of
writing it again; and when each reflection gets the number that it has, each place holds what was
written there.
-/

namespace DocTree

/-! ### Parents -/

/-- Whatever stands in a slot or a type of a registered reflection is registered under that reflection
as its parent. The root has no parent. -/
structure Project.Parented (p : Project) : Prop where
  child : ∀ i r, p.get? i = some r → ∀ x ∈ r.childIds, p.parent? x = some i
  top : p.parent? ReflectionId.project = none

namespace Project

variable {p : Project} {root : String}

theorem Parented.contains (h : p.Parented) {i : ReflectionId} {r : Reflection} (hr : p.get? i = some r) :
    ∀ x ∈ r.childIds, p.contains x = true :=
  fun x hx => contains_of_parent? (h.child i r hr x hx)

theorem Parented.literals (h : p.Parented) {i : ReflectionId} {r : Reflection} (hr : p.get? i = some r) :
    ∀ x ∈ r.literals, p.contains x = true := by
  intro x hx
  refine h.contains hr x (Variant.mem_childIds.mpr ⟨.typeLiteral, ?_⟩)
  rwa [Variant.literals_eq_slot]

theorem Parented.parent?_of_holds (h : p.Parented) {a x : ReflectionId}
    (hx : (Copying.ofProject p root).Holds a x) : p.parent? x = some a := by
  obtain ⟨r, hr, hmem⟩ := hx
  have hchild := (Copying.mem_inOrder (c := .ofProject p root) (h.literals hr)).mp hmem
  exact h.child a r hr x hchild.1

theorem Parented.treelike (h : p.Parented) (root : String) : (Copying.ofProject p root).Treelike :=
  Copying.treelike_of_parent? (fun _ _ => h.parent?_of_holds) fun _ ha =>
    Option.some_ne_none _ (ha.symm.trans h.top)

/-- In a tree that was read, children have their parents. -/
theorem Arranged.parented {W : Prop} (h : p.Arranged W) : p.Parented where
  child i r hr x hx := parent?_eq_some_iff.mpr ((h.child i r hr).2 x hx)
  top := by
    obtain ⟨r, hr, hparent⟩ := h.root
    rw [parent?_of_get? hr, hparent]

/-- The texts of a reflection that lasts last. -/
theorem Lasting.lastingPart {r : Reflection} (h : p.Lasting root r) :
    ∀ q ∈ r.texts, p.LastingPart root q := by
  have hcategories : ∀ {ks : List Category}, (∀ k ∈ ks, p.LastingCategory root k) →
      ∀ q ∈ ks.flatMap fun k => k.description.getD [], p.LastingPart root q := by
    intro ks hks q hq
    obtain ⟨k, hk, hq⟩ := List.mem_flatMap.mp hq
    exact (hks k hk).description q hq
  intro q hq
  rw [Reflection.texts, Reflection.parts_eq] at hq
  rcases List.mem_append.mp hq with hq | hq
  · rcases List.mem_append.mp hq with hq | hq
    · rcases List.mem_append.mp hq with hq | hq
      · cases hm : r.comment with
        | none => rw [hm] at hq; cases hq
        | some m =>
          rw [hm] at hq
          exact (h.comment m hm).parts q hq
      · exact h.texts q hq
    · obtain ⟨t, ht, hq⟩ := List.mem_flatMap.mp hq
      obtain ⟨ps, hps, hq⟩ := List.mem_flatten.mp hq
      obtain ⟨lists, hlists, hps⟩ := List.mem_flatten.mp hps
      obtain ⟨u, hu, hsummaries⟩ := List.mem_filterMap.mp hlists
      have hnode := h.types t ht u hu
      cases u with
      | union xs given =>
        cases hsummaries
        exact hnode ps hps q hq
      | _ => cases hsummaries
  · obtain ⟨k, hk, hq⟩ := List.mem_flatMap.mp hq
    have hcontainer := h.container k (Option.mem_toList.mp hk)
    rcases List.mem_append.mp hq with hq | hq
    · obtain ⟨g, hg, hq⟩ := List.mem_flatMap.mp hq
      have hgroup := hcontainer.groups g hg
      exact (List.mem_append.mp hq).elim (hgroup.description q) (hcategories hgroup.categories q)
    · exact hcategories hcontainer.categories q hq

end Project

namespace Copying

variable {c : Copying} {clean : Prop} {owner b : Nat} {xs : List ReflectionId} {spots : List Spot}

/-- Where all reflections last and the files keep their numbers, every file that is linked to is
listed. -/
theorem allListed_of_lasting (hlast : ∀ i r, c.project.get? i = some r → c.project.Lasting c.root r)
    (hfiles : ∀ file, (c.project.files.path? file).isSome = true → c.file? file = some file) :
    c.AllListed clean := by
  intro i r hr _ q hq file hfile
  cases q with
  | relativeLink text linked anchor =>
    rw [hfiles file ((hlast i r hr).lastingPart _ hq file hfile)]
    rfl
  | _ => cases hfile

/-! ### Places -/

/-- Where every place has the new number of its reflection, so has what is read there. -/
theorem Laid.runs {μ : Renaming} (h : c.Laid owner b xs spots)
    (hnumber : ∀ s ∈ spots, s.number = μ.number s.source) : c.Runs μ b xs := by
  rw [Runs]
  induction h with
  | nil => rfl
  | @cons owner b x r xs inner rest hx _ _ _ _ ihrest =>
    obtain rfl : b = μ.number x := hnumber _ (List.mem_cons_self ..)
    rw [run, List.map_cons,
      ihrest fun s hs => hnumber s (List.mem_cons_of_mem _ (List.mem_append_right _ hs))]

/-- Only the first place is one of the root. -/
theorem Layout.source_ne_root (h : c.Layout spots) (htree : c.Treelike) {s : Spot} (hs : s ∈ spots)
    (hne : s.number ≠ ReflectionId.project) : s.source ≠ ReflectionId.project := by
  obtain ⟨r, inner, hr, rfl, hlaid⟩ := h.places
  have hinner : s ∈ inner := (List.mem_cons.mp hs).resolve_left fun heq => hne (heq ▸ rfl)
  intro hsource
  have hpos : 0 < (inner.map (·.source)).count ReflectionId.project :=
    List.count_pos_iff.mpr (hsource ▸ List.mem_map_of_mem hinner)
  have hzero : (c.inOrder r.variant).count ReflectionId.project = 0 :=
    List.count_eq_zero.mpr fun hmem => htree.top _ ⟨r, hr, hmem⟩
  rw [hlaid.count_source, htree.sum_count_root, hzero] at hpos
  exact Nat.lt_irrefl 0 hpos

/-- What was read is kept under its numbers, and its root alone is a project. -/
theorem Revives.keyed {w : Revival} (h : c.Revives clean spots w) (hlayout : c.Layout spots)
    (htree : c.Treelike) (hroot : ∃ r, c.project.get? ReflectionId.project = some r ∧ r.isProject = true)
    (hnested : ∀ i r, c.project.get? i = some r → i ≠ ReflectionId.project → r.isProject = false) :
    w.project.Keyed := by
  have hplace : ∀ i r, w.project.get? i = some r → ∃ s ∈ spots, s.number = i ∧
      ∃ t, c.project.get? s.source = some t ∧ r.id = s.number ∧ r.isProject = t.isProject := by
    intro i r hr
    obtain ⟨s, hs, hi, rfl, t, ht⟩ := h.exists_spot hlayout hr
    rw [image_eq ht]
    refine ⟨s, hs, hi, t, ht, rfl, ?_⟩
    rw [Reflection.isProject, Reflection.isProject, Reflection.tag, tag_endVariant]
  refine ⟨fun i r hr => ?_, ?_, fun i r hr hi => ?_⟩
  · obtain ⟨s, -, rfl, t, -, hid, -⟩ := hplace i r hr
    exact hid
  · obtain ⟨t, ht, htag⟩ := hroot
    obtain ⟨r, inner, hr, rfl, -⟩ := hlayout.places
    have himage : w.project.get? ReflectionId.project =
        some (c.image w ⟨ReflectionId.project, ReflectionId.project, none⟩) := h.get? _
    refine ⟨_, himage, ?_⟩
    rw [Reflection.isProject, image_eq ht, Reflection.tag, tag_endVariant]
    exact htag
  · obtain ⟨s, hs, rfl, t, ht, -, htag⟩ := hplace i r hr
    rw [htag]
    exact hnested _ t ht (hlayout.source_ne_root htree hs hi)

end Copying

end DocTree
