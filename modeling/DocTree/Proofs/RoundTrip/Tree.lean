import Mathlib.Data.List.Perm.Subperm
import DocTree.Proofs.RoundTrip.Whole

/-!
Projects whose reflections form a tree. No chain of reflections, each held by the one before, is
longer than the registry, so everything fits and each reflection has a span. Every place that is
filled holds one place for each reflection inside it, so nothing that is reached is lost.
-/

namespace DocTree.Copying

variable {c : Copying} {owner b : Nat} {xs : List ReflectionId} {spots : List Spot}

/-- A reflection holds another in a slot or in a type. -/
def Holds (c : Copying) (a x : ReflectionId) : Prop :=
  ∃ r, c.project.get? a = some r ∧ x ∈ c.inOrder r.variant

/-- What is held is registered and held by one reflection alone, and nothing holds the root. -/
structure Treelike (c : Copying) : Prop where
  live : ∀ a x, c.Holds a x → c.project.contains x = true
  single : ∀ a a' x, c.Holds a x → c.Holds a' x → a = a'
  top : ∀ a, ¬ c.Holds a ReflectionId.project

/-- Where what is held has its holder for a parent and the root has none, there is a tree. -/
theorem treelike_of_parent? (h : ∀ a x, c.Holds a x → c.project.parent? x = some a)
    (htop : ∀ a, c.project.parent? ReflectionId.project ≠ some a) : c.Treelike where
  live a x hx := Project.contains_of_parent? (h a x hx)
  single a a' x hx hx' := Option.some.inj ((h a x hx).symm.trans (h a' x hx'))
  top a ha := htop a (h a _ ha)

/-! ### Lines of holders -/

/-- A reflection with its holders, up to the root. -/
inductive Line (c : Copying) : List ReflectionId → Prop
  | root : Line c [ReflectionId.project]
  | step {a x : ReflectionId} {rest : List ReflectionId} : Line c (a :: rest) → c.Holds a x →
      Line c (x :: a :: rest)

/-- On a line, whatever is not the root is held by one further up. -/
theorem Line.held {a x : ReflectionId} {rest : List ReflectionId} (h : c.Line (a :: rest))
    (hx : x ∈ a :: rest) : x = ReflectionId.project ∨ ∃ q ∈ rest, c.Holds q x := by
  generalize hline : a :: rest = line at h
  induction h generalizing a rest with
  | root =>
    obtain ⟨rfl, rfl⟩ := List.cons.inj hline
    exact .inl (List.mem_singleton.mp hx)
  | @step a' x' rest' hrest hheld ih =>
    obtain ⟨rfl, rfl⟩ := List.cons.inj hline
    rcases List.mem_cons.mp hx with rfl | hx
    · exact .inr ⟨a', List.mem_cons_self .., hheld⟩
    · exact (ih hx rfl).imp_right fun ⟨q, hq, hqx⟩ => ⟨q, List.mem_cons_of_mem a' hq, hqx⟩

/-- A line does not come back to where it was. -/
theorem Treelike.nodup (h : c.Treelike) {line : List ReflectionId} (hline : c.Line line) :
    line.Nodup := by
  induction hline with
  | root => exact List.pairwise_singleton _ _
  | @step a x rest hrest hheld ih =>
    refine List.nodup_cons.mpr ⟨fun hx => ?_, ih⟩
    rcases hrest.held hx with rfl | ⟨q, hq, hqx⟩
    · exact h.top a hheld
    · rw [h.single a q x hheld hqx] at ih
      exact (List.nodup_cons.mp ih).1 hq

/-- What is held is registered, and no line comes back to where it was. -/
structure Founded (c : Copying) : Prop where
  live : ∀ a x, c.Holds a x → c.project.contains x = true
  nodup : ∀ line, c.Line line → line.Nodup

theorem Treelike.founded (h : c.Treelike) : c.Founded := ⟨h.live, fun _ => h.nodup⟩

theorem Line.mem_root {line : List ReflectionId} (h : c.Line line) :
    ReflectionId.project ∈ line := by
  induction h with
  | root => exact List.mem_singleton_self _
  | step _ _ ih => exact List.mem_cons_of_mem _ ih

theorem Founded.contains_line (h : c.Founded)
    (hroot : c.project.contains ReflectionId.project = true) {line : List ReflectionId}
    (hline : c.Line line) : ∀ x ∈ line, c.project.contains x = true := by
  induction hline with
  | root =>
    intro x hx
    rwa [List.mem_singleton.mp hx]
  | @step a x rest _ hheld ih =>
    intro y hy
    rcases List.mem_cons.mp hy with rfl | hy
    · exact h.live a y hheld
    · exact ih y hy

/-- No line is longer than the registry. -/
theorem Founded.length_line (h : c.Founded)
    (hroot : c.project.contains ReflectionId.project = true) {line : List ReflectionId}
    (hline : c.Line line) : line.length ≤ c.project.arena.size := by
  have hsub : line ⊆ List.range c.project.arena.size := fun x hx =>
    List.mem_range.mpr (Project.lt_size_of_contains (h.contains_line hroot hline x hx))
  have hle := ((h.nodup line hline).subperm hsub).length_le
  rwa [List.length_range] at hle

/-! ### Spans -/

/-- A reflection is registered, and at most so many levels stand inside it. -/
def Nests (c : Copying) : Nat → ReflectionId → Prop
  | 0, _ => False
  | levels + 1, x => ∃ r, c.project.get? x = some r ∧
      ∀ y ∈ c.inOrder r.variant, y ≠ ReflectionId.project ∧ c.Nests levels y

/-- A reflection is written with these many, itself included, at most so many levels deep. -/
def spanWithin (c : Copying) : Nat → ReflectionId → Nat
  | 0, _ => 0
  | levels + 1, x =>
    match c.project.get? x with
    | some r => ((c.inOrder r.variant).map (c.spanWithin levels)).sum + 1
    | none => 0

/-- The copy with the spans that the project has. -/
def spanned (c : Copying) : Copying :=
  { c with span := c.spanWithin (c.project.arena.size + 1) }

theorem Founded.nests_of_line (h : c.Founded)
    (hroot : c.project.contains ReflectionId.project = true) (levels : Nat) {x : ReflectionId}
    {rest : List ReflectionId} (hline : c.Line (x :: rest))
    (hlevels : c.project.arena.size ≤ levels + rest.length) : c.Nests (levels + 1) x := by
  obtain ⟨r, hr⟩ := Project.contains_iff.mp (h.contains_line hroot hline x (List.mem_cons_self ..))
  induction levels generalizing x rest r with
  | zero =>
    have hle := h.length_line hroot hline
    rw [List.length_cons] at hle
    omega
  | succ levels ih =>
    refine ⟨r, hr, fun y hy => ?_⟩
    have hheld : c.Holds x y := ⟨r, hr, hy⟩
    obtain ⟨s, hs⟩ := Project.contains_iff.mp (h.live x y hheld)
    have hnext : c.Line (y :: x :: rest) := .step hline hheld
    refine ⟨fun heq => ?_, ih hnext ?_ s hs⟩
    · exact (List.nodup_cons.mp (h.nodup _ hnext)).1 (heq ▸ hline.mem_root)
    · rw [List.length_cons]
      omega

theorem Founded.nests (h : c.Founded)
    (hroot : c.project.contains ReflectionId.project = true) :
    c.Nests (c.project.arena.size + 1) ReflectionId.project :=
  h.nests_of_line hroot _ .root (Nat.le_add_right ..)

/-- More levels than there are do not change the span. -/
theorem Nests.spanWithin {k n : Nat} {x : ReflectionId} (h : c.Nests k x) (hk : k ≤ n) :
    c.spanWithin n x = c.spanWithin k x := by
  induction k generalizing n x with
  | zero => exact h.elim
  | succ k ih =>
    obtain ⟨n, rfl⟩ : ∃ m, n = m + 1 := ⟨n - 1, by omega⟩
    obtain ⟨r, hr, hinside⟩ := h
    have hsame : (c.inOrder r.variant).map (c.spanWithin n) =
        (c.inOrder r.variant).map (c.spanWithin k) := List.map_congr_left fun y hy =>
      ih (hinside y hy).2 (Nat.le_of_succ_le_succ hk)
    simp only [Copying.spanWithin, hr, hsame]

theorem Nests.fits {levels : Nat} {x : ReflectionId} (h : c.Nests levels x)
    (hle : levels ≤ c.project.arena.size + 1) : c.spanned.Fits levels x := by
  induction levels generalizing x with
  | zero => exact h.elim
  | succ levels ih =>
    obtain ⟨r, hr, hinside⟩ := h
    refine ⟨r, hr, ?_, fun y hy => ⟨(hinside y hy).1, ih (hinside y hy).2 (Nat.le_of_lt hle)⟩⟩
    have hsame : (c.inOrder r.variant).map (c.spanWithin c.project.arena.size) =
        (c.inOrder r.variant).map c.spanned.span := List.map_congr_left fun y hy =>
      ((hinside y hy).2.spanWithin (Nat.le_of_succ_le_succ hle)).trans
        ((hinside y hy).2.spanWithin (Nat.le_of_lt hle)).symm
    change c.spanWithin (c.project.arena.size + 1) x = _
    simp only [Copying.spanWithin, hr, hsame]
    rfl

/-- Where no line comes back, everything has its span. -/
theorem Founded.fits (h : c.Founded)
    (hroot : c.project.contains ReflectionId.project = true) :
    c.spanned.Fits (c.project.arena.size + 1) ReflectionId.project :=
  (h.nests hroot).fits (Nat.le_refl _)

/-! ### Writing and reading a tree -/

/-- The files of a copy follow from the project and the root. -/
theorem fileCopy_congr {d : Copying} (hproject : c.project = d.project) (hroot : c.root = d.root) :
    c.fileCopy = d.fileCopy := by
  have hstep : c.fileStep = d.fileStep := by
    funext state entry
    simp only [fileStep, filePath, writer, hproject, hroot]
  rw [fileCopy, fileCopy, hstep, hproject]

/-- The copy of a whole project, whatever the spans. -/
def plain (p : Project) (root : String) : Copying :=
  ⟨p, root, (fileCopy ⟨p, root, [], fun _ => 0⟩).2, fun _ => 0⟩

/-- The copy of a whole project. -/
def ofProject (p : Project) (root : String) : Copying := (plain p root).spanned

/-- The new numbers of the files are those of the files that are registered. -/
theorem files_ofProject (p : Project) (root : String) :
    (ofProject p root).files = (ofProject p root).fileCopy.2 :=
  congrArg Prod.snd (fileCopy_congr rfl rfl)

end DocTree.Copying

namespace DocTree

/-- Reflections are kept under their numbers, and the root alone is a project. -/
structure Project.Keyed (p : Project) : Prop where
  id : ∀ i r, p.get? i = some r → r.id = i
  root : ∃ r, p.get? ReflectionId.project = some r ∧ r.isProject = true
  nested : ∀ i r, p.get? i = some r → i ≠ ReflectionId.project → r.isProject = false

namespace Copying

variable {p : Project} {root : String} {clean : Prop}

/-- A project in which no line comes back can be read when it was written. -/
theorem Founded.revives (hp : p.Keyed) (hsmall : p.arena.size ≤ Json.wordBound)
    (hfounded : (plain p root).Founded) (hlisted : (ofProject p root).AllListed clean) :
    ∃ spots w, (ofProject p root).Layout spots ∧ (ofProject p root).Revives clean spots w ∧
      Deserializer.standard.reviveWithIds
        (.obj (Serializer.standard.writeProject p root).output) none root =
          .ok (⟨w.project, w.issues, w.journal⟩, w.ids) := by
  obtain ⟨r, hr, hproject⟩ := hp.root
  have hfits : (ofProject p root).Fits (p.arena.size + 1) ReflectionId.project :=
    hfounded.fits (Project.contains_of_get? hr)
  exact reviveWithIds_written ⟨hp.id, hp.nested, hsmall⟩ hlisted hr hproject hfits
    (files_ofProject p root)

/-- A project that is a tree can be read when it was written. -/
theorem revives_ofProject (hp : p.Keyed) (hsmall : p.arena.size ≤ Json.wordBound)
    (htree : (ofProject p root).Treelike) (hlisted : (ofProject p root).AllListed clean) :
    ∃ spots w, (ofProject p root).Layout spots ∧ (ofProject p root).Revives clean spots w ∧
      Deserializer.standard.reviveWithIds
        (.obj (Serializer.standard.writeProject p root).output) none root =
          .ok (⟨w.project, w.issues, w.journal⟩, w.ids) :=
  have hplain : (plain p root).Treelike := ⟨htree.live, htree.single, htree.top⟩
  hplain.founded.revives hp hsmall hlisted

end Copying

end DocTree
