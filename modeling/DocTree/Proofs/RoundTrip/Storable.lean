import DocTree.Proofs.Reading.Resolved
import DocTree.Proofs.RoundTrip.Leaves
import DocTree.Proofs.RoundTrip.Plain
import DocTree.Proofs.RoundTrip.Relative
import DocTree.Proofs.RoundTrip.Renamed

/-!
Projects with a written form of their own. Whatever they hold can be told from what is written: flags are
known, numbers are finite, paths are found again from the root, whatever is named is registered, and no
list is given that has no items. Such values last.
-/

namespace DocTree

/-! ### Values -/

/-- The path is found again from the directory as it is seen from there. -/
def Path.Found (root : String) (p : Path) : Prop := resolve root (p.relativeTo root) = p

theorem Path.Rooted.anchored {root : String} (h : Rooted root) : Anchored root := by
  obtain ⟨rest, hrest⟩ := h.slashed
  rw [Anchored, hrest, root?_slash]
  rfl

theorem Path.Found.cleaned {root : String} {p : Path} (hroot : Rooted root) (h : p.Found root) :
    ∃ r S, p.Cleaned r S :=
  h ▸ hroot.anchored.exists_cleaned_resolve _

theorem Path.Found.reread {root : String} {p : Path} (hroot : Rooted root) (h : p.Found root) :
    p.reread root = p := by
  obtain ⟨r, S, hcleaned⟩ := h.cleaned hroot
  rw [Path.reread, if_pos hcleaned.isAbsolute]
  exact h

/-- A symbol of which nothing is lost when its file and name are written. -/
structure Symbol.Storable (root : String) (s : Symbol) : Prop where
  file : s.file.Found root
  pos : s.pos = none
  transient : s.transient = none

theorem Symbol.Storable.reread {root : String} {s : Symbol} (hroot : Path.Rooted root)
    (h : s.Storable root) : s.reread root = s := by
  obtain ⟨file, name, pos, transient⟩ := s
  obtain ⟨hfile, rfl, rfl⟩ := h
  exact congrArg (Symbol.mk · name none none) (hfile.reread hroot)

/-- A literal with a written form of its own: no number but a finite one, and no zero with a sign. -/
def Literal.Storable : Literal → Prop
  | .number x => x.isFinite = true ∧ x ≠ .zero true
  | _ => True

theorem Literal.Storable.reread {value : Literal} (h : value.Storable) : value.reread = value := by
  rw [reread_eq]
  cases value with
  | number x => rw [settled, if_pos h.1, if_neg h.2]
  | _ => rfl

/-- A place in a source file whose path is that of the name shown to readers. -/
structure Source.Storable (root : String) (s : Source) : Prop where
  path : s.fullPath = .resolve root s.fileName
  line : s.line < Json.wordBound
  column : s.column < Json.wordBound

theorem Source.Storable.reread {root : String} {s : Source} (h : s.Storable root) :
    s.reread root = s := by
  rw [Source.reread, if_pos h.line, if_pos h.column, ← h.path]

/-! ### Reflections -/

/-- A reflection with a written form of its own. Whatever it names is registered, though a slot may hold
what is not. -/
structure Reflection.Storable (p : Project) (root : String) (r : Reflection) : Prop where
  flags : r.flags.Clean
  document : r.tag = .document → r.kind = .document
  project : r.tag = .project → r.kind = .project
  literals : ∀ x ∈ r.literals, p.contains x = true
  refs : ∀ target ∈ r.refTargets, target.Resolved p
  links : ∀ q ∈ r.texts, ∀ target, q.target? = some target → target.Resolved p
  files : ∀ q ∈ r.texts, ∀ file, q.file? = some file → (p.files.path? file).isSome = true
  members : ∀ x ∈ groupMembers r.groupings, p.contains x = true
  symbols : ∀ s, (RefTarget.symbol s ∈ r.refTargets ∨ ∃ q ∈ r.texts, q.target? = some (.symbol s)) →
    s.Storable root
  sources : ∀ s ∈ r.sources, s.Storable root
  values : ∀ t ∈ r.types, ∀ value, Ty.literal value ∈ t.subterms → value.Storable
  args : ∀ t ∈ r.types, ∀ entry ∈ t.references, entry.2 ≠ some []
  /-- The modifier tags of a comment are a set. -/
  comment : ∀ m ∈ r.comment, m.isEmpty = false ∧ m.modifierTags.Nodup
  groups : r.groupings.1 ≠ some [] ∧ ∀ g ∈ r.groupings.1.getD [], g.categories ≠ some []
  categories : r.groupings.2 ≠ some []

namespace Reflection.Storable

variable {p : Project} {root : String} {r : Reflection} (hroot : Path.Rooted root)
  (h : r.Storable p root)

include hroot h

theorem lastingTarget {target : RefTarget} (htarget : target ∈ r.refTargets) :
    p.LastingTarget root target := by
  have hresolved := h.refs target htarget
  cases target with
  | symbol s => exact (h.symbols s (.inl htarget)).reread hroot
  | _ => exact hresolved

theorem lastingPart {q : Part} (hq : q ∈ r.texts) : p.LastingPart root q := by
  cases q with
  | text s | code s => trivial
  | inlineTag tag s target linkText =>
    intro t ht
    have hresolved := h.links _ hq t ht
    cases t with
    | symbol s => exact (h.symbols s (.inr ⟨_, hq, ht⟩)).reread hroot
    | _ => exact hresolved
  | relativeLink s file anchor => exact h.files _ hq

theorem lastingTy {t : Ty} (ht : t ∈ r.types) : p.LastingTy root t := by
  intro u hu
  have hhead : ∀ head args, u.ref? = some (head, args) →
      p.LastingTarget root head.target ∧ args ≠ some [] := by
    intro head args href
    have hmem : (head, args) ∈ t.references := List.mem_filterMap.mpr ⟨u, hu, href⟩
    refine ⟨h.lastingTarget hroot ?_, h.args t ht _ hmem⟩
    exact List.mem_flatMap.mpr ⟨t, ht, List.mem_map_of_mem hmem⟩
  cases u with
  | literal value => exact (h.values t ht value hu).reread
  | reference head args | query head args => exact hhead head args rfl
  | union xs lists =>
    intro ps hps q hq
    refine h.lastingPart hroot (List.mem_append_left _ (List.mem_append_right _ ?_))
    refine List.mem_flatMap.mpr ⟨t, ht, List.mem_flatten.mpr ⟨ps, ?_, hq⟩⟩
    cases lists with
    | none => cases hps
    | some lists =>
      exact List.mem_flatten.mpr ⟨lists, List.mem_filterMap.mpr ⟨_, hu, rfl⟩, hps⟩
  | _ => trivial

theorem lastingContainer {k : Container} (hk : k ∈ r.container?) : p.LastingContainer root k := by
  have hgroupings : r.groupings = (k.groups, k.categories) := by
    rw [Reflection.groupings, Option.mem_def.mp hk]
    rfl
  have htexts : ∀ q ∈ groupTexts r.groupings, p.LastingPart root q := fun q hq =>
    h.lastingPart hroot (List.mem_append_right _ (List.mem_flatMap.mpr
      ⟨k, Option.mem_toList.mpr hk, by rwa [hgroupings] at hq⟩))
  have hmembers := h.members
  have hgroups := h.groups
  have hcategories := h.categories
  rw [hgroupings] at htexts hmembers hgroups hcategories
  refine ⟨hgroups.1, fun g hg => ⟨fun x hx => ?_, fun q hq => ?_, hgroups.2 g hg,
    fun m hm => ⟨fun x hx => ?_, fun q hq => ?_⟩⟩, hcategories, fun m hm => ⟨fun x hx => ?_,
    fun q hq => ?_⟩⟩
  · exact hmembers x (List.mem_append_left _ (List.mem_flatMap.mpr ⟨g, hg, List.mem_append_left _ hx⟩))
  · exact htexts q (List.mem_append_left _ (List.mem_flatMap.mpr ⟨g, hg, List.mem_append_left _ hq⟩))
  · exact hmembers x (List.mem_append_left _ (List.mem_flatMap.mpr ⟨g, hg,
      List.mem_append_right _ (List.mem_flatMap.mpr ⟨m, hm, hx⟩)⟩))
  · exact htexts q (List.mem_append_left _ (List.mem_flatMap.mpr ⟨g, hg,
      List.mem_append_right _ (List.mem_flatMap.mpr ⟨m, hm, hq⟩)⟩))
  · exact hmembers x (List.mem_append_right _ (List.mem_flatMap.mpr ⟨m, hm, hx⟩))
  · exact htexts q (List.mem_append_right _ (List.mem_flatMap.mpr ⟨m, hm, hq⟩))

/-- A reflection with a written form of its own lasts. -/
theorem lasting : p.Lasting root r where
  flags := h.flags.reread
  kind := by
    have hdocument := h.document
    have hproject := h.project
    rw [Copying.bare]
    unfold Reflection.tag at hdocument hproject
    cases hv : r.variant with
    | project d => exact (hproject (by rw [hv]; rfl)).symm
    | document d => exact (hdocument (by rw [hv]; rfl)).symm
    | _ => rfl
  comment m hm := by
    refine ⟨(h.comment m hm).1, (h.comment m hm).2, fun q hq => ?_⟩
    refine h.lastingPart hroot (List.mem_append_left _ (List.mem_append_left _ ?_))
    rw [Reflection.parts, Option.mem_def.mp hm]
    exact List.mem_append_left _ hq
  types t ht := h.lastingTy hroot ht
  texts q hq := by
    refine h.lastingPart hroot (List.mem_append_left _ (List.mem_append_left _ ?_))
    rw [Reflection.parts_eq]
    exact List.mem_append_right _ hq
  container k hk := h.lastingContainer hroot hk
  sources s hs := (h.sources s hs).reread

end Reflection.Storable

/-! ### Projects -/

/-- A project with a written form of its own. -/
structure Project.Storable (p : Project) (root : String) : Prop where
  reflections : ∀ i r, p.get? i = some r → r.Storable p root
  symbols : ∀ entry ∈ p.symbols, p.contains entry.1 = true ∧ entry.2.Storable root
  files : ∀ path ∈ p.files.paths, path.Found root
  owners : ∀ entry ∈ p.files.owners, (p.files.path? entry.1).isSome = true ∧
    p.contains entry.2 = true

end DocTree
