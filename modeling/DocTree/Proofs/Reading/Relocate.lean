import DocTree.Proofs.Reading.Reads
import DocTree.Proofs.Reading.Works

/-!
Values with other numbers. `Renaming` gives the reflections and files in a value their other numbers,
everywhere in what can be read. When the same object is read behind other reflections, all numbers
that reading gives are higher by the same amount, and the files that were listed have other numbers:
`Relocation` is the difference between two such places.
-/

namespace DocTree

/-- Other numbers for reflections and files. -/
structure Renaming where
  number : Nat → Nat
  file : FileId → FileId

/-- How one place of reading differs from another. -/
structure Relocation extends Renaming where
  shift : Nat
  number_eq : ∀ i, number i = i + shift

namespace Renaming

variable (μ : Renaming)

/-- The same numbers. -/
def still : Renaming := ⟨fun i => i, fun file => file⟩

/-! ### Texts and types -/

def link : LinkTarget → LinkTarget
  | .reflection id => .reflection (μ.number id)
  | target => target

def refTarget : RefTarget → RefTarget
  | .reflection id => .reflection (μ.number id)
  | target => target

def part : Part → Part
  | .inlineTag tag s target linkText => .inlineTag tag s (target.map μ.link) linkText
  | .relativeLink s file anchor => .relativeLink s (file.map μ.file) anchor
  | p => p

def ref (head : Ref) : Ref := { head with target := μ.refTarget head.target }

mutual

def ty : Ty → Ty
  | .array a => .array (ty a)
  | .conditional a b c d => .conditional (ty a) (ty b) (ty c) (ty d)
  | .indexedAccess a b => .indexedAccess (ty a) (ty b)
  | .inferred n a => .inferred n (tyOption a)
  | .intersection as => .intersection (tyList as)
  | .intrinsic n => .intrinsic n
  | .literal v => .literal v
  | .mapped p a b r o n => .mapped p (ty a) (ty b) r o (tyOption n)
  | .namedTupleMember n o a => .namedTupleMember n o (ty a)
  | .optional a => .optional (ty a)
  | .predicate n s a => .predicate n s (tyOption a)
  | .query h args => .query (μ.ref h) (tyArgs args)
  | .reference h args => .reference (μ.ref h) (tyArgs args)
  | .reflection d => .reflection (μ.number d)
  | .rest a => .rest (ty a)
  | .templateLiteral h tail => .templateLiteral h (tyTail tail)
  | .tuple as => .tuple (tyList as)
  | .operator o a => .operator o (ty a)
  | .union as lists => .union (tyList as) (lists.map (·.map (·.map μ.part)))
  | .unknown n => .unknown n

def tyOption : Option Ty → Option Ty
  | none => none
  | some a => some (ty a)

def tyArgs : Option (List Ty) → Option (List Ty)
  | none => none
  | some as => some (tyList as)

def tyList : List Ty → List Ty
  | [] => []
  | a :: as => ty a :: tyList as

def tyTail : List (Ty × String) → List (Ty × String)
  | [] => []
  | (a, s) :: tail => (ty a, s) :: tyTail tail

end

@[simp] theorem tyOption_eq (a : Option Ty) : μ.tyOption a = a.map μ.ty := by
  cases a <;> rfl

@[simp] theorem tyList_eq (as : List Ty) : μ.tyList as = as.map μ.ty := by
  induction as with
  | nil => rfl
  | cons a rest ih => rw [tyList, ih, List.map_cons]

@[simp] theorem tyArgs_eq (args : Option (List Ty)) : μ.tyArgs args = args.map (·.map μ.ty) := by
  cases args with
  | none => rfl
  | some as => rw [tyArgs, tyList_eq, Option.map_some]

@[simp] theorem tyTail_eq (tail : List (Ty × String)) :
    μ.tyTail tail = tail.map fun entry => (μ.ty entry.1, entry.2) := by
  induction tail with
  | nil => rfl
  | cons entry rest ih => rw [tyTail, ih, List.map_cons]

/-! ### Reflections -/

def comment (m : Comment) : Comment := m.mapParts μ.part

/-- A category whose members are still old numbers. -/
def draftCategory (k : Category) : Category :=
  { k with description := k.description.map (·.map μ.part) }

def category (k : Category) : Category :=
  { μ.draftCategory k with children := k.children.map μ.number }

/-- A group whose members are still old numbers. -/
def draftGroup (g : Group) : Group :=
  { g with
    description := g.description.map (·.map μ.part)
    categories := g.categories.map (·.map μ.draftCategory) }

def group (g : Group) : Group :=
  { g with
    description := g.description.map (·.map μ.part)
    children := g.children.map μ.number
    categories := g.categories.map (·.map μ.category) }

def container (k : Container) : Container :=
  ⟨k.children.map μ.number, k.documents.map μ.number, k.groups.map (·.map μ.group),
    k.categories.map (·.map μ.category)⟩

def target : ReferenceTarget → ReferenceTarget
  | .fixed id => .fixed (id.map μ.number)
  | .named name outcome => .named name (outcome.map (·.map μ.number))

/-- The numbers in the slots and groups of a variant and in the target of a reference. -/
def slots : Variant → Variant
  | .project d => .project { d with container := μ.container d.container }
  | .declaration d => .declaration { d with
      container := μ.container d.container
      typeParameters := d.typeParameters.map μ.number
      signatures := d.signatures.map μ.number
      indexSignatures := d.indexSignatures.map μ.number
      getSignature := d.getSignature.map μ.number
      setSignature := d.setSignature.map μ.number }
  | .signature d => .signature { d with
      parameters := d.parameters.map μ.number
      typeParameters := d.typeParameters.map μ.number }
  | .reference t => .reference (μ.target t)
  | v => v

def variant (v : Variant) : Variant := ((μ.slots v).mapTypes μ.ty).mapParts μ.part

def reflection (r : Reflection) : Reflection :=
  { r with
    id := μ.number r.id
    parent := r.parent.map μ.number
    comment := r.comment.map μ.comment
    variant := μ.variant r.variant }

/-! ### The state of reading -/

def entry (e : Nat × ReflectionId) : Nat × ReflectionId := (e.1, μ.number e.2)

def work : Deferred → Deferred
  | .pendingTargets id => .pendingTargets (μ.number id)
  | .groupings id groups categories => .groupings (μ.number id) (groups.map (·.map μ.draftGroup))
      (categories.map (·.map μ.draftCategory))
  | .target id old => .target (μ.number id) old
  | d => d

def crop (y : Crop) : Crop :=
  ⟨y.block.map μ.reflection, y.ids.map μ.entry, y.queue.map μ.work, y.pending⟩

/-- The files of a site with their other numbers. -/
def site (e : Site) : Site := { e with files := e.files.map fun entry => (entry.1, μ.file entry.2) }

@[simp] theorem crop_append (y z : Crop) : μ.crop (y ++ z) = μ.crop y ++ μ.crop z := by
  change Crop.mk _ _ _ _ = Crop.mk _ _ _ _
  simp only [Crop.block_append, Crop.ids_append, Crop.queue_append, Crop.pending_append,
    List.map_append]
  rfl

@[simp] theorem crop_none : μ.crop .none = .none := rfl

@[simp] theorem crop_light (k : Nat) : μ.crop (.light k) = .light k := rfl

@[simp] theorem crop_work (d : Deferred) : μ.crop (.work d) = .work (μ.work d) := rfl

@[simp] theorem pending_crop (y : Crop) : (μ.crop y).pending = y.pending := rfl

theorem length_block_crop (y : Crop) : (μ.crop y).block.length = y.block.length := List.length_map ..

theorem lookup_map_file (files : List (Nat × FileId)) (old : Nat) :
    (files.map fun entry => (entry.1, μ.file entry.2)).lookup old = (files.lookup old).map μ.file := by
  induction files with
  | nil => rfl
  | cons entry rest ih =>
    obtain ⟨key, file⟩ := entry
    rw [List.map_cons, List.lookup_cons, List.lookup_cons, ih]
    cases old == key <;> rfl

/-! ### What stands in a moved type -/

theorem children_ty (t : Ty) : (μ.ty t).children = t.children.map μ.ty := by
  cases t with
  | inferred name x | predicate name asserts x => cases x <;> simp [ty, Ty.children]
  | mapped parameter x y fixed missing z => cases z <;> simp [ty, Ty.children]
  | query head args | reference head args => cases args <;> simp [ty, Ty.children]
  | _ => simp [ty, Ty.children]

theorem declaration?_ty (t : Ty) : (μ.ty t).declaration? = t.declaration?.map μ.number := by
  cases t <;> rfl

theorem declarations_ty (t : Ty) : (μ.ty t).declarations = t.declarations.map μ.number := by
  induction t using Ty.induct with
  | h t ih =>
    have hinner : t.children.flatMap (fun a => (μ.ty a).declarations) =
        t.children.flatMap fun a => a.declarations.map μ.number :=
      congrArg List.flatten (List.map_congr_left ih)
    rw [Ty.declarations_eq, Ty.declarations_eq t, declaration?_ty, children_ty, List.flatMap_map,
      hinner, List.map_append, List.map_flatMap]
    cases t.declaration? <;> rfl

/-! ### Nothing is moved by staying -/

theorem number_still (i : Nat) : still.number i = i := rfl

theorem map_number_still (ids : List ReflectionId) : ids.map still.number = ids := List.map_id ids

theorem part_still (p : Part) : still.part p = p := by
  cases p with
  | inlineTag tag s target linkText =>
    cases target with
    | none => rfl
    | some target => cases target <;> rfl
  | relativeLink s file anchor => cases file <;> rfl
  | _ => rfl

theorem map_part_still (ps : List Part) : ps.map still.part = ps :=
  Ty.map_of_id fun p _ => part_still p

theorem ref_still (head : Ref) : still.ref head = head := by
  rw [ref]
  cases hhead : head.target <;> simp [refTarget, number_still, ← hhead]

theorem ty_still (t : Ty) : still.ty t = t := by
  induction t using Ty.induct with
  | h t ih =>
    have hinner := Ty.mapChildren_of_id ih
    cases t with
    | reference head args | query head args =>
      simp only [Ty.mapChildren] at hinner
      simp only [ty, tyArgs_eq, ref_still, hinner]
    | union xs lists =>
      simp only [Ty.mapChildren] at hinner
      injection hinner with hxs
      have hlists : lists.map (·.map (·.map still.part)) = lists := by
        cases lists with
        | none => rfl
        | some lists => exact congrArg some (Ty.map_of_id fun ps _ => map_part_still ps)
      simp only [ty, tyList_eq, hxs, hlists]
    | _ =>
      simp only [Ty.mapChildren] at hinner
      simp only [ty, tyList_eq, tyOption_eq, tyTail_eq, number_still, hinner]

theorem comment_still (m : Comment) : still.comment m = m :=
  Comment.mapParts_of_id fun p _ => part_still p

theorem description_still (ps : Option (List Part)) : ps.map (·.map still.part) = ps := by
  cases ps with
  | none => rfl
  | some ps => exact congrArg some (map_part_still ps)

theorem draftCategory_still (k : Category) : still.draftCategory k = k := by
  rw [draftCategory, description_still]

theorem category_still (k : Category) : still.category k = k := by
  rw [category, draftCategory_still, map_number_still]

theorem map_some_still {α : Type} {f : α → α} (h : ∀ a, f a = a) (as : Option (List α)) :
    as.map (·.map f) = as := by
  cases as with
  | none => rfl
  | some as => exact congrArg some (Ty.map_of_id fun a _ => h a)

theorem draftGroup_still (g : Group) : still.draftGroup g = g := by
  rw [draftGroup, description_still, map_some_still draftCategory_still]

theorem group_still (g : Group) : still.group g = g := by
  rw [group, description_still, map_number_still, map_some_still category_still]

theorem container_still (k : Container) : still.container k = k := by
  rw [container, map_number_still, map_number_still, map_some_still group_still,
    map_some_still category_still]

theorem map_option_still (id : Option ReflectionId) : id.map still.number = id := by
  cases id <;> rfl

theorem variant_still (v : Variant) : still.variant v = v := by
  have hslots : still.slots v = v := by
    cases v with
    | reference t =>
      cases t with
      | fixed id => simp only [slots, target, map_option_still]
      | named name outcome => cases outcome <;> simp [slots, target, map_option_still]
    | _ => simp only [slots, container_still, map_number_still, map_option_still]
  rw [variant, hslots, Variant.mapTypes_congr (g := id) fun t _ => ty_still t, Variant.mapTypes_id,
    Variant.mapParts_of_id fun p _ => part_still p]

theorem reflection_still (r : Reflection) : still.reflection r = r := by
  have hcomment : r.comment.map still.comment = r.comment := by
    cases r.comment with
    | none => rfl
    | some m => exact congrArg some (comment_still m)
  rw [reflection, number_still, map_option_still, hcomment, variant_still]

theorem work_still (d : Deferred) : still.work d = d := by
  cases d with
  | groupings id groups categories =>
    rw [work, number_still, map_some_still draftGroup_still, map_some_still draftCategory_still]
  | _ => rfl

theorem crop_still (y : Crop) : still.crop y = y := by
  rw [crop, Ty.map_of_id fun r _ => reflection_still r, Ty.map_of_id fun d _ => work_still d]
  exact congrArg (Crop.mk y.block · y.queue y.pending) (List.map_id y.ids)

theorem site_still (e : Site) : still.site e = e := by
  rw [site]
  exact congrArg (Site.mk e.root · e.clean) (List.map_id e.files)

end Renaming

/-! ### Places -/

namespace Relocation

variable (μ : Relocation)

/-- A place so many numbers further on. -/
def shifted (shift : Nat) (file : FileId → FileId) : Relocation := ⟨⟨(· + shift), file⟩, shift, fun _ => rfl⟩

/-- The same place. -/
def still : Relocation := ⟨.still, 0, fun _ => rfl⟩

theorem toRenaming_still : still.toRenaming = .still := rfl

theorem number_project : μ.number ReflectionId.project = μ.shift :=
  (μ.number_eq _).trans (Nat.zero_add _)

theorem shift_le_number (i : Nat) : μ.shift ≤ μ.number i := by
  rw [μ.number_eq]
  exact Nat.le_add_left ..

theorem number_inj {i j : Nat} : μ.number i = μ.number j ↔ i = j := by
  rw [μ.number_eq, μ.number_eq, Nat.add_right_cancel_iff]

theorem number_add (base k : Nat) : μ.number base + k = μ.number (base + k) := by
  rw [μ.number_eq, μ.number_eq, Nat.add_right_comm]

/-- The numbers that are given behind a crop. -/
theorem number_next (base : Nat) (y : Crop) :
    μ.number base + (μ.crop y).block.length = μ.number (base + y.block.length) := by
  rw [Renaming.length_block_crop, number_add]

end Relocation

end DocTree
