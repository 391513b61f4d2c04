import DocTree.Proofs.Reading.Walk
import DocTree.Proofs.Tolerance.Lookup

/-!
What is left of types, groupings, reflections and projects when it is passed over whether some lists are
absent or empty. Nothing but these lists is touched, so what stands in a type and how it changes are
the same before and after.
-/

namespace DocTree

namespace Blur

variable {α β : Type}

@[simp] theorem lists_exact : Blur.exact.lists = false := rfl

@[simp] theorem texts_exact : Blur.exact.texts = false := rfl

/-- No list in place of an empty one, if that is passed over. -/
def drop (on : Bool) (o : Option (List α)) : Option (List α) :=
  if on then o.filter (!·.isEmpty) else o

@[simp] theorem drop_false (o : Option (List α)) : drop false o = o := rfl

@[simp] theorem drop_none (on : Bool) : drop on (none : Option (List α)) = none := by
  cases on <;> rfl

@[simp] theorem drop_nil : drop true (some ([] : List α)) = none := rfl

@[simp] theorem drop_cons (on : Bool) (x : α) (xs : List α) :
    drop on (some (x :: xs)) = some (x :: xs) := by
  cases on <;> rfl

theorem drop_map (on : Bool) (f : α → β) (o : Option (List α)) :
    drop on (o.map (·.map f)) = (drop on o).map (·.map f) := by
  rcases o with _ | _ | ⟨x, xs⟩ <;> cases on <;> rfl

theorem getD_map (f : α → β) (o : Option (List α)) :
    (o.map (·.map f)).getD [] = (o.getD []).map f := by
  cases o <;> rfl

@[simp] theorem getD_drop (on : Bool) (o : Option (List α)) : (drop on o).getD [] = o.getD [] := by
  rcases o with _ | _ | ⟨x, xs⟩ <;> cases on <;> rfl

end Blur

open Blur (drop)

/-! ### Types -/

namespace Ty

mutual

/-- The type without type arguments that are empty lists, if these are passed over. -/
def blur (b : Blur) : Ty → Ty
  | .array a => .array (blur b a)
  | .conditional x y z w => .conditional (blur b x) (blur b y) (blur b z) (blur b w)
  | .indexedAccess x y => .indexedAccess (blur b x) (blur b y)
  | .inferred n a => .inferred n (blurOption b a)
  | .intersection as => .intersection (blurList b as)
  | .intrinsic n => .intrinsic n
  | .literal v => .literal v
  | .mapped p x y r o n => .mapped p (blur b x) (blur b y) r o (blurOption b n)
  | .namedTupleMember n o a => .namedTupleMember n o (blur b a)
  | .optional a => .optional (blur b a)
  | .predicate n s a => .predicate n s (blurOption b a)
  | .query h args => .query h (drop b.lists (blurArgs b args))
  | .reference h args => .reference h (drop b.lists (blurArgs b args))
  | .reflection d => .reflection d
  | .rest a => .rest (blur b a)
  | .templateLiteral h tail => .templateLiteral h (blurTail b tail)
  | .tuple as => .tuple (blurList b as)
  | .operator o a => .operator o (blur b a)
  | .union as s => .union (blurList b as) s
  | .unknown n => .unknown n

def blurOption (b : Blur) : Option Ty → Option Ty
  | none => none
  | some a => some (blur b a)

def blurArgs (b : Blur) : Option (List Ty) → Option (List Ty)
  | none => none
  | some as => some (blurList b as)

def blurList (b : Blur) : List Ty → List Ty
  | [] => []
  | a :: as => blur b a :: blurList b as

def blurTail (b : Blur) : List (Ty × String) → List (Ty × String)
  | [] => []
  | (a, s) :: tail => (blur b a, s) :: blurTail b tail

end

attribute [grind =] blur

variable (b : Blur)

@[simp] theorem blurOption_eq (o : Option Ty) : blurOption b o = o.map (blur b) := by cases o <;> rfl

@[simp] theorem blurList_eq (xs : List Ty) : blurList b xs = xs.map (blur b) := by
  induction xs with
  | nil => rfl
  | cons x rest ih => rw [blurList, ih, List.map_cons]

@[simp] theorem blurArgs_eq (args : Option (List Ty)) :
    blurArgs b args = args.map (·.map (blur b)) := by
  cases args <;> simp [blurArgs]

@[simp] theorem blurTail_eq (tail : List (Ty × String)) :
    blurTail b tail = tail.map fun entry => (blur b entry.1, entry.2) := by
  induction tail with
  | nil => rfl
  | cons entry rest ih => rw [blurTail, ih, List.map_cons]

theorem children_blur (t : Ty) : (t.blur b).children = t.children.map (blur b) := by
  cases t with
  | inferred name x | predicate name asserts x => cases x <;> simp [blur, children]
  | mapped parameter x y fixed missing z => cases z <;> simp [blur, children]
  | query head args | reference head args => cases args <;> simp [blur, children]
  | templateLiteral head tail => simp [blur, children]
  | _ => simp [blur, children]

theorem ref?_blur (t : Ty) : (t.blur b).ref?.map (·.1) = t.ref?.map (·.1) := by
  cases t <;> simp [blur, ref?]

theorem declaration?_blur (t : Ty) : (t.blur b).declaration? = t.declaration? := by
  cases t <;> simp [blur, declaration?]

theorem summaries?_blur (t : Ty) : (t.blur b).summaries? = t.summaries? := by
  cases t <;> simp [blur, summaries?]

theorem declarations_blur (t : Ty) : (t.blur b).declarations = t.declarations := by
  induction t using induct with
  | h t ih =>
    rw [declarations_eq, declarations_eq t, children_blur, declaration?_blur, List.flatMap_map]
    exact congrArg _ (congrArg List.flatten (List.map_congr_left ih))

theorem references_blur (t : Ty) : (t.blur b).references.map (·.1) = t.references.map (·.1) := by
  induction t using induct with
  | h t ih =>
    rw [references_eq, references_eq t, children_blur, List.map_append, List.map_append,
      List.flatMap_map, List.map_flatMap, List.map_flatMap]
    congr 1
    · simpa [Option.toList_map] using congrArg Option.toList (ref?_blur b t)
    · exact congrArg List.flatten (List.map_congr_left ih)

theorem parts_blur (t : Ty) : (t.blur b).parts = t.parts := by
  induction t using induct with
  | h t ih =>
    rw [parts_eq, parts_eq t, children_blur, summaries?_blur, List.flatMap_map]
    exact congrArg _ (congrArg List.flatten (List.map_congr_left ih))

theorem map_comm {α : Type} {f g f' g' : α → α} {l : List α} (h : ∀ x ∈ l, f (g x) = f' (g' x)) :
    (l.map g).map f = (l.map g').map f' := by
  rw [List.map_map, List.map_map]
  exact List.map_congr_left h

/-- A change commutes with passing over. -/
theorem blur_adjust (c : Change) (t : Ty) : (t.adjust c).blur b = (t.blur b).adjust c := by
  induction t using induct with
  | h t ih =>
    cases t with
    | inferred name x | predicate name asserts x =>
      cases x with
      | none => rfl
      | some x => simp [blur, adjust, adjustOption, ih x (by simp [children])]
    | mapped parameter x y fixed missing z =>
      cases z with
      | none => simp [blur, adjust, adjustOption, ih x (by simp [children]), ih y (by simp [children])]
      | some z =>
        simp [blur, adjust, adjustOption, ih x (by simp [children]), ih y (by simp [children]),
          ih z (by simp [children])]
    | query head args =>
      cases hq : c.inQueries with
      | false => simp [blur, adjust, hq]
      | true =>
        cases args with
        | none => simp [blur, adjust, hq, adjustArgs]
        | some xs =>
          have hxs := map_comm (l := xs) fun x hx => ih x hx
          simp only [blur, adjust, hq, if_true, blurArgs_eq, adjustArgs_eq, Option.map_some, hxs]
          rw [← Blur.drop_map, Option.map_some]
    | reference head args =>
      cases args with
      | none => simp [blur, adjust, adjustArgs]
      | some xs =>
        have hxs := map_comm (l := xs) fun x hx => ih x hx
        simp only [blur, adjust, blurArgs_eq, adjustArgs_eq, Option.map_some, hxs]
        rw [← Blur.drop_map, Option.map_some]
    | intersection xs | tuple xs | union xs =>
      have hxs := map_comm (l := xs) fun x hx => ih x hx
      simp only [blur, adjust, blurList_eq, adjustList_eq, hxs]
    | templateLiteral head tail =>
      have htail : ∀ entry ∈ tail, (entry.1.adjust c).blur b = (entry.1.blur b).adjust c :=
        fun entry hentry => ih entry.1 (List.mem_map_of_mem hentry)
      simp only [blur, adjust, blurTail_eq, adjustTail_eq, List.map_map]
      congr 1
      exact List.map_congr_left fun entry hentry => by simp [htail entry hentry]
    | _ => simp_all [blur, adjust, children]

theorem blur_exact (t : Ty) : t.blur .exact = t := by
  induction t using induct with
  | h t ih =>
    cases t with
    | inferred name x | predicate name asserts x => cases x <;> simp_all [blur, children]
    | mapped parameter x y fixed missing z => cases z <;> simp_all [blur, children]
    | query head args | reference head args =>
      cases args with
      | none => rfl
      | some xs =>
        have hxs : xs.map (blur .exact) = xs := map_of_id ih
        simp only [blur, blurArgs_eq, Option.map_some, hxs]
        rfl
    | intersection xs | tuple xs | union xs =>
      simp only [blur, blurList_eq, map_of_id (l := xs) ih]
    | templateLiteral head tail =>
      have htail : tail.map (fun entry => (blur .exact entry.1, entry.2)) = tail :=
        map_of_id fun entry hentry => Prod.ext (ih entry.1 (List.mem_map_of_mem hentry)) rfl
      simp only [blur, blurTail_eq, htail]
    | _ => simp_all [blur, children]

end Ty

/-! ### Groupings -/

section

variable (b : Blur)

def Category.blur (c : Category) : Category := { c with description := drop b.texts c.description }

def Group.blur (g : Group) : Group := { g with
  description := drop b.texts g.description
  categories := drop b.lists (g.categories.map (·.map (Category.blur b))) }

/-- The groups of a reflection. -/
def Group.blur? (groups : Option (List Group)) : Option (List Group) :=
  drop b.lists (groups.map (·.map (Group.blur b)))

/-- The categories of a reflection or a group. -/
def Category.blur? (categories : Option (List Category)) : Option (List Category) :=
  drop b.lists (categories.map (·.map (Category.blur b)))

@[simp] theorem Group.blur?_none : Group.blur? b none = none := Blur.drop_none _

@[simp] theorem Category.blur?_none : Category.blur? b none = none := Blur.drop_none _

def Container.blur (k : Container) : Container := { k with
  groups := Group.blur? b k.groups
  categories := Category.blur? b k.categories }

/-! ### Reflections and projects -/

/-- The groupings and the readme of a variant. -/
def Variant.blurLists : Variant → Variant
  | .project d => .project { d with
      container := d.container.blur b
      readme := drop b.texts d.readme }
  | .declaration d => .declaration { d with
      container := d.container.blur b
      readme := drop b.texts d.readme }
  | v => v

def Variant.blur (v : Variant) : Variant := (v.mapTypes (Ty.blur b)).blurLists b

def Reflection.blur (r : Reflection) : Reflection := { r with variant := r.variant.blur b }

def Project.blur (p : Project) : Project := { p with arena := p.arena.map (·.map (Reflection.blur b)) }

/-- Work put off; groupings of nothing are none, if that is passed over. -/
def Deferred.blur? : Deferred → Option Deferred
  | .groupings id groups categories =>
    if b.lists && (Group.blur? b groups).isNone && (Category.blur? b categories).isNone then none
    else some (.groupings id (Group.blur? b groups) (Category.blur? b categories))
  | d => some d

def Revival.blur (r : Revival) : Revival := { r with project := r.project.blur b }

def Reading.blur (σ : Reading) : Reading := ⟨σ.revival.blur b, σ.queue.filterMap (Deferred.blur? b)⟩

end

/-! ### Nothing passed over -/

theorem Category.blur_exact : Category.blur .exact = id := rfl

theorem Category.blur?_exact (categories : Option (List Category)) :
    Category.blur? .exact categories = categories := by
  simp [Category.blur?, Category.blur_exact]

theorem Group.blur_exact : Group.blur .exact = id := by
  funext g
  simp [Group.blur, Category.blur_exact]

theorem Group.blur?_exact (groups : Option (List Group)) : Group.blur? .exact groups = groups := by
  simp [Group.blur?, Group.blur_exact]

theorem Variant.blur_exact (v : Variant) : v.blur .exact = v := by
  have htypes : Ty.blur .exact = id := funext Ty.blur_exact
  cases v <;>
    simp [Variant.blur, mapTypes, blurLists, htypes, Container.blur, Group.blur?_exact,
      Category.blur?_exact]

theorem Project.blur_exact (p : Project) : p.blur .exact = p := by
  have hreflection : Reflection.blur .exact = id := by
    funext r
    rw [Reflection.blur, Variant.blur_exact]
    rfl
  simp [Project.blur, hreflection]

end DocTree
