import DocTree.Proofs.Reading.Relocate
import DocTree.Proofs.RoundTrip.Image

/-!
Values that writing and reading do not change. A value lasts when everything in it leads to what is
there, when its paths are found again from the root, and when it has no empty list or other form that
is not written. Of such a value nothing but the numbers is new.
-/

namespace DocTree

/-- A type in which every symbol that is found has become a number. -/
def Project.resolvedTy (p : Project) (t : Ty) : Ty :=
  t.adjust { Ty.Change.none with ref := p.settleRef }

/-! ### Values that last -/

namespace Project

variable (p : Project) (root : String)

/-- A link that leads to a registered reflection, to a symbol that is found again, or elsewhere. -/
def LastingLink : LinkTarget → Prop
  | .reflection id => p.contains id = true
  | .symbol s => s.reread root = s
  | .url _ => True
  | .pending _ => False

def LastingPart : Part → Prop
  | .text _ | .code _ => True
  | .inlineTag _ _ target _ => ∀ t ∈ target, p.LastingLink root t
  | .relativeLink _ file _ => ∀ f ∈ file, (p.files.path? f).isSome = true

def LastingTarget : RefTarget → Prop
  | .reflection id => p.contains id = true
  | .symbol s => s.reread root = s
  | .pending _ => False
  | .broken => True

/-- The root of a type lasts, whatever the types inside it. -/
def LastingNode : Ty → Prop
  | .literal value => value.reread = value
  | .reference head args | .query head args => p.LastingTarget root head.target ∧ args ≠ some []
  | .union _ lists => ∀ ps ∈ lists.getD [], ∀ q ∈ ps, p.LastingPart root q
  | _ => True

def LastingTy (t : Ty) : Prop := ∀ u ∈ t.subterms, p.LastingNode root u

structure LastingComment (m : Comment) : Prop where
  told : m.isEmpty = false
  modifiers : m.modifierTags.Nodup
  parts : ∀ q ∈ m.parts, p.LastingPart root q

structure LastingCategory (k : Category) : Prop where
  members : ∀ x ∈ k.children, p.contains x = true
  description : ∀ q ∈ k.description.getD [], p.LastingPart root q

structure LastingGroup (g : Group) : Prop where
  members : ∀ x ∈ g.children, p.contains x = true
  description : ∀ q ∈ g.description.getD [], p.LastingPart root q
  filled : g.categories ≠ some []
  categories : ∀ k ∈ g.categories.getD [], p.LastingCategory root k

structure LastingContainer (k : Container) : Prop where
  grouped : k.groups ≠ some []
  groups : ∀ g ∈ k.groups.getD [], p.LastingGroup root g
  categorized : k.categories ≠ some []
  categories : ∀ m ∈ k.categories.getD [], p.LastingCategory root m

/-- A reflection that lasts. -/
structure Lasting (r : Reflection) : Prop where
  flags : r.flags.reread = r.flags
  kind : (Copying.bare r).kind = r.kind
  comment : ∀ m ∈ r.comment, p.LastingComment root m
  types : ∀ t ∈ r.types, p.LastingTy root t
  texts : ∀ q ∈ r.variant.parts, p.LastingPart root q
  container : ∀ k ∈ r.container?, p.LastingContainer root k
  sources : ∀ s ∈ r.sources, s.reread root = s

end Project

/-- Modifier tags that differ are all added. -/
theorem foldl_addModifier {m : Comment} {tags : List String} (h : (m.modifierTags ++ tags).Nodup) :
    tags.foldl Comment.addModifier m = { m with modifierTags := m.modifierTags ++ tags } := by
  induction tags generalizing m with
  | nil => rw [List.append_nil]; rfl
  | cons tag rest ih =>
    have hnot : ¬ m.hasModifier tag = true := by
      rw [Comment.hasModifier, decide_eq_true_eq]
      exact fun hmem => (List.nodup_append.mp h).2.2 tag hmem tag (List.mem_cons_self ..) rfl
    rw [List.foldl_cons, Comment.addModifier, if_neg hnot, ih (by simpa using h)]
    simp

namespace Copying

/-- The new numbers and files of what is copied are those of a renaming. -/
structure Follows (c : Copying) (v : Revival) (μ : Renaming) : Prop where
  ids : ∀ x, c.project.contains x = true → v.id? x = some (μ.number x)
  files : ∀ file, (c.project.files.path? file).isSome = true → c.file? file = some (μ.file file)

variable {c : Copying} {v : Revival} {μ : Renaming}

/-! ### Texts -/

theorem part_lasting (h : c.Follows v μ) {q : Part} (hq : c.project.LastingPart c.root q) :
    Reader.newPart v (c.part q) = μ.part q := by
  cases q with
  | text s | code s => rfl
  | inlineTag tag s target linkText =>
    cases target with
    | none => rfl
    | some target =>
      have ht : c.project.LastingLink c.root target := hq target rfl
      cases target with
      | reflection id =>
        simp [part, link?, if_pos (show c.project.contains id = true from ht), Reader.newPart,
          Part.mapTarget, Reader.newLink?, h.ids id ht, Renaming.part, Renaming.link]
      | symbol s =>
        have hs : s.reread c.root = s := ht
        simp [part, link?, hs, Reader.newPart, Part.mapTarget, Reader.newLink?, Renaming.part,
          Renaming.link]
      | url address => rfl
      | pending old => exact ht.elim
  | relativeLink s file anchor =>
    cases file with
    | none => rfl
    | some file =>
      have hfile := h.files file (hq file rfl)
      simp [part, hfile, Reader.newPart, Part.mapTarget, Renaming.part]

theorem parts_lasting (h : c.Follows v μ) {ps : List Part}
    (hps : ∀ q ∈ ps, c.project.LastingPart c.root q) :
    (c.parts ps).map (Reader.newPart v) = ps.map μ.part := by
  rw [parts, List.map_map]
  exact List.map_congr_left fun q hq => part_lasting h (hps q hq)

/-! ### Types -/

/-- The reflections that are read from a number on get the numbers of the renaming. -/
def Runs (c : Copying) (μ : Renaming) (b : Nat) (xs : List ReflectionId) : Prop :=
  c.run b xs = xs.map μ.number

@[simp] theorem runs_nil (b : Nat) : c.Runs μ b [] := rfl

@[simp] theorem runs_append {b : Nat} {xs ys : List ReflectionId} :
    c.Runs μ b (xs ++ ys) ↔ c.Runs μ b xs ∧ c.Runs μ (b + c.total xs) ys := by
  rw [Runs, Runs, Runs, run_append, List.map_append]
  constructor
  · intro h
    exact List.append_inj h (by rw [length_run, List.length_map])
  · rintro ⟨hxs, hys⟩
    rw [hxs, hys]

theorem target_lasting (hleg : c.Legible) (h : c.Follows v μ) {target : RefTarget}
    (ht : c.project.LastingTarget c.root target) :
    Reader.newRef v (c.refTarget target) = μ.refTarget (c.project.settleTarget target) := by
  cases target with
  | reflection id =>
    have hid : c.project.contains id = true := ht
    simp [refTarget, Project.resolveTarget?, if_pos hid, Reader.newRef, h.ids id hid,
      Project.settleTarget, Renaming.refTarget]
  | symbol s =>
    have hs : s.reread c.root = s := ht
    rw [refTarget, Project.settleTarget]
    cases hfound : c.project.resolveTarget? (.symbol s) with
    | none =>
      have hnone : c.project.ofSymbol? s = none := Option.map_eq_none_iff.mp hfound
      simp [hnone, hs, Reader.newRef, Renaming.refTarget]
    | some id =>
      obtain ⟨r, hr, rfl⟩ := Option.map_eq_some_iff.mp hfound
      have hid := h.ids r.id (hleg.contains_of_resolveTarget? hfound)
      simp [hr, Reader.newRef, hid, Renaming.refTarget]
  | pending old => exact ht.elim
  | broken => rfl

theorem ref_lasting (hleg : c.Legible) (h : c.Follows v μ) {head : Ref}
    (ht : c.project.LastingTarget c.root head.target) :
    { c.ref head with target := Reader.newRef v (c.ref head).target } =
      μ.ref (c.project.settleRef head) := by
  rw [ref, target_lasting hleg h ht]
  rfl

theorem tyList_lasting {ts : List Ty} {f : Ty → Ty}
    (h : ∀ t ∈ ts, ∀ b, c.Runs μ b t.declarations → Reader.newType v (c.ty b t) = f t) (b : Nat)
    (hb : c.Runs μ b (ts.flatMap Ty.declarations)) :
    (c.tyList b ts).map (Reader.newType v) = ts.map f := by
  induction ts generalizing b with
  | nil => rfl
  | cons t rest ih =>
    rw [List.flatMap_cons, runs_append] at hb
    rw [tyList, List.map_cons, List.map_cons, h t (List.mem_cons_self ..) b hb.1,
      ih (fun x hx => h x (List.mem_cons_of_mem t hx)) _ hb.2]

theorem tyTail_lasting {f g : Ty → Ty} {tail : List (Ty × String)} {b : Nat}
    (h : (c.tyList b (tail.map (·.1))).map f = (tail.map (·.1)).map g) :
    (c.tyTail b tail).map (fun entry => (f entry.1, entry.2)) =
      tail.map fun entry => (g entry.1, entry.2) := by
  induction tail generalizing b with
  | nil => rfl
  | cons entry rest ih =>
    obtain ⟨hentry, hrest⟩ := List.cons.inj h
    rw [tyTail, List.map_cons, List.map_cons, hentry, ih hrest]

theorem tyArgs_lasting {f g : Ty → Ty} {args : Option (List Ty)} {b : Nat} (hargs : args ≠ some [])
    (h : (c.tyList b (args.getD [])).map f = (args.getD []).map g) :
    (c.tyArgs b args).map (·.map f) = args.map (·.map g) := by
  rcases args with _ | _ | ⟨x, xs⟩
  · rfl
  · exact absurd rfl hargs
  · exact congrArg some h

/-- A type that lasts is read again with the new numbers. -/
theorem ty_lasting (hleg : c.Legible) (h : c.Follows v μ) (t : Ty) (b : Nat)
    (ht : c.project.LastingTy c.root t) (hb : c.Runs μ b t.declarations) :
    Reader.newType v (c.ty b t) = μ.ty (c.project.resolvedTy t) := by
  induction t using Ty.induct generalizing b with
  | h t ih =>
    have hnode : c.project.LastingNode c.root t :=
      ht t (by rw [Ty.subterms_eq]; exact List.mem_cons_self ..)
    -- Only a type that owns a declaration takes a number before its children do.
    have hinner : t.declaration? = none → (c.tyList b t.children).map (Reader.newType v) =
        t.children.map fun a => μ.ty (c.project.resolvedTy a) := by
      intro hnone
      rw [Ty.declarations_eq, hnone] at hb
      exact tyList_lasting (fun a ha b => ih a ha b fun u hu =>
        ht u (Ty.mem_subterms_of_mem_children ha hu)) b hb
    unfold Reader.newType Project.resolvedTy at hinner ⊢
    cases t with
    | intrinsic name | unknown name => rfl
    | literal value =>
      have hvalue : value.reread = value := hnode
      simp only [ty, hvalue, Ty.adjust, Renaming.ty]
    | reflection d =>
      have hd : b = μ.number d := (List.cons.inj hb).1
      simp only [ty, Ty.adjust, Renaming.ty, hd]
    | array x | optional x | rest x | namedTupleMember name isOptional x | operator op x =>
      have hx := (List.cons.inj (hinner rfl)).1
      simp only [ty, Ty.adjust, Renaming.ty, hx]
    | indexedAccess x y =>
      obtain ⟨hx, hrest⟩ := List.cons.inj (hinner rfl)
      have hy := (List.cons.inj hrest).1
      simp only [ty, Ty.adjust, Renaming.ty, hx, hy]
    | conditional x y z w =>
      obtain ⟨hx, hrest⟩ := List.cons.inj (hinner rfl)
      obtain ⟨hy, hrest⟩ := List.cons.inj hrest
      obtain ⟨hz, hrest⟩ := List.cons.inj hrest
      have hw := (List.cons.inj hrest).1
      simp only [ty, Ty.adjust, Renaming.ty, hx, hy, hz, hw]
    | inferred name x | predicate name asserts x =>
      cases x with
      | none => rfl
      | some x =>
        have hx := (List.cons.inj (hinner rfl)).1
        simp only [ty, tyOption, Ty.adjust, Ty.adjustOption, Renaming.ty, Renaming.tyOption, hx]
    | mapped parameter x y fixed missing z =>
      obtain ⟨hx, hrest⟩ := List.cons.inj (hinner rfl)
      obtain ⟨hy, hrest⟩ := List.cons.inj hrest
      cases z with
      | none => simp only [ty, tyOption, Ty.adjust, Ty.adjustOption, Renaming.ty, Renaming.tyOption, hx, hy]
      | some z =>
        have hz := (List.cons.inj hrest).1
        simp only [ty, tyOption, Ty.adjust, Ty.adjustOption, Renaming.ty, Renaming.tyOption, hx, hy, hz]
    | intersection xs | tuple xs =>
      have hxs := hinner rfl
      simp only [Ty.children] at hxs
      simp only [ty, Ty.adjust, Ty.adjustList_eq, Renaming.ty, Renaming.tyList_eq, List.map_map, hxs]
      rfl
    | union xs lists =>
      have hxs := hinner rfl
      have hlists : (lists.map c.summaries).map (·.map (·.map (Reader.newPart v))) =
          lists.map (·.map (·.map μ.part)) := by
        cases lists with
        | none => rfl
        | some lists =>
          have hall : ∀ ps ∈ lists, (c.parts ps).map (Reader.newPart v) = ps.map μ.part :=
            fun ps hps => parts_lasting h (hnode ps hps)
          simp only [Option.map_some, summaries, List.map_map]
          exact congrArg some (List.map_congr_left hall)
      simp only [Ty.children] at hxs
      simp only [ty, Ty.adjust, Ty.adjustList_eq, Renaming.ty, Renaming.tyList_eq, List.map_map, hxs,
        hlists]
      simp [Ty.Change.none, Function.comp_def]
    | templateLiteral head tail =>
      have htail := tyTail_lasting (hinner rfl)
      simp only [ty, Ty.adjust, Ty.adjustTail_eq, Renaming.ty, Renaming.tyTail_eq, List.map_map, htail]
      rfl
    | reference head args =>
      have hargs := tyArgs_lasting hnode.2 (hinner rfl)
      have hhead := ref_lasting hleg h hnode.1
      simp only [ty, Ty.adjust, Ty.adjustArgs_eq, Renaming.ty, Renaming.tyArgs_eq, hargs, hhead]
      simp [Function.comp_def]
    | query head args =>
      have hargs := tyArgs_lasting hnode.2 (hinner rfl)
      have hhead := ref_lasting hleg h hnode.1
      simp only [ty, Ty.adjust, Ty.Change.none, if_true, Ty.adjustArgs_eq, Renaming.ty, Renaming.tyArgs_eq]
      simp only [Ty.Change.none] at hargs
      rw [hargs, hhead]
      simp [Function.comp_def]

/-! ### Comments and groupings -/

theorem live_of_contains {ids : List ReflectionId} (h : ∀ x ∈ ids, c.project.contains x = true) :
    c.live ids = ids :=
  List.filter_eq_self.mpr h

theorem members_lasting (h : c.Follows v μ) {ids : List ReflectionId}
    (hids : ∀ x ∈ ids, c.project.contains x = true) :
    Reader.newMembers v (c.live ids) = ids.map μ.number := by
  rw [live_of_contains hids, Reader.newMembers]
  induction ids with
  | nil => rfl
  | cons x rest ih =>
    rw [List.filterMap_cons, h.ids x (hids x (List.mem_cons_self ..)), List.map_cons,
      ih fun y hy => hids y (List.mem_cons_of_mem x hy)]

theorem description_lasting (h : c.Follows v μ) {ps : Option (List Part)}
    (hps : ∀ q ∈ ps.getD [], c.project.LastingPart c.root q) :
    (ps.map c.parts).map (·.map (Reader.newPart v)) = ps.map (·.map μ.part) := by
  cases ps with
  | none => rfl
  | some ps => exact congrArg some (parts_lasting h hps)

theorem category_lasting (h : c.Follows v μ) {k : Category} (hk : c.project.LastingCategory c.root k) :
    Reader.newCategory v (c.category k) = μ.category k := by
  simp only [Reader.newCategory, category, members_lasting h hk.members,
    description_lasting h hk.description, Renaming.category, Renaming.draftCategory]

theorem categories_lasting (h : c.Follows v μ) {ks : Option (List Category)} (hks : ks ≠ some [])
    (hall : ∀ k ∈ ks.getD [], c.project.LastingCategory c.root k) :
    (c.categories? ks).map (·.map (Reader.newCategory v)) = ks.map (·.map μ.category) := by
  rcases ks with _ | _ | ⟨k, rest⟩
  · rfl
  · exact absurd rfl hks
  · refine congrArg some (List.map_map.trans ?_)
    exact List.map_congr_left fun k hk => category_lasting h (hall k hk)

theorem group_lasting (h : c.Follows v μ) {g : Group} (hg : c.project.LastingGroup c.root g) :
    Reader.newGroup v (c.group g) = μ.group g := by
  simp only [Reader.newGroup, group, members_lasting h hg.members,
    description_lasting h hg.description, categories_lasting h hg.filled hg.categories, Renaming.group]

theorem groups_lasting (h : c.Follows v μ) {gs : Option (List Group)} (hgs : gs ≠ some [])
    (hall : ∀ g ∈ gs.getD [], c.project.LastingGroup c.root g) :
    (c.groups? gs).map (·.map (Reader.newGroup v)) = gs.map (·.map μ.group) := by
  rcases gs with _ | _ | ⟨g, rest⟩
  · rfl
  · exact absurd rfl hgs
  · refine congrArg some (List.map_map.trans ?_)
    exact List.map_congr_left fun g hg => group_lasting h (hall g hg)

theorem comment_lasting (h : c.Follows v μ) {m : Option Comment}
    (hm : ∀ n ∈ m, c.project.LastingComment c.root n) :
    (c.comment? m).map (·.mapParts (Reader.newPart v)) = m.map μ.comment := by
  cases m with
  | none => rfl
  | some m =>
    obtain ⟨htold, hmodifiers, hparts⟩ := hm m rfl
    have htags : (m.blockTags.map c.blockTag).map
        (fun t => { t with content := t.content.map (Reader.newPart v) }) =
        m.blockTags.map fun t => { t with content := t.content.map μ.part } := by
      refine List.map_map.trans (List.map_congr_left fun t ht => ?_)
      have hcontent := parts_lasting h fun q hq =>
        hparts q (List.mem_append_right _ (List.mem_flatMap.mpr ⟨t, ht, hq⟩))
      simp only [Function.comp_apply, blockTag, hcontent]
    have hsummary := parts_lasting h fun q hq => hparts q (List.mem_append_left _ hq)
    have hkept : (some m).filter (fun m => !m.isEmpty) = some m := by
      rw [Option.filter_some, htold]
      rfl
    rw [comment?, hkept, Option.map_some, comment, foldl_addModifier (by simpa using hmodifiers)]
    simp only [Option.map_some, Comment.mapParts, hsummary, htags, List.nil_append, Renaming.comment]

end Copying

end DocTree
