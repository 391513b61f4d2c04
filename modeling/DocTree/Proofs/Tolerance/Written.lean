import DocTree.Proofs.RoundTrip.Portrayed
import DocTree.Proofs.Tolerance.Registry

/-!
What is passed over and what is written. Groups, categories and type arguments are written as if they
were absent when there are none of them, so it is not seen in the output whether an empty list of them
is there.
-/

namespace DocTree

open Blur (drop)

variable (b : Blur)

/-! ### Looking up -/

namespace Project

variable (p : Project)

theorem ofSymbol?_blur (s : Symbol) :
    (p.blur b).ofSymbol? s = (p.ofSymbol? s).map (Reflection.blur b) := by
  have hget : (p.blur b).get? = fun i => (p.get? i).map (Reflection.blur b) := funext (get?_blur b p)
  have hall : (p.blur b).allOfSymbol s = (p.allOfSymbol s).map (Reflection.blur b) := by
    rw [allOfSymbol, allOfSymbol, List.map_filterMap, hget]
    rfl
  have hreference : (fun r : Reflection => !(r.blur b).isReference) = fun r => !r.isReference := by
    funext r
    rw [Reflection.isReference_of_outline (Reflection.outline_blur b r)]
  rw [ofSymbol?, ofSymbol?, hall, List.find?_map, List.head?_map, Function.comp_def, hreference,
    ← Option.map_or]

theorem resolveTarget?_blur (target : RefTarget) :
    (p.blur b).resolveTarget? target = p.resolveTarget? target := by
  cases target with
  | reflection id => rw [resolveTarget?, resolveTarget?, contains_blur]
  | symbol s =>
    rw [resolveTarget?, resolveTarget?, ofSymbol?_blur, Option.map_map]
    rfl
  | pending old | broken => rfl

end Project

/-! ### Writing -/

namespace Copying

variable (c : Copying)

/-- The same project in which lists are passed over. -/
def blur : Copying := { c with project := c.project.blur b }

variable {b c} {inside : ReflectionId → Option Json}

theorem contains_blur (k : ReflectionId) : (c.blur b).project.contains k = c.project.contains k :=
  Project.contains_blur b c.project k

theorem refNode_blur (head : Ref) (args args' : Option (List Ty)) (written : List Json) :
    (c.blur b).writer.refNode head args' written = c.writer.refNode head args written := by
  have hresolve : (c.blur b).writer.project.resolveTarget? head.target =
      c.writer.project.resolveTarget? head.target := Project.resolveTarget?_blur b c.project head.target
  have hsymbol : (c.blur b).writer.symbol = c.writer.symbol := funext (symbol_congr rfl)
  have htarget : (c.blur b).writer.refTarget head.target = c.writer.refTarget head.target := by
    simp only [Writer.refTarget, hresolve, hsymbol]
  rw [Writer.refNode, Writer.refNode, htarget]
  exact typeNode_congr c (c.blur b) rfl _

/-- Type arguments are written as a list, which is the same when there are none. -/
theorem typeArgs_drop (on : Bool) (args : Option (List Ty)) :
    c.writer.typeArgs inside (drop on args) = c.writer.typeArgs inside args := by
  rcases args with _ | _ | ⟨t, ts⟩ <;> cases on <;> rfl

theorem parts_blur : (c.blur b).writer.parts = c.writer.parts :=
  funext (parts_congr contains_blur rfl)

theorem type_blur (t : Ty) : (c.blur b).writer.type inside (t.blur b) = c.writer.type inside t := by
  induction t using Ty.induct with
  | h t ih =>
    cases t with
    | intrinsic name | literal value | unknown name | reflection id => rfl
    | array x | optional x | rest x | namedTupleMember name isOptional x | operator op x =>
      rw [Ty.blur, Writer.type, Writer.type, ih x (List.mem_singleton_self x)]
      exact typeNode_congr c _ rfl _
    | indexedAccess x y =>
      rw [Ty.blur, Writer.type, Writer.type, ih x (by simp [Ty.children]),
        ih y (by simp [Ty.children])]
      exact typeNode_congr c _ rfl _
    | conditional x y z w =>
      rw [Ty.blur, Writer.type, Writer.type, ih x (by simp [Ty.children]),
        ih y (by simp [Ty.children]), ih z (by simp [Ty.children]), ih w (by simp [Ty.children])]
      exact typeNode_congr c _ rfl _
    | inferred name x | predicate name asserts x =>
      rw [Ty.blur, Ty.blurOption_eq, Writer.type, Writer.type, typeOption_map x ih]
      exact typeNode_congr c _ rfl _
    | mapped parameter x y fixed missing z =>
      rw [Ty.blur, Ty.blurOption_eq, Writer.type, Writer.type, ih x (by simp [Ty.children]),
        ih y (by simp [Ty.children]),
        typeOption_map z fun t ht => ih t (List.mem_cons_of_mem _ (List.mem_cons_of_mem _ ht))]
      exact typeNode_congr c _ rfl _
    | intersection xs | tuple xs =>
      rw [Ty.blur, Ty.blurList_eq, Writer.type, Writer.type, typeList_map xs ih]
      exact typeNode_congr c _ rfl _
    | union xs lists =>
      rw [Ty.blur, Ty.blurList_eq, Writer.type, Writer.type, typeList_map xs ih, parts_blur]
      exact typeNode_congr c _ rfl _
    | templateLiteral head tail =>
      rw [Ty.blur, Ty.blurTail_eq, Writer.type, Writer.type, typeTail_map tail ih]
      exact typeNode_congr c _ rfl _
    | reference head args =>
      rw [Ty.blur, Ty.blurArgs_eq, Writer.type, Writer.type, typeArgs_drop, typeArgs_map args ih]
      exact refNode_blur head args _ _
    | query head args =>
      rw [Ty.blur, Ty.blurArgs_eq, Writer.type, Writer.type, typeArgs_drop, typeArgs_map args ih,
        refNode_blur head args]
      exact typeNode_congr c _ rfl _

theorem typeField_blur (key : String) (o : Option Ty) :
    (c.blur b).typeField inside key (o.map (Ty.blur b)) = c.typeField inside key o :=
  congrArg (Writer.valueField key) (typeOption_map o fun t _ => type_blur t)

theorem typesField_blur (key : String) (ts : List Ty) :
    (c.blur b).typesField inside key (ts.map (Ty.blur b)) = c.typesField inside key ts :=
  congrArg (Writer.listField key) (typeList_map ts fun t _ => type_blur t)

/-! #### Reflections -/

section

variable (htexts : b.texts = false)
include htexts

theorem category_blur (k : Category) : (c.blur b).writer.category (k.blur b) = c.writer.category k := by
  have hsame : k.blur b = k := by
    rw [Category.blur, htexts]
    rfl
  rw [hsame]
  exact category_congr contains_blur rfl k

theorem categories_blur (categories : Option (List Category)) :
    ((Category.blur? b categories).getD []).map (c.blur b).writer.category =
      (categories.getD []).map c.writer.category := by
  rw [Category.blur?, Blur.getD_drop, Blur.getD_map, List.map_map]
  exact List.map_congr_left fun k _ => category_blur htexts k

theorem group_blur (g : Group) : (c.blur b).writer.group (g.blur b) = c.writer.group g := by
  have hcategories := categories_blur (c := c) htexts g.categories
  have hids := liveIds_congr (c := c) (d := c.blur b) contains_blur g.children
  rw [Category.blur?] at hcategories
  rw [group_written, group_written, groupFields, groupFields, Group.blur, hcategories, htexts, parts_blur,
    hids]
  rfl

theorem groups_blur (groups : Option (List Group)) :
    ((Group.blur? b groups).getD []).map (c.blur b).writer.group =
      (groups.getD []).map c.writer.group := by
  rw [Group.blur?, Blur.getD_drop, Blur.getD_map, List.map_map]
  exact List.map_congr_left fun g _ => group_blur htexts g

theorem containerFields_blur (k : Container) :
    (c.blur b).writer.containerFields inside (k.blur b) = c.writer.containerFields inside k := by
  have hgroups := groups_blur (c := c) htexts k.groups
  have hcategories := categories_blur (c := c) htexts k.categories
  simp only [Writer.containerFields, Container.blur, hgroups, hcategories]

theorem variantFields_blur (r : Reflection) :
    (c.blur b).variantFields inside (r.blur b) = c.variantFields inside r := by
  have hsources : (c.blur b).writer.source = c.writer.source := funext source_written_congr
  have htype : ∀ key o, (c.blur b).typeField inside key (o.map (Ty.blur b)) =
      c.typeField inside key o := typeField_blur
  have htypes : ∀ key ts, (c.blur b).typesField inside key (ts.map (Ty.blur b)) =
      c.typesField inside key ts := typesField_blur
  have hmap : (c.blur b).writer.symbolMap = c.writer.symbolMap := symbolMap_congr rfl rfl
  have hfiles : (c.blur b).writer.files (c.blur b).project.files = c.writer.files c.project.files :=
    files_congr contains_blur rfl rfl rfl
  have htarget : (c.blur b).project.targetOf? r.id = c.project.targetOf? r.id :=
    Project.targetOf?_blur b c.project r.id
  have hvariant : (r.blur b).variant = r.variant.blur b := rfl
  have hnumber : (r.blur b).id = r.id := rfl
  rw [variantFields, variantFields, hvariant, hnumber]
  cases r.variant with
  | project e =>
    simp only [Variant.blur, Variant.mapTypes, Variant.blurLists, projectFields, parts_blur, hmap, hfiles,
      htexts, Blur.drop_false]
  | declaration e =>
    simp only [Variant.blur, Variant.mapTypes, Variant.blurLists, declarationFields, hsources, htype,
      htypes, parts_blur, htexts, Blur.drop_false]
  | signature e =>
    simp only [Variant.blur, Variant.mapTypes, Variant.blurLists, signatureFields, hsources, htype]
  | param e => simp only [Variant.blur, Variant.mapTypes, Variant.blurLists, htype]
  | typeParam e => simp only [Variant.blur, Variant.mapTypes, Variant.blurLists, typeParameterFields, htype]
  | reference t => simp only [Variant.blur, Variant.mapTypes, Variant.blurLists, htarget]
  | document e =>
    simp only [Variant.blur, Variant.mapTypes, Variant.blurLists, documentFields, parts_blur]

theorem objectFields_blur (r : Reflection) :
    (c.blur b).objectFields inside (r.blur b) = c.objectFields inside r := by
  have hshared : (c.blur b).writer.sharedFields (r.blur b) = c.writer.sharedFields r := by
    have htag : (r.blur b).tag = r.tag := Variant.tag_blur b r.variant
    have hcomment : (c.blur b).writer.comment = c.writer.comment :=
      funext (comment_congr contains_blur rfl)
    rw [Writer.sharedFields, Writer.sharedFields, htag, hcomment]
    rfl
  have hcontainer : (r.blur b).container?.map ((c.blur b).writer.containerFields inside) =
      r.container?.map (c.writer.containerFields inside) := by
    have hblur : (r.blur b).container? = r.container?.map (Container.blur b) := by
      obtain ⟨id, name, kind, flags, comment, parent, own, data, anchor, counts, variant⟩ := r
      cases variant <;> rfl
    rw [hblur, Option.map_map]
    exact Option.map_congr fun k _ => containerFields_blur htexts k
  rw [objectFields, objectFields, hshared, hcontainer, variantFields_blur htexts]

theorem reflectionWithin_blur (levels : Nat) (k : ReflectionId) :
    (c.blur b).writer.reflectionWithin levels k = c.writer.reflectionWithin levels k := by
  induction levels generalizing k with
  | zero => rfl
  | succ levels ih =>
    have hget : (c.blur b).project.get? k = (c.project.get? k).map (Reflection.blur b) :=
      Project.get?_blur b c.project k
    cases hk : c.project.get? k with
    | none =>
      have hgone : ¬ c.project.contains k = true := Project.not_contains_iff.mpr hk
      rw [reflectionWithin_dead hgone, reflectionWithin_dead fun hin => hgone (contains_blur k ▸ hin)]
    | some r =>
      rw [hk] at hget
      rw [reflectionWithin_succ hk, reflectionWithin_succ hget, funext ih, objectFields_blur htexts]

end

end Copying

/-- The standard serializer writes the object of the root, and nothing else. -/
theorem Serializer.output_standard (p : Project) (root : String) :
    (Serializer.standard.writeProject p root).output =
      ((Writer.reflection ⟨.standard, p, root⟩ ReflectionId.project).bind Json.asObject?).getD [] :=
  rfl

/-- What is passed over is not written, readmes and descriptions apart. -/
theorem Project.writeProject_blur {b : Blur} (htexts : b.texts = false) (p : Project) (root : String) :
    (Serializer.standard.writeProject (p.blur b) root).output =
      (Serializer.standard.writeProject p root).output := by
  have hwritten : Writer.reflection ⟨.standard, p.blur b, root⟩ ReflectionId.project =
      Writer.reflection ⟨.standard, p, root⟩ ReflectionId.project := by
    have hlevels : Writer.levels (p.blur b) = Writer.levels p := by
      rw [Writer.levels, Writer.levels, arena_size_blur]
    change Writer.reflectionWithin _ (Writer.levels (p.blur b)) _ = _
    rw [hlevels]
    exact Copying.reflectionWithin_blur (c := .plain p root) htexts _ _
  rw [Serializer.output_standard, Serializer.output_standard, hwritten]

end DocTree
