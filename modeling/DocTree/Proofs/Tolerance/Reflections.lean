import DocTree.Proofs.Tolerance.Types

/-!
Reflections are read alike from an object and from what is left of it, and so are their fields. By
induction on the depth the constructors of the standard format are alike.
-/

namespace DocTree

open Blur (drop)

variable {b : Blur} {own : Option ReflectionId} {depth depth' : Nat} {f f' : Fields}
  {c c' : Constructors} {i : ReflectionId}

/-! ### What the fields change -/

namespace Variant

/-- What a project says besides its members. -/
def sayProject (packageName packageVersion : Option String) (readme : Option (List Part)) :
    Variant → Variant
  | .project d => .project { d with packageName, packageVersion, readme }
  | v => v

/-- What a declaration says besides its members and its main type. -/
def sayDeclaration (sources : List Source) (defaultValue : Option String)
    (overwrites inheritedFrom implementationOf : Option Ty)
    (extendedTypes extendedBy implementedTypes implementedBy : List Ty)
    (packageVersion : Option String) (readme : Option (List Part)) : Variant → Variant
  | .declaration d => .declaration { d with
      sources, defaultValue, overwrites, inheritedFrom, implementationOf, extendedTypes, extendedBy,
      implementedTypes, implementedBy, packageVersion, readme }
  | v => v

/-- What a signature says besides its members and its main type. -/
def saySignature (sources : List Source) (overwrites inheritedFrom implementationOf : Option Ty) :
    Variant → Variant
  | .signature d => .signature { d with sources, overwrites, inheritedFrom, implementationOf }
  | v => v

/-- What a parameter says besides its type. -/
def sayParameter (defaultValue : Option String) : Variant → Variant
  | .param d => .param { d with defaultValue }
  | v => v

/-- What a type parameter says besides its main type. -/
def sayTypeParameter (default : Option Ty) (variance : Option Variance) : Variant → Variant
  | .typeParam d => .typeParam { d with default, variance }
  | v => v

/-- What a document says. -/
def sayDocument (content : List Part) (frontmatter : Fields) : Variant → Variant
  | .document _ => .document ⟨content, frontmatter⟩
  | v => v

variable (v : Variant)

theorem blur_sayProject (name version : Option String) (readme : Option (List Part)) :
    (v.sayProject name version readme).blur b =
      (v.blur b).sayProject name version (drop b.texts readme) := by
  cases v <;> rfl

theorem blur_sayDeclaration (sources : List Source) (value : Option String) (o i m : Option Ty)
    (xs ys zs ws : List Ty) (version : Option String) (readme : Option (List Part)) :
    (v.sayDeclaration sources value o i m xs ys zs ws version readme).blur b =
      (v.blur b).sayDeclaration sources value (o.map (Ty.blur b)) (i.map (Ty.blur b))
        (m.map (Ty.blur b)) (xs.map (Ty.blur b)) (ys.map (Ty.blur b)) (zs.map (Ty.blur b))
        (ws.map (Ty.blur b)) version (drop b.texts readme) := by
  cases v <;> rfl

theorem blur_saySignature (sources : List Source) (o i m : Option Ty) :
    (v.saySignature sources o i m).blur b =
      (v.blur b).saySignature sources (o.map (Ty.blur b)) (i.map (Ty.blur b))
        (m.map (Ty.blur b)) := by
  cases v <;> rfl

theorem blur_sayParameter (value : Option String) :
    (v.sayParameter value).blur b = (v.blur b).sayParameter value := by
  cases v <;> rfl

theorem blur_sayDocument (content : List Part) (frontmatter : Fields) :
    (v.sayDocument content frontmatter).blur b = (v.blur b).sayDocument content frontmatter := by
  cases v <;> rfl

theorem blur_sayTypeParameter (default : Option Ty) (variance : Option Variance) :
    (v.sayTypeParameter default variance).blur b =
      (v.blur b).sayTypeParameter (default.map (Ty.blur b)) variance := by
  cases v <;> rfl

end Variant

/-- Another variant in each of two reflections. -/
theorem Reflection.blur_variant {r r' : Reflection} (h : r.blur b = r'.blur b) {v v' : Variant}
    (hv : v.blur b = v'.blur b) :
    ({ r with variant := v } : Reflection).blur b = ({ r' with variant := v' } : Reflection).blur b := by
  obtain ⟨i, name, kind, flags, comment, parent, page, data, anchor, counts, u⟩ := r
  obtain ⟨i', name', kind', flags', comment', parent', page', data', anchor', counts', u'⟩ := r'
  simp only [blur, Reflection.mk.injEq] at h ⊢
  simp only [h, hv, and_self]

namespace Alike

/-- The variant of a reflection is changed. -/
theorem edit_variant {F G : Variant → Variant}
    (h : ∀ v v', v.blur b = v'.blur b → (F v).blur b = (G v').blur b) :
    Alike b own id (Reader.edit i fun r => { r with variant := F r.variant })
      (Reader.edit i fun r => { r with variant := G r.variant }) :=
  .edit i fun _ _ hr => Reflection.blur_variant hr (h _ _ (congrArg Reflection.variant hr))

end Alike

namespace Reader

/-! ### Flags and comments -/

/-- One entry of serialized flags. -/
def flagEntry (flags : Flags) (key : String) (value : Json) : Flags :=
  match Flag.ofKey? key, value with
  | some flag, .bool true => flags.set flag true
  | _, _ => flags

/-- Of the value it matters whether it is `true`. -/
theorem flagEntry_eq (flags : Flags) (key : String) (value : Json) : flagEntry flags key value =
    if value.asBool? = some true then (Flag.ofKey? key).elim flags (flags.set · true) else flags := by
  rw [flagEntry.eq_def]
  cases Flag.ofKey? key <;> rcases value with _ | (_ | _) | _ | _ | _ | _ <;> rfl

/-- A key that is not looked up is no flag. -/
theorem ofKey?_eq_none {key : String} (h : Place.flags.shape? key = none) :
    Flag.ofKey? key = none := by
  refine List.find?_eq_none.mpr fun flag _ hflag => ?_
  obtain rfl := of_decide_eq_true hflag
  cases flag <;> cases h

theorem flagEntry_harmless (flags : Flags) {key : String} {value : Json}
    (h : Harmless b .flags key value) : flagEntry flags key value = flags := by
  rw [flagEntry_eq]
  cases hshape : Place.flags.shape? key with
  | none =>
    rw [ofKey?_eq_none hshape]
    exact ite_self flags
  | some shape =>
    have hkeys : ∀ entry ∈ Place.flags.keys, entry.2 = .flag := by decide
    obtain ⟨_, _, hkey, -⟩ := List.lookup_eq_some_iff.mp hshape
    obtain rfl : shape = .flag := hkeys (key, shape) (hkey ▸ by simp)
    have hvalue : value.asBool? = none := eq_none_of_isSome_eq_false (h _ hshape).1
    rw [hvalue, if_neg (by simp)]

theorem flags_leaner : ∀ {f f' : Fields}, Leaner b .flags f f' → ∀ flags : Flags,
    f'.foldl (fun flags entry => flagEntry flags entry.1 entry.2) flags =
      f.foldl (fun flags entry => flagEntry flags entry.1 entry.2) flags
  | _, _, .nil, _ => rfl
  | _, _, .keep hv hrest, flags => by
    rw [List.foldl_cons, List.foldl_cons, flagEntry_eq, flagEntry_eq, hv.asBool?]
    exact flags_leaner hrest _
  | _, _, .drop _ hmay _ hrest, flags => by
    rw [List.foldl_cons, flagEntry_harmless flags hmay]
    exact flags_leaner hrest flags

theorem ofFields_leaner (h : Leaner b .flags f f') : Flags.ofFields f' = Flags.ofFields f :=
  flags_leaner h .none

theorem alike_shared (h : Leaner b .reflection f f') :
    Alike b own id (shared i f) (shared i f') := by
  have hflags : (f'.object? "flags").map Flags.ofFields = (f.object? "flags").map Flags.ofFields := by
    have hkey : Place.reflection.shape? "flags" = some (.object .flags) := by decide
    rcases h.object? hkey with ⟨hg, hg'⟩ | ⟨g, g', hg, hg', hinner⟩
    · rw [hg, hg']
    · rw [hg, hg', Option.map_some, Option.map_some, ofFields_leaner hinner]
  have hedit (flags : Option Flags) (comment : Option Comment) : Alike b own id
      (edit i fun r => { r with flags := flags.getD r.flags, comment := comment.or r.comment })
      (edit i fun r => { r with flags := flags.getD r.flags, comment := comment.or r.comment }) := by
    refine .edit i fun r r' hr => ?_
    cases r
    cases r'
    simp_all [Reflection.blur]
  rw [shared, shared, hflags]
  have hkey : Place.reflection.shape? "comment" = some (.object .comment) := by decide
  rcases h.object? hkey with ⟨hg, hg'⟩ | ⟨g, g', hg, hg', hinner⟩
  · simp only [hg, hg', pure_bind]
    exact hedit _ _
  · simp only [hg, hg', map_eq_pure_bind, bind_assoc, pure_bind]
    exact (alike_comment hinner).bind_eq fun _ => hedit _ _

/-! ### Members and types -/

/-- Types that own the same declarations are set in both projects or in neither. -/
theorem tried_setOwnType {p p' : Project} (hp : p.blur b = p'.blur b) {t t' : Ty}
    (ht : t.blur b = t'.blur b) :
    Alike.Tried b id p p' (do return (← p.setOwnType i t, ())) (do return (← p'.setOwnType i t', ())) := by
  have hset : (p.setOwnType i t).map (Project.blur b) = (p'.setOwnType i t').map (Project.blur b) := by
    rw [← Project.setOwnType_blur, ← Project.setOwnType_blur, hp, ht]
  have hnext {p : Project} {t : Ty} {q : Project} {u : Unit}
      (hq : (do return (← p.setOwnType i t, ()) : Except Fault (Project × Unit)) = .ok (q, u)) :
      p.Precedes q := by
    cases hx : p.setOwnType i t with
    | error fault =>
      rw [hx] at hq
      cases hq
    | ok r =>
      rw [hx] at hq
      obtain rfl := congrArg Prod.fst (Except.ok.inj hq)
      exact ⟨Nat.le_of_eq (Project.arena_size_setOwnType hx).symm,
        fun _ => Project.graph_setOwnType hx⟩
  have hpair (x : Except Fault Project) :
      (do return (← x, ()) : Except Fault (Project × Unit)).map (fun y => (y.1.blur b, id y.2)) =
        (x.map (Project.blur b)).map fun q => (q, ()) := by cases x <;> rfl
  refine .of_map ?_ (fun q u => hnext) fun q u => hnext
  rw [hpair, hpair, hset]

section

variable (hc : ConstructAlike b depth depth' c c')
  (h : Trimmed b (depth + 1) (depth' + 1) .reflection f f')
include hc h

theorem alike_mainType : Alike b none id (mainType c i f) (mainType c' i f') := by
  rw [mainType, mainType]
  refine (hc.typeAt h (by decide)).bind fun o o' ho => ?_
  cases o with
  | none =>
    obtain rfl := Option.map_eq_none_iff.mp ho.symm
    exact .pure rfl
  | some t =>
    obtain ⟨t', rfl, ht⟩ := Option.map_eq_some_iff.mp ho.symm
    exact .tryProject fun p p' hp => tried_setOwnType hp ht.symm

theorem alike_container : Alike b (some i) id (container c i f) (container c' i f') := by
  refine (hc.childrenAt h .children (by decide)).bind_eq fun _ => ?_
  refine (hc.childrenAt h .documents (by decide)).bind_eq fun _ => ?_
  refine (alike_groups? h.leaner).bind fun gs gs' hgs => ?_
  exact (alike_categories? h.leaner (by decide)).bind fun cs cs' hcs => .groupings hgs hcs

omit hc in
theorem alike_projectData : Alike b none id (projectData i f) (projectData i f') := by
  have hname : f'.text? "packageName" = f.text? "packageName" := h.leaner.text? (by decide)
  have hversion : f'.text? "packageVersion" = f.text? "packageVersion" := h.leaner.text? (by decide)
  rw [projectData, projectData, hname, hversion]
  refine (alike_parts? h.leaner (by decide) rfl).bind fun readme readme' hreadme => ?_
  refine .edit_variant (F := Variant.sayProject _ _ readme) (G := Variant.sayProject _ _ readme')
    fun v v' hv => ?_
  rw [Variant.blur_sayProject, Variant.blur_sayProject, hv, hreadme]

theorem alike_declaration : Alike b none id (declaration c i f) (declaration c' i f') := by
  have hvalue : f'.text? "defaultValue" = f.text? "defaultValue" := h.leaner.text? (by decide)
  have hversion : f'.text? "packageVersion" = f.text? "packageVersion" := h.leaner.text? (by decide)
  rw [declaration, declaration, hvalue, hversion]
  refine (alike_sources h.leaner).bind_eq fun sources => ?_
  refine (hc.childrenAt h .typeParameter (by decide)).bind_eq fun _ => ?_
  refine (alike_mainType hc h).bind_eq fun _ => ?_
  refine (hc.childrenAt h .signatures (by decide)).bind_eq fun _ => ?_
  refine (hc.childrenAt h .indexSignature (by decide)).bind_eq fun _ => ?_
  refine (hc.childAt h .getSignature (by decide)).bind_eq fun _ => ?_
  refine (hc.childAt h .setSignature (by decide)).bind_eq fun _ => ?_
  refine (hc.typeAt h (by decide)).bind fun o o' ho => ?_
  refine (hc.typeAt h (by decide)).bind fun i i' hi => ?_
  refine (hc.typeAt h (by decide)).bind fun m m' hm => ?_
  refine (hc.typesAt h (by decide)).bind fun xs xs' hxs => ?_
  refine (hc.typesAt h (by decide)).bind fun ys ys' hys => ?_
  refine (hc.typesAt h (by decide)).bind fun zs zs' hzs => ?_
  refine (hc.typesAt h (by decide)).bind fun ws ws' hws => ?_
  refine (alike_parts? h.leaner (by decide) rfl).bind fun readme readme' hreadme => ?_
  refine .edit_variant (F := Variant.sayDeclaration sources _ o i m xs ys zs ws _ readme)
    (G := Variant.sayDeclaration sources _ o' i' m' xs' ys' zs' ws' _ readme') fun v v' hv => ?_
  rw [Variant.blur_sayDeclaration, Variant.blur_sayDeclaration, hv, ho, hi, hm, hxs, hys, hzs, hws,
    hreadme]

theorem alike_signature : Alike b none id (signature c i f) (signature c' i f') := by
  rw [signature, signature]
  refine (alike_sources h.leaner).bind_eq fun sources => ?_
  refine (hc.childrenAt h .typeParameter (by decide)).bind_eq fun _ => ?_
  refine (hc.childrenAt h .parameters (by decide)).bind_eq fun _ => ?_
  refine (alike_mainType hc h).bind_eq fun _ => ?_
  refine (hc.typeAt h (by decide)).bind fun o o' ho => ?_
  refine (hc.typeAt h (by decide)).bind fun i i' hi => ?_
  refine (hc.typeAt h (by decide)).bind fun m m' hm => ?_
  refine .edit_variant (F := Variant.saySignature sources o i m)
    (G := Variant.saySignature sources o' i' m') fun v v' hv => ?_
  rw [Variant.blur_saySignature, Variant.blur_saySignature, hv, ho, hi, hm]

theorem alike_parameter : Alike b none id (parameter c i f) (parameter c' i f') := by
  have hvalue : f'.text? "defaultValue" = f.text? "defaultValue" := h.leaner.text? (by decide)
  rw [parameter, parameter, hvalue]
  refine (alike_mainType hc h).bind_eq fun _ => ?_
  refine .edit_variant (F := Variant.sayParameter _) (G := Variant.sayParameter _) fun v v' hv => ?_
  rw [Variant.blur_sayParameter, Variant.blur_sayParameter, hv]

theorem alike_typeParameter : Alike b none id (typeParameter c i f) (typeParameter c' i f') := by
  have hvariance : f'.text? "varianceModifier" = f.text? "varianceModifier" :=
    h.leaner.text? (by decide)
  rw [typeParameter, typeParameter, hvariance]
  refine (alike_mainType hc h).bind_eq fun _ => ?_
  refine (hc.typeAt h (by decide)).bind fun o o' ho => ?_
  refine .edit_variant (F := Variant.sayTypeParameter o _) (G := Variant.sayTypeParameter o' _)
    fun v v' hv => ?_
  rw [Variant.blur_sayTypeParameter, Variant.blur_sayTypeParameter, hv, ho]

omit hc in
theorem alike_referenceTarget : Alike b none id (referenceTarget i f) (referenceTarget i f') := by
  have hold : f'.word? "target" = f.word? "target" := h.leaner.word? (by decide)
  rw [referenceTarget, referenceTarget, hold]
  split
  · exact .defer rfl
  · exact .pure rfl

omit hc in
/-- Nothing is left out in the frontmatter, which is data. -/
theorem frontmatter_leaner : (f'.object? "frontmatter").getD [] = (f.object? "frontmatter").getD [] := by
  have hkey : Place.reflection.shape? "frontmatter" = some (.object .data) := by decide
  rcases h.leaner.object? hkey with ⟨hg, hg'⟩ | ⟨g, g', hg, hg', hinner⟩
  · rw [hg, hg']
  · rw [hg, hg', PrunedFields.eq_of_data hinner]

omit hc in
theorem alike_document : Alike b none id (document i f) (document i f') := by
  rw [document, document, frontmatter_leaner h]
  refine (alike_partsAt h.leaner (by decide)).bind_eq fun content => ?_
  refine .edit_variant (F := Variant.sayDocument content _) (G := Variant.sayDocument content _)
    fun v v' hv => ?_
  rw [Variant.blur_sayDocument, Variant.blur_sayDocument, hv]

theorem alike_variantFields (tag : VariantTag) :
    Alike b (some i) id (variantFields c i f tag) (variantFields c' i f' tag) := by
  cases tag with
  | project => exact (alike_container hc h).bind_own fun _ _ _ => alike_projectData h
  | declaration => exact (alike_container hc h).bind_own fun _ _ _ => alike_declaration hc h
  | signature => exact (alike_signature hc h).mono
  | param => exact (alike_parameter hc h).mono
  | typeParam => exact (alike_typeParameter hc h).mono
  | reference => exact (alike_referenceTarget h).mono
  | document => exact (alike_document h).mono

theorem alike_standardFields :
    Alike b (some i) id (standardFields c i f) (standardFields c' i f') := by
  rw [standardFields, standardFields]
  refine Alike.revival.bind fun before before' hbefore => ?_
  have hget : (before.project.get? i).map (Reflection.blur b) =
      (before'.project.get? i).map (Reflection.blur b) := by
    rw [← Project.get?_blur, ← Project.get?_blur]
    exact congrArg (fun r : Revival => r.project.get? i) hbefore
  cases hr : before.project.get? i with
  | none =>
    rw [hr] at hget
    rw [Option.map_eq_none_iff.mp hget.symm]
    exact .pure rfl
  | some r =>
    rw [hr] at hget
    obtain ⟨r', hr', hblur⟩ := Option.map_eq_some_iff.mp hget.symm
    have htag : r'.tag = r.tag := by
      have hsame := congrArg Reflection.tag hblur
      rwa [Reflection.tag, Reflection.tag, Reflection.blur, Reflection.blur, Variant.tag_blur,
        Variant.tag_blur] at hsame
    simp only [hr', htag]
    refine (alike_shared h.leaner).bind_eq fun _ => ?_
    refine (alike_variantFields hc h r.tag).bind_own fun _ _ _ => ?_
    refine Alike.revival.bind fun after after' hafter => ?_
    rw [Revival.pendingCount_of_blur hafter, Revival.pendingCount_of_blur hbefore]
    split
    · exact .defer rfl
    · exact .pure rfl

end

/-! ### Builders -/

theorem kindOf_leaner (h : Leaner b .reflection f f') : kindOf f' = kindOf f := by
  have hkind : f'.word? "kind" = f.word? "kind" := h.word? (by decide)
  have hbind (f : Fields) :
      (f.value? "kind").bind Kind.ofJson? = (f.word? "kind").map fun bits => ⟨UInt32.ofNat bits⟩ := by
    rw [Fields.word?, Option.map_bind]
    rfl
  rw [kindOf, kindOf, hbind, hbind, hkind]

theorem reflectionBuilder_leaner (h : Leaner b .reflection f f') {tag : VariantTag}
    {build : ReflectionBuilder} (hbuild : reflectionBuilder tag = some build) : build f' = build f := by
  have hname : f'.text "name" = f.text "name" := h.text (by decide)
  have hkind := kindOf_leaner h
  cases tag with
  | project => cases hbuild
  | _ =>
    obtain rfl := Option.some.inj hbuild
    simp only [hname, hkind]

end Reader

/-! ### Reflections and types -/

open Reader

/-- Registering gives the next number. -/
theorem size_add {p q : Project} {parent i : ReflectionId} {role : Role} {r : Reflection}
    (h : p.add parent role r = .ok (q, i)) : i = p.arena.size ∧ q.arena.size = p.arena.size + 1 := by
  obtain ⟨hi, -, -, -, -, -, -, hsize, -⟩ := Project.add_eq_ok h
  exact ⟨hi, hsize⟩

/-- The same reflection is registered in both projects or in neither. -/
theorem tried_add {p p' : Project} (hp : p.blur b = p'.blur b) (parent : ReflectionId) (role : Role)
    (r : Reflection) : Alike.Tried b id p p' (p.add parent role r) (p'.add parent role r) := by
  have hadd : (p.add parent role r).map (fun added => (added.1.blur b, added.2)) =
      (p'.add parent role r).map fun added => (added.1.blur b, added.2) := by
    rw [← Project.add_blur, ← Project.add_blur, hp]
  have hnext {p q : Project} {i : ReflectionId} (hq : p.add parent role r = .ok (q, i)) :
      p.Precedes q :=
    ⟨Nat.le_trans (Nat.le_succ _) (Nat.le_of_eq (size_add hq).2.symm), fun _ => Project.graph_add hq⟩
  exact .of_map hadd (fun q i => hnext) fun q i => hnext

section

variable (hc : ConstructAlike b depth depth' c c')
include hc

/-- The fields of a reflection, for which groupings were not put off. -/
theorem alike_readReflection (h : Trimmed b (depth + 1) (depth' + 1) .reflection f f') :
    Alike b (some i) id (Deserializer.standard.readReflection c i f)
      (Deserializer.standard.readReflection c' i f') := by
  rw [Deserializer.readReflection, Deserializer.readReflection]
  refine Alike.bind_eq (.note (fun _ => rfl) fun _ => rfl) fun _ => ?_
  refine (alike_standardFields hc h).bind_own fun _ _ _ => ?_
  refine Alike.bind_eq (.pure rfl) fun _ => ?_
  exact .note (fun _ => rfl) fun _ => rfl

theorem alike_constructReflection (role : Role)
    (h : Trimmed b (depth + 1) (depth' + 1) .reflection f f') :
    Alike b none id (Deserializer.standard.constructReflection c f role)
      (Deserializer.standard.constructReflection c' f' role) := by
  have hvariant : f'.text "variant" = f.text "variant" := h.leaner.text (by decide)
  have hid : f'.word? "id" = f.word? "id" := h.leaner.word? (by decide)
  rw [Deserializer.constructReflection, Deserializer.constructReflection, hvariant, hid]
  dsimp only
  split
  · exact (Alike.report _).bind_eq fun _ => .pure rfl
  · split
    · exact (Alike.report _).bind_eq fun _ => .pure rfl
    · rename_i build hbuild
      rw [reflectionBuilder_leaner h.leaner hbuild]
      refine Alike.revival.bind fun r r' hr => ?_
      have hactive : r'.activeReflection = r.activeReflection := by
        rw [Revival.activeReflection, Revival.activeReflection, Revival.active_of_blur hr]
      rw [hactive]
      refine .register (fun p p' hp => tried_add hp _ role _) (fun p q i => size_add)
        (fun p q i => size_add) fun i => ?_
      have hdone : ∀ a a' : Unit, id a = id a' →
          Alike b none id (Pure.pure (some i)) (Pure.pure (some i)) := fun _ _ _ => .pure rfl
      have hread := (alike_readReflection (i := i) hc h).bind_own hdone
      cases f.word? "id" with
      | none => exact hread
      | some old => exact Alike.bind_eq (.note (fun _ => rfl) fun _ => rfl) fun _ => hread

theorem alike_constructType (h : Trimmed b (depth + 1) (depth' + 1) (Place.type.at f) f f') :
    Alike b none (Option.map (Ty.blur b)) (Deserializer.standard.constructType c f)
      (Deserializer.standard.constructType c' f') := by
  have htag : f'.text "type" = f.text "type" := by
    rw [Place.at] at h
    split at h
    · exact h.leaner.text (by decide)
    · exact h.leaner.text (by decide)
  rw [Deserializer.constructType, Deserializer.constructType, htag]
  split
  · exact (Alike.report _).bind_eq fun _ => .pure rfl
  · rename_i kind hkind
    have hbuilt : Alike b none (Option.map (Ty.blur b)) (typeBuilder kind c f)
        (typeBuilder kind c' f') := by
      rw [Place.at] at h
      split at h
      case isTrue heq =>
        rw [heq] at hkind
        obtain rfl : TypeKind.reference = kind := Option.some.inj ((by decide : _ = _).symm.trans hkind)
        exact alike_reference hc h
      case isFalse hne =>
        refine alike_typeBuilder hc h ?_
        rintro rfl
        have hfind : TypeKind.all.find? (·.tag = f.text "type") = some .reference := hkind
        have htag := List.find?_some hfind
        exact hne (of_decide_eq_true htag).symm
    refine hbuilt.bind fun o o' ho => ?_
    cases o with
    | none =>
      obtain rfl := Option.map_eq_none_iff.mp ho.symm
      exact .pure rfl
    | some t =>
      obtain ⟨t', rfl, ht⟩ := Option.map_eq_some_iff.mp ho.symm
      exact .pure (congrArg some ht.symm)

end

/-- The constructors for objects that lie at most so deep are alike. -/
theorem constructors_alike (b : Blur) (depth depth' : Nat) :
    ConstructAlike b depth depth' (Deserializer.standard.constructors depth)
      (Deserializer.standard.constructors depth') := by
  -- No object lies so shallow that its depth is zero.
  have hnone {f : Fields} (h : f.Within 0 False) : False := by
    have hdepth := h.depth
    rw [Json.depth] at hdepth
    omega
  induction depth generalizing depth' with
  | zero => exact ⟨fun f f' h => (hnone h.left).elim, fun f f' role h => (hnone h.left).elim⟩
  | succ depth ih =>
    cases depth' with
    | zero => exact ⟨fun f f' h => (hnone h.right).elim, fun f f' role h => (hnone h.right).elim⟩
    | succ depth' =>
      exact ⟨fun f f' h => alike_constructType (ih depth') h,
        fun f f' role h => alike_constructReflection (ih depth') role h⟩

end DocTree
