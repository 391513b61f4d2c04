import DocTree.Proofs.Tolerance.Texts

/-!
Types are read alike from an object and from what is left of it, given constructors that make alike
what stands inside. Whether a part is missing without which a type is dropped is the same for both.
-/

namespace DocTree

variable {b : Blur} {depth depth' : Nat} {place q : Place} {f f' : Fields} {key : String}
  {v v' : Json}

/-- What is related item by item stands in the lists. -/
theorem forall₂_mem {α β : Type} {R : α → β → Prop} {xs : List α} {ys : List β}
    (h : List.Forall₂ R xs ys) : List.Forall₂ (fun x y => x ∈ xs ∧ y ∈ ys ∧ R x y) xs ys := by
  induction h with
  | nil => exact .nil
  | cons hxy _ ih =>
    refine .cons ⟨List.mem_cons_self .., List.mem_cons_self .., hxy⟩ (ih.imp ?_)
    rintro x y ⟨hx, hy, hxy⟩
    exact ⟨List.mem_cons_of_mem _ hx, List.mem_cons_of_mem _ hy, hxy⟩

theorem Json.eq_arr {items : List Json} (h : v.asArray? = some items) : v = .arr items := by
  cases v with
  | arr _ => rw [Option.some.inj h]
  | _ => cases h

theorem Json.eq_obj (h : v.asObject? = some f) : v = .obj f := by
  cases v with
  | obj _ => rw [Option.some.inj h]
  | _ => cases h

/-- The second object is the first one with harmless fields left out, and both are at most so deep. -/
structure Trimmed (b : Blur) (depth depth' : Nat) (place : Place) (f f' : Fields) : Prop where
  leaner : Leaner b place f f'
  left : f.Within depth False
  right : f'.Within depth' False

namespace Trimmed

theorem object? (h : Trimmed b (depth + 1) (depth' + 1) place f f')
    (hk : place.shape? key = some (.object q)) :
    (f.object? key = none ∧ f'.object? key = none) ∨
      ∃ g g', f.object? key = some g ∧ f'.object? key = some g' ∧
        Trimmed b depth depth' (q.at g) g g' := by
  rcases h.leaner.object? hk with hnone | ⟨g, g', hg, hg', hinner⟩
  · exact .inl hnone
  · exact .inr ⟨g, g', hg, hg', hinner, h.left.object? hg, h.right.object? hg'⟩

theorem objects (h : Trimmed b (depth + 1) (depth' + 1) place f f')
    (hk : place.shape? key = some (.array q)) :
    List.Forall₂ (fun g g' => Trimmed b depth depth' (q.at g) g g') (f.objects key)
      (f'.objects key) := by
  refine (forall₂_mem (h.leaner.objects hk)).imp ?_
  rintro g g' ⟨hg, hg', hinner⟩
  exact ⟨hinner, h.left.objects hg, h.right.objects hg'⟩

end Trimmed

/-- Constructors that do the same with objects at most so deep and what is left of them. -/
structure ConstructAlike (b : Blur) (depth depth' : Nat) (c c' : Constructors) : Prop where
  type : ∀ f f', Trimmed b depth depth' (Place.type.at f) f f' →
    Alike b none (Option.map (Ty.blur b)) (c.type f) (c'.type f')
  reflection : ∀ f f' role, Trimmed b depth depth' .reflection f f' →
    Alike b none id (c.reflection f role) (c'.reflection f' role)

namespace ConstructAlike

variable {c c' : Constructors} (hc : ConstructAlike b depth depth' c c')
  (h : Trimmed b (depth + 1) (depth' + 1) place f f')
include hc h

theorem typeAt (hk : place.shape? key = some (.object .type)) :
    Alike b none (Option.map (Ty.blur b)) (c.typeAt f key) (c'.typeAt f' key) := by
  rw [Constructors.typeAt, Constructors.typeAt]
  rcases h.object? hk with ⟨hg, hg'⟩ | ⟨g, g', hg, hg', hinner⟩
  · rw [hg, hg']
    exact .pure rfl
  · rw [hg, hg']
    exact hc.type g g' hinner

theorem typesAt (hk : place.shape? key = some (.array .type)) :
    Alike b none (List.map (Ty.blur b)) (c.typesAt f key) (c'.typesAt f' key) :=
  .collect (h.objects hk) fun g g' hg => hc.type g g' hg

theorem childrenAt (role : Role) (hk : place.shape? key = some (.array .reflection)) :
    Alike b none id (c.childrenAt f key role) (c'.childrenAt f' key role) :=
  .each (h.objects hk) fun g g' hg =>
    (hc.reflection g g' role hg).bind fun _ _ _ => .pure rfl

theorem childAt (role : Role) (hk : place.shape? key = some (.object .reflection)) :
    Alike b none id (c.childAt f key role) (c'.childAt f' key role) := by
  have hinner : List.Forall₂ (Trimmed b depth depth' .reflection) (f.object? key).toList
      (f'.object? key).toList := by
    rcases h.object? hk with ⟨hg, hg'⟩ | ⟨g, g', hg, hg', hinner⟩
    · rw [hg, hg']
      exact .nil
    · rw [hg, hg']
      exact .cons hinner .nil
  exact .each hinner fun g g' hg => (hc.reflection g g' role hg).bind fun _ _ _ => .pure rfl

end ConstructAlike

namespace Reader

variable {c c' : Constructors}

/-! ### Leaves -/

theorem literal?_pruned (h : Pruned (Harmless b) .digits v v') :
    literal? (some v') = literal? (some v) := by
  cases h with
  | refl => rfl
  | arr hitems => rfl
  | @obj _ g g' hfields =>
    have hinner : Leaner b .digits g g' := hfields
    have hvalue : g'.text? "value" = g.text? "value" := hinner.text? (by decide)
    have hnegative : g'.flag "negative" = g.flag "negative" := hinner.flag (by decide)
    rw [literal?, literal?, hvalue, hnegative]

theorem literal?_leaner (h : Leaner b .type f f') :
    literal? (f'.value? "value") = literal? (f.value? "value") := by
  have hkey : Place.type.shape? "value" = some .literal := by decide
  rcases h.literal hkey with ⟨hv, hv'⟩ | ⟨v, v', hv, hv', hpruned⟩
  · rw [hv, hv']
  · rw [hv, hv', literal?_pruned hpruned]

/-- What is no target of a named type gives a broken one. -/
theorem refTarget_eq_broken (h : Shape.target.accepts v = false) :
    refTarget (some v) = return .broken := by
  rw [Shape.accepts, Bool.or_eq_false_iff] at h
  cases v with
  | num n =>
    cases n with
    | int i =>
      cases i with
      | ofNat n =>
        have hn : ¬ n < Json.wordBound := fun hn => by
          simp [Json.asWord?, Json.asNat?, hn] at h
        rw [refTarget, if_neg hn]
      | negSucc n => rfl
    | float x => rfl
  | obj fields => cases h.2
  | null | bool _ | str _ | arr _ => rfl

theorem alike_refTarget_pruned (h : Pruned (Harmless b) .symbol v v') :
    Alike b none id (refTarget (some v)) (refTarget (some v')) := by
  have hsame (v : Json) : Alike b none id (refTarget (some v)) (refTarget (some v)) := by
    rw [refTarget.eq_def]
    split
    · split
      · exact Alike.bump.bind_eq fun _ => .pure rfl
      · exact .pure rfl
    · refine Alike.revival.bind fun r r' hr => .pure ?_
      rw [symbol?_leaner hr (.refl ..)]
    · exact .pure rfl
  cases h with
  | refl => exact hsame v
  | arr hitems => exact .pure rfl
  | obj hfields =>
    refine Alike.revival.bind fun r r' hr => .pure ?_
    rw [symbol?_leaner hr hfields]

theorem alike_refTarget (h : Leaner b .reference f f') :
    Alike b none id (refTarget (f.value? "target")) (refTarget (f'.value? "target")) := by
  have hk : Place.reference.shape? "target" = some .target := by decide
  rcases h.value? "target" with ⟨hv, hv'⟩ | ⟨v, v', hv, hv', hpruned⟩ | ⟨v, hv, hv', hmay⟩
  · rw [hv, hv']
    exact .pure rfl
  · rw [hv, hv']
    exact alike_refTarget_pruned hpruned
  · rw [hv, hv', refTarget_eq_broken (hmay _ hk).1]
    exact .pure rfl

theorem alike_summaries (h : Leaner b .type f f') :
    Alike b none id (summaries f) (summaries f') := by
  have hk : Place.type.shape? "elementSummaries" = some (.array .part) := by decide
  rw [summaries, summaries]
  rcases h.array? hk with ⟨hv, hv'⟩ | ⟨lists, lists', hv, hv', hpruned⟩
  · rw [hv, hv']
    exact .pure rfl
  · rw [hv, hv']
    refine Alike.bind_eq (Alike.collect_eq hpruned.forall₂ fun v v' hlist => ?_) fun _ => .pure rfl
    refine (alike_parts ?_).bind_eq fun _ => .pure rfl
    rw [Option.bind_some, Option.bind_some]
    rcases hlist.asArray? with ⟨hnone, hnone'⟩ | ⟨items, items', hitems, hitems', hrest⟩
    · rw [hnone, hnone']
      exact .nil
    · rw [hitems, hitems']
      exact hrest.objects

/-! ### Named types and spans -/

/-- The type arguments, where they are. -/
def typeArguments? (c : Constructors) (fields : Fields) : ReadM (Option (List Ty)) := do
  if fields.has "typeArguments" then return some (← c.typesAt fields "typeArguments")
  else return none

theorem reference_eq (c : Constructors) (fields : Fields) : reference c fields = do
    let target ← refTarget (fields.value? "target")
    let args ← typeArguments? c fields
    let head : Ref := ⟨fields.text "name", target, fields.text? "qualifiedName", fields.text? "package",
      fields.text? "externalUrl", fields.flag "refersToTypeParameter", fields.flag "preferValues"⟩
    return some (.reference head args) := by
  rw [reference]
  refine congrArg (refTarget (fields.value? "target") >>= ·) (funext fun target => ?_)
  rw [typeArguments?]
  split
  · simp only [bind_assoc, pure_bind, map_eq_pure_bind]
  · simp only [pure_bind]

/-- A span is an array of an object and one more value. -/
theorem span_eq (c : Constructors) (v : Json) : span c v =
    match v.asArray? with
    | some [type, text] =>
      match type.asObject? with
      | some type => do return (← c.type type).map fun t => (t, text.asString?.getD "")
      | none => return none
    | _ => return none := by
  cases v with
  | arr items => rcases items with _ | ⟨type, _ | ⟨text, _ | _⟩⟩ <;> (try cases type) <;> rfl
  | _ => rfl

/-- The query of a named type, which lends its head and its arguments. -/
def queried? : Option Ty → Option Ty
  | some (.reference head args) => some (.query head args)
  | _ => none

theorem typeBuilder_query (c : Constructors) (fields : Fields) :
    typeBuilder .query c fields = do return queried? (← c.typeAt fields "queryType") := by
  rw [typeBuilder]
  refine congrArg (c.typeAt fields "queryType" >>= ·) (funext fun o => ?_)
  rcases o with _ | t
  · rfl
  · cases t <;> rfl

theorem queried?_blur (o : Option Ty) :
    (queried? o).map (Ty.blur b) = queried? (o.map (Ty.blur b)) := by
  rcases o with _ | t
  · rfl
  · cases t <;> rfl

section Builders

variable (hc : ConstructAlike b depth depth' c c')
include hc

theorem alike_reference (h : Trimmed b (depth + 1) (depth' + 1) .reference f f') :
    Alike b none (Option.map (Ty.blur b)) (reference c f) (reference c' f') := by
  have hname : f'.text "name" = f.text "name" := h.leaner.text (by decide)
  have hqualified : f'.text? "qualifiedName" = f.text? "qualifiedName" := h.leaner.text? (by decide)
  have hpackage : f'.text? "package" = f.text? "package" := h.leaner.text? (by decide)
  have hurl : f'.text? "externalUrl" = f.text? "externalUrl" := h.leaner.text? (by decide)
  have hparameter : f'.flag "refersToTypeParameter" = f.flag "refersToTypeParameter" :=
    h.leaner.flag (by decide)
  have hvalues : f'.flag "preferValues" = f.flag "preferValues" := h.leaner.flag (by decide)
  have hk : Place.reference.shape? "typeArguments" = some (.array .type) := by decide
  rw [reference_eq, reference_eq, hname, hqualified, hpackage, hurl, hparameter, hvalues]
  refine (alike_refTarget h.leaner).bind_eq fun target => ?_
  refine (alike_list? h.leaner hk rfl (hc.typesAt h hk) ?_).bind fun args args' hargs => .pure ?_
  · rintro hnone
    rw [Constructors.typesAt, Fields.objects, hnone]
    rfl
  · simp only [Option.map_some, Ty.blur, Ty.blurArgs_eq, hargs]

theorem alike_span (h : Pruned (Harmless b) .type v v') (hv : v.depth ≤ depth)
    (hv' : v'.depth ≤ depth') :
    Alike b none (Option.map fun entry => (entry.1.blur b, entry.2)) (span c v) (span c' v') := by
  rw [span_eq, span_eq]
  rcases h.asArray? with ⟨hnone, hnone'⟩ | ⟨items, items', hitems, hitems', hpruned⟩
  · rw [hnone, hnone']
    exact .pure rfl
  · obtain rfl := Json.eq_arr hitems
    obtain rfl := Json.eq_arr hitems'
    cases hpruned with
    | nil => exact .pure rfl
    | @cons _ type type' _ _ htype hrest =>
      cases hrest with
      | nil => exact .pure rfl
      | @cons _ text text' _ _ htext hmore =>
        cases hmore with
        | cons _ _ => exact .pure rfl
        | nil =>
          have hdepth := Json.depth_lt_of_mem (List.mem_cons_self (a := type) (l := [text]))
          have hdepth' := Json.depth_lt_of_mem (List.mem_cons_self (a := type') (l := [text']))
          simp only [Json.asArray?]
          rcases htype.asObject? with ⟨hnone, hnone'⟩ | ⟨g, g', hg, hg', hinner⟩
          · rw [hnone, hnone']
            exact .pure rfl
          · obtain rfl := Json.eq_obj hg
            obtain rfl := Json.eq_obj hg'
            have hleft : g.Within depth False := ⟨by omega, False.elim⟩
            have hright : g'.Within depth' False := ⟨by omega, False.elim⟩
            refine (hc.type g g' ⟨hinner, hleft, hright⟩).bind fun t t' ht => .pure ?_
            rw [htext.asString?]
            cases t <;> cases t' <;> simp_all

/-! ### Builders -/

omit hc in
/-- A part without which the type is dropped. -/
theorem alike_need {m m' : ReadM (Option Ty)} {k k' : Option Ty → ReadM (Option Ty)}
    (hm : Alike b none (Option.map (Ty.blur b)) m m') (hnone : k none = Pure.pure none)
    (hnone' : k' none = Pure.pure none)
    (hsome : ∀ t t', t.blur b = t'.blur b →
      Alike b none (Option.map (Ty.blur b)) (k (some t)) (k' (some t'))) :
    Alike b none (Option.map (Ty.blur b)) (m >>= k) (m' >>= k') := by
  refine hm.bind fun o o' ho => ?_
  cases o with
  | none =>
    obtain rfl := Option.map_eq_none_iff.mp ho.symm
    rw [hnone, hnone']
    exact .pure rfl
  | some t =>
    obtain ⟨t', rfl, ht⟩ := Option.map_eq_some_iff.mp ho.symm
    exact hsome t t' ht.symm

section

variable (h : Trimmed b (depth + 1) (depth' + 1) .type f f')
include h

theorem alike_around {make : Ty → Ty} (hk : Place.type.shape? key = some (.object .type))
    (hmake : ∀ t, (make t).blur b = make (t.blur b)) :
    Alike b none (Option.map (Ty.blur b)) (around key make c f) (around key make c' f') := by
  refine (hc.typeAt h hk).bind fun o o' ho => .pure ?_
  have hmap (o : Option Ty) : (o.map make).map (Ty.blur b) = (o.map (Ty.blur b)).map make := by
    cases o with
    | none => rfl
    | some t => exact congrArg some (hmake t)
  rw [hmap, hmap, ho]

omit hc h in
/-- A type that is made of others with none of them missing. -/
theorem alike_make {α : Type} {g : α → α} {m m' : ReadM α} {make : α → Ty}
    (hm : Alike b none g m m') (hmake : ∀ a, (make a).blur b = make (g a)) :
    Alike b none (Option.map (Ty.blur b)) (do return some (make (← m))) (do return some (make (← m'))) := by
  refine hm.bind fun a a' ha => .pure ?_
  rw [Option.map_some, Option.map_some, hmake, hmake, ha]

theorem alike_conditional : Alike b none (Option.map (Ty.blur b)) (typeBuilder .conditional c f)
    (typeBuilder .conditional c' f') := by
  refine alike_need (hc.typeAt h (by decide)) rfl rfl fun check check' hcheck => ?_
  refine alike_need (hc.typeAt h (by decide)) rfl rfl fun extend extend' hextend => ?_
  refine alike_need (hc.typeAt h (by decide)) rfl rfl fun yes yes' hyes => ?_
  refine alike_need (hc.typeAt h (by decide)) rfl rfl fun no no' hno => .pure ?_
  simp only [Option.map_some, Ty.blur, hcheck, hextend, hyes, hno]

theorem alike_indexedAccess : Alike b none (Option.map (Ty.blur b)) (typeBuilder .indexedAccess c f)
    (typeBuilder .indexedAccess c' f') := by
  refine alike_need (hc.typeAt h (by decide)) rfl rfl fun object object' hobject => ?_
  refine alike_need (hc.typeAt h (by decide)) rfl rfl fun index index' hindex => .pure ?_
  simp only [Option.map_some, Ty.blur, hobject, hindex]

theorem alike_mapped : Alike b none (Option.map (Ty.blur b)) (typeBuilder .mapped c f)
    (typeBuilder .mapped c' f') := by
  have hparameter : f'.text "parameter" = f.text "parameter" := h.leaner.text (by decide)
  have hreadonly : f'.text? "readonlyModifier" = f.text? "readonlyModifier" :=
    h.leaner.text? (by decide)
  have hoptional : f'.text? "optionalModifier" = f.text? "optionalModifier" :=
    h.leaner.text? (by decide)
  refine alike_need (hc.typeAt h (by decide)) rfl rfl fun source source' hsource => ?_
  refine alike_need (hc.typeAt h (by decide)) rfl rfl fun template template' htemplate => ?_
  refine (hc.typeAt h (by decide)).bind fun name name' hname => .pure ?_
  simp only [Option.map_some, Ty.blur, Ty.blurOption_eq, hsource, htemplate, hname, hparameter,
    hreadonly, hoptional]

theorem alike_query : Alike b none (Option.map (Ty.blur b)) (typeBuilder .query c f)
    (typeBuilder .query c' f') := by
  rw [typeBuilder_query, typeBuilder_query]
  refine (hc.typeAt h (by decide)).bind fun o o' ho => .pure ?_
  rw [queried?_blur, queried?_blur, ho]

theorem alike_reflection : Alike b none (Option.map (Ty.blur b)) (typeBuilder .reflection c f)
    (typeBuilder .reflection c' f') := by
  simp only [typeBuilder]
  have hkey : Place.type.shape? "declaration" = some (.object .reflection) := by decide
  rcases h.object? hkey with ⟨hg, hg'⟩ | ⟨g, g', hg, hg', hinner⟩
  · rw [hg, hg']
    exact .pure rfl
  · rw [hg, hg']
    exact (hc.reflection g g' .typeLiteral hinner).bind_eq fun _ => .pure rfl

theorem alike_template : Alike b none (Option.map (Ty.blur b)) (typeBuilder .templateLiteral c f)
    (typeBuilder .templateLiteral c' f') := by
  have hhead : f'.text "head" = f.text "head" := h.leaner.text (by decide)
  have hkey : Place.type.shape? "tail" = some (.array .type) := by decide
  have hitems := (h.leaner.items hkey).forall₂
  simp only [typeBuilder, hhead]
  have htail := Alike.collect (forall₂_mem hitems) fun v v' ⟨hv, hv', hpruned⟩ =>
    alike_span hc hpruned (h.left.item hv).1 (h.right.item hv').1
  exact alike_make htail fun tail => by rw [Ty.blur, Ty.blurTail_eq]

theorem alike_operator : Alike b none (Option.map (Ty.blur b)) (typeBuilder .typeOperator c f)
    (typeBuilder .typeOperator c' f') := by
  have hword : f'.text? "operator" = f.text? "operator" := h.leaner.text? (by decide)
  cases hop : (f.text? "operator").bind Operator.ofWord? with
  | none =>
    simp only [typeBuilder, hword, hop]
    exact .pure rfl
  | some op =>
    simp only [typeBuilder, hword, hop]
    exact alike_around hc h (by decide) fun _ => rfl

theorem alike_union : Alike b none (Option.map (Ty.blur b)) (typeBuilder .union c f)
    (typeBuilder .union c' f') := by
  refine (hc.typesAt h (by decide)).bind fun types types' htypes => ?_
  refine (alike_summaries h.leaner).bind_eq fun summaries => .pure ?_
  simp only [Option.map_some, Ty.blur, Ty.blurList_eq, htypes]

/-- The standard builders of the types that are no references. -/
theorem alike_typeBuilder {kind : TypeKind} (hkind : kind ≠ .reference) :
    Alike b none (Option.map (Ty.blur b)) (typeBuilder kind c f) (typeBuilder kind c' f') := by
  have hname : f'.text "name" = f.text "name" := h.leaner.text (by decide)
  cases kind with
  | array | optional | rest => exact alike_around hc h (by decide) fun _ => rfl
  | conditional => exact alike_conditional hc h
  | indexedAccess => exact alike_indexedAccess hc h
  | inferred =>
    simp only [typeBuilder, hname]
    exact alike_make (hc.typeAt h (by decide)) fun o => by rw [Ty.blur, Ty.blurOption_eq]
  | intersection | tuple =>
    exact alike_make (hc.typesAt h (by decide)) fun ts => by rw [Ty.blur, Ty.blurList_eq]
  | intrinsic | unknown =>
    simp only [typeBuilder, hname]
    exact .pure rfl
  | literal =>
    simp only [typeBuilder, literal?_leaner h.leaner]
    exact .pure rfl
  | mapped => exact alike_mapped hc h
  | namedTupleMember =>
    have hoptional : f'.flag "isOptional" = f.flag "isOptional" := h.leaner.flag (by decide)
    simp only [typeBuilder, hname, hoptional]
    exact alike_around hc h (by decide) fun _ => rfl
  | predicate =>
    have hasserts : f'.flag "asserts" = f.flag "asserts" := h.leaner.flag (by decide)
    simp only [typeBuilder, hname, hasserts]
    exact alike_make (hc.typeAt h (by decide)) fun o => by rw [Ty.blur, Ty.blurOption_eq]
  | query => exact alike_query hc h
  | reference => exact absurd rfl hkind
  | reflection => exact alike_reflection hc h
  | templateLiteral => exact alike_template hc h
  | typeOperator => exact alike_operator hc h
  | union => exact alike_union hc h

end

end Builders

end Reader

end DocTree
