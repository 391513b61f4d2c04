import DocTree.Proofs.RoundTrip.Copied

/-!
Reading the types that were written. The fields of a type hold the types inside it, which are read in
the order of its parts; a declaration that a type owns is registered where it is reached.
-/

namespace DocTree

attribute [grind =] Writer.type Reader.typeBuilder

/-! ### Types in which nothing waits -/

namespace Ty

variable {t : Ty} {head : Ref} {args : Option (List Ty)}

theorem still_of_children (href : t.ref? = none) (hsummaries : t.summaries? = none)
    (h : ∀ a ∈ t.children, a.Still) : t.Still := fun v =>
  (adjust_eq_mapChildren href hsummaries rfl).trans (mapChildren_of_id fun a ha => h a ha v)

theorem newType_reference (v : Revival) (head : Ref) (args : Option (List Ty)) :
    Reader.newType v (.reference head args) =
      .reference { head with target := Reader.newRef v head.target }
        (args.map (·.map (Reader.newType v))) := by
  rw [Reader.newType, adjust, adjustArgs_eq]
  rfl

theorem newType_query (v : Revival) (head : Ref) (args : Option (List Ty)) :
    Reader.newType v (.query head args) = .query { head with target := Reader.newRef v head.target }
      (args.map (·.map (Reader.newType v))) := by
  rw [Reader.newType, adjust, adjustArgs_eq]
  rfl

theorem newType_union (v : Revival) (xs : List Ty) (lists : Option (List (List Part))) :
    Reader.newType v (.union xs lists) =
      .union (xs.map (Reader.newType v)) (lists.map (·.map (·.map (Reader.newPart v)))) := by
  rw [Reader.newType, adjust, adjustList_eq]
  rfl

theorem still_reference (h : ∀ a ∈ args.getD [], a.Still)
    (hhead : ∀ v, Reader.newRef v head.target = head.target) : (Ty.reference head args).Still := by
  intro v
  rw [newType_reference, hhead v]
  cases args with
  | none => rfl
  | some xs => exact congrArg (fun ys => reference head (some ys)) (map_of_id fun a ha => h a ha v)

theorem still_query (h : (Ty.reference head args).Still) : (Ty.query head args).Still := by
  intro v
  have hv := h v
  rw [newType_reference] at hv
  injection hv with hhead hargs
  rw [newType_query, hhead, hargs]

theorem still_union {xs : List Ty} {lists : Option (List (List Part))} (h : ∀ a ∈ xs, a.Still)
    (hlists : ∀ ps ∈ lists.getD [], ∀ p ∈ ps, p.Still) : (Ty.union xs lists).Still := by
  intro v
  rw [newType_union, map_of_id fun a ha => h a ha v]
  cases lists with
  | none => rfl
  | some lists =>
    exact congrArg (fun ls => union xs (some ls))
      (map_of_id fun ps hps => map_of_id fun p hp => hlists ps hps p hp v)

end Ty

/-- What a reference leads to is registered. -/
theorem Project.contains_of_resolveTarget? {p : Project} (hid : ∀ i r, p.get? i = some r → r.id = i)
    {target : RefTarget} {i : ReflectionId} (h : p.resolveTarget? target = some i) :
    p.contains i = true := by
  cases target with
  | reflection j =>
    rw [resolveTarget?] at h
    split at h
    · next hj => exact Option.some.inj h ▸ hj
    · cases h
  | symbol s =>
    obtain ⟨r, hr, rfl⟩ := Option.map_eq_some_iff.mp h
    obtain ⟨j, -, hj⟩ := exists_of_ofSymbol? hr
    exact hid j r hj ▸ contains_of_get? hj
  | pending old | broken => cases h

namespace Copying

variable {c : Copying} {clean : Prop} {inside : ReflectionId → Option Json} {n : Nat}
  {r : Reflection}

/-! ### Leaves -/

theorem literal_read (value : Literal) :
    Reader.literal? (some (Writer.literal value)) = some value.reread := by
  cases value with
  | number x =>
    rw [Writer.literal, Writer.number, Literal.reread]
    cases x.toInt? with
    | some k =>
      by_cases hk : k.natAbs ≤ Writer.maxSafeInteger
      · simp only [if_pos hk]
        rfl
      · simp only [if_neg hk]
        rfl
    | none => cases x.isFinite <;> rfl
  | _ => rfl

theorem Legible.contains_of_resolveTarget? (hleg : c.Legible) {target : RefTarget}
    {id : ReflectionId} (h : c.project.resolveTarget? target = some id) :
    c.project.contains id = true :=
  Project.contains_of_resolveTarget? hleg.id h

theorem takes_refTarget (hleg : c.Legible) (target : RefTarget) :
    Takes (c.site clean) (Reader.refTarget (some (c.writer.refTarget target))) (c.refTarget target)
      (∀ v, Reader.newRef v (c.refTarget target) = c.refTarget target) := by
  unfold Writer.refTarget refTarget
  rw [show c.writer.project.resolveTarget? target = c.project.resolveTarget? target from rfl]
  cases hfound : c.project.resolveTarget? target with
  | some id =>
    have hlt := lt_wordBound hleg (hleg.contains_of_resolveTarget? hfound)
    change Takes _ (if id < Json.wordBound then _ else _) _ _
    rw [if_pos hlt]
    exact .bump_then (.pure (P := True) _ trivial)
  | none =>
    cases target with
    | symbol s =>
      simp only [symbol_written]
      refine .ask ⟨0, fun v hroot _ n base r => ?_, fun _ v => rfl⟩
      rw [symbol?_written hroot]
      exact Reads.pure _
    | reflection _ | pending _ | broken => exact .pure _ fun _ => rfl

/-! ### Types inside -/

section Inside

/-- The types inside can be read: the fields of a type that was written give it back, its
declarations registered from the next number on. -/
def Typed (c : Copying) (clean : Prop) (inside : ReflectionId → Option Json) (n : Nat)
    (r : Reflection) (t : Ty) : Prop :=
  ∃ fields, c.writer.type inside t = .obj fields ∧ ∀ b depth, n < b →
    (Json.obj fields).depth ≤ depth →
    c.Copies clean n b ((Deserializer.standard.constructors depth).type fields) r (some (c.ty b t)) r
      t.declarations [] (c.ty b t).Still

theorem typeNode_written {t : Ty} {body : Fields} {keys : List String}
    (h : Fields.Keyed keys body) (hkeys : ("type" :: keys).Nodup) :
    c.writer.typeNode t body = .obj (("type", .str t.kind.tag) :: body) :=
  Component.compose_whole (h.cons _ _) hkeys

theorem ofTag?_tag (kind : TypeKind) : TypeKind.ofTag? kind.tag = some kind := by
  cases kind <;> decide

/-- A type is read by the builder of its kind. -/
theorem typed_node {t : Ty} (kind : TypeKind) (fields : Fields)
    (hw : c.writer.type inside t = .obj fields) (htag : fields.text? "type" = some kind.tag)
    (h : ∀ b depth, n < b → Shallow fields depth →
      c.Copies clean n b (Reader.typeBuilder kind (Deserializer.standard.constructors depth) fields)
        r (some (c.ty b t)) r t.declarations [] (c.ty b t).Still) : c.Typed clean inside n r t := by
  refine ⟨fields, hw, fun b depth hb hdepth => ?_⟩
  obtain ⟨depth, rfl⟩ : ∃ d, depth = d + 1 := ⟨depth - 1, by
    rw [Json.depth] at hdepth
    omega⟩
  have hkind : TypeKind.ofTag? (fields.text "type") = some kind := by
    rw [Fields.text, htag]
    exact ofTag?_tag kind
  change c.Copies clean n b (Deserializer.standard.constructType
    (Deserializer.standard.constructors depth) _) _ _ _ _ _ _
  simp only [Deserializer.constructType, hkind]
  refine Copies.of_eq (Copies.imp (Copies.bind hb (h b depth hb (shallow_of_le hdepth))
    (Copies.pure _ trivial)) And.left) (List.append_nil _) rfl

variable {fields : Fields} {key : String} {b depth : Nat}

theorem copies_typeAt {t : Ty} (ht : c.Typed clean inside n r t) (hb : n < b)
    (hshallow : Shallow fields depth) (hkey : fields.value? key = some (c.writer.type inside t)) :
    c.Copies clean n b ((Deserializer.standard.constructors depth).typeAt fields key) r
      (some (c.ty b t)) r t.declarations [] (c.ty b t).Still := by
  obtain ⟨inner, hw, hread⟩ := ht
  have hdepth := hshallow key _ hkey
  rw [hw] at hkey hdepth
  rw [Constructors.typeAt, Fields.object?, hkey]
  exact hread b depth hb hdepth

theorem copies_typeAt? {o : Option Ty} (ho : ∀ t ∈ o, c.Typed clean inside n r t) (hb : n < b)
    (hshallow : Shallow fields depth) (hkey : fields.value? key = c.writer.typeOption inside o) :
    c.Copies clean n b ((Deserializer.standard.constructors depth).typeAt fields key) r
      (c.tyOption b o) r (o.toList.flatMap Ty.declarations) [] (∀ t ∈ c.tyOption b o, t.Still) := by
  cases o with
  | none =>
    rw [Constructors.typeAt, Fields.object?, hkey]
    exact .pure _ fun _ ht => by cases ht
  | some t =>
    refine ((copies_typeAt (ho t rfl) hb hshallow hkey).imp fun hstill t' ht' => ?_).of_eq
      (List.append_nil _).symm rfl
    exact Option.some.inj ht' ▸ hstill

theorem typeList_eq (inside : ReflectionId → Option Json) (ts : List Ty) :
    c.writer.typeList inside ts = ts.map (c.writer.type inside) := by
  induction ts with
  | nil => rfl
  | cons t rest ih => rw [Writer.typeList, ih, List.map_cons]

theorem copies_types {ts : List Ty} (hts : ∀ t ∈ ts, c.Typed clean inside n r t) (hb : n < b)
    (hdepth : ∀ j ∈ c.writer.typeList inside ts, j.depth ≤ depth) :
    c.Copies clean n b (ReadM.collect (Deserializer.standard.constructors depth).type
        ((c.writer.typeList inside ts).filterMap Json.asObject?)) r (c.tyList b ts) r
      (ts.flatMap Ty.declarations) [] (∀ t ∈ c.tyList b ts, t.Still) := by
  induction ts generalizing b with
  | nil => exact .pure _ fun _ ht => (List.not_mem_nil ht).elim
  | cons t rest ih =>
    obtain ⟨inner, hw, hread⟩ := hts t (List.mem_cons_self ..)
    have hd : (Json.obj inner).depth ≤ depth := hw ▸ hdepth _ (List.mem_cons_self ..)
    have hrest := ih (b := b + c.total t.declarations)
      (fun x hx => hts x (List.mem_cons_of_mem t hx)) (by omega)
      fun j hj => hdepth j (List.mem_cons_of_mem _ hj)
    rw [Writer.typeList, hw]
    refine Copies.of_eq (Copies.imp (Copies.bind hb (hread b depth hb hd)
      (Copies.bind (by omega) hrest (.pure _ trivial))) fun hstill x hx => ?_) ?_ rfl
    · rcases List.mem_cons.mp hx with rfl | hx
      · exact hstill.1
      · exact hstill.2.1 x hx
    · rw [List.append_nil, List.flatMap_cons]

theorem copies_typesAt {ts : List Ty} (hts : ∀ t ∈ ts, c.Typed clean inside n r t) (hb : n < b)
    (hshallow : Shallow fields depth) (hkey : fields.items key = c.writer.typeList inside ts) :
    c.Copies clean n b ((Deserializer.standard.constructors depth).typesAt fields key) r
      (c.tyList b ts) r (ts.flatMap Ty.declarations) [] (∀ t ∈ c.tyList b ts, t.Still) := by
  rw [Constructors.typesAt, Fields.objects, hkey]
  exact copies_types hts hb (hkey ▸ hshallow.items)

/-! ### Kinds of types -/

/-- A kind of types without types inside. -/
theorem typed_leaf {t : Ty} (kind : TypeKind) (fields : Fields)
    (hw : c.writer.type inside t = .obj fields)
    (htag : fields.text? "type" = some kind.tag)
    (hbuild : ∀ cs, Reader.typeBuilder kind cs fields = pure (some (c.ty 0 t)))
    (hty : ∀ b, c.ty b t = c.ty 0 t) (hdeclarations : t.declarations = [])
    (hstill : (c.ty 0 t).Still) : c.Typed clean inside n r t :=
  typed_node kind fields hw htag fun b depth _ _ => by
    rw [hbuild, hty b, hdeclarations]
    exact .pure _ hstill

/-- A kind of types with one type inside, which is all that is read. -/
theorem typed_around {t x : Ty} (kind : TypeKind) (key : String) (fields : Fields) {make : Ty → Ty}
    (hw : c.writer.type inside t = .obj fields) (htag : fields.text? "type" = some kind.tag)
    (hkey : fields.value? key = some (c.writer.type inside x))
    (hbuild : ∀ cs, Reader.typeBuilder kind cs fields = Reader.around key make cs fields)
    (hty : ∀ b, c.ty b t = make (c.ty b x)) (hdeclarations : t.declarations = x.declarations)
    (hmake : ∀ y : Ty, y.Still → (make y).Still) (hx : c.Typed clean inside n r x) :
    c.Typed clean inside n r t := by
  refine typed_node kind fields hw htag fun b depth hb hshallow => ?_
  rw [hbuild, hty, hdeclarations]
  exact Copies.of_eq (Copies.imp (Copies.bind hb (copies_typeAt hx hb hshallow hkey)
    (.pure _ trivial)) fun h => hmake _ h.1) (List.append_nil _) rfl

theorem typed_array {t : Ty} (ht : c.Typed clean inside n r t) :
    c.Typed clean inside n r (.array t) := by
  refine typed_around .array "elementType" [("type", .str "array"),
    ("elementType", c.writer.type inside t)] ?_ rfl (by simp) (fun _ => rfl) (fun _ => rfl)
    (Ty.eq_declarations rfl (by simp [Ty.children])).symm
    (fun y hy => Ty.still_of_children rfl rfl fun a ha => List.mem_singleton.mp ha ▸ hy) ht
  exact typeNode_written (Fields.keyed_nil.cons _ _) (by simp)

theorem typed_optional {t : Ty} (ht : c.Typed clean inside n r t) :
    c.Typed clean inside n r (.optional t) := by
  refine typed_around .optional "elementType" [("type", .str "optional"),
    ("elementType", c.writer.type inside t)] ?_ rfl (by simp) (fun _ => rfl) (fun _ => rfl)
    (Ty.eq_declarations rfl (by simp [Ty.children])).symm
    (fun y hy => Ty.still_of_children rfl rfl fun a ha => List.mem_singleton.mp ha ▸ hy) ht
  exact typeNode_written (Fields.keyed_nil.cons _ _) (by simp)

theorem typed_rest {t : Ty} (ht : c.Typed clean inside n r t) :
    c.Typed clean inside n r (.rest t) := by
  refine typed_around .rest "elementType" [("type", .str "rest"),
    ("elementType", c.writer.type inside t)] ?_ rfl (by simp) (fun _ => rfl) (fun _ => rfl)
    (Ty.eq_declarations rfl (by simp [Ty.children])).symm
    (fun y hy => Ty.still_of_children rfl rfl fun a ha => List.mem_singleton.mp ha ▸ hy) ht
  exact typeNode_written (Fields.keyed_nil.cons _ _) (by simp)

theorem typed_namedTupleMember {t : Ty} (name : String) (isOptional : Bool)
    (ht : c.Typed clean inside n r t) :
    c.Typed clean inside n r (.namedTupleMember name isOptional t) := by
  refine typed_around .namedTupleMember "element" [("type", .str "namedTupleMember"),
    ("name", .str name), ("isOptional", .bool isOptional), ("element", c.writer.type inside t)]
    ?_ rfl (by simp) (fun _ => rfl) (fun _ => rfl)
    (Ty.eq_declarations rfl (by simp [Ty.children])).symm
    (fun y hy => Ty.still_of_children rfl rfl fun a ha => List.mem_singleton.mp ha ▸ hy) ht
  exact typeNode_written (((Fields.keyed_nil.cons _ _).cons _ _).cons _ _) (by simp)

theorem typed_operator {t : Ty} (op : Operator) (ht : c.Typed clean inside n r t) :
    c.Typed clean inside n r (.operator op t) := by
  refine typed_around .typeOperator "target" [("type", .str "typeOperator"),
    ("operator", .str op.word), ("target", c.writer.type inside t)] ?_ rfl (by simp)
    (fun _ => by cases op <;> rfl) (fun _ => rfl)
    (Ty.eq_declarations rfl (by simp [Ty.children])).symm
    (fun y hy => Ty.still_of_children rfl rfl fun a ha => List.mem_singleton.mp ha ▸ hy) ht
  exact typeNode_written ((Fields.keyed_nil.cons _ _).cons _ _) (by simp)

theorem typed_intrinsic (name : String) : c.Typed clean inside n r (.intrinsic name) := by
  refine typed_leaf .intrinsic [("type", .str "intrinsic"), ("name", .str name)] ?_ rfl
    (fun _ => rfl) (fun _ => rfl) rfl (Ty.still_of_children rfl rfl fun _ ha => by cases ha)
  exact typeNode_written (Fields.keyed_nil.cons _ _) (by simp)

theorem typed_unknown (name : String) : c.Typed clean inside n r (.unknown name) := by
  refine typed_leaf .unknown [("type", .str "unknown"), ("name", .str name)] ?_ rfl
    (fun _ => rfl) (fun _ => rfl) rfl (Ty.still_of_children rfl rfl fun _ ha => by cases ha)
  exact typeNode_written (Fields.keyed_nil.cons _ _) (by simp)

theorem typed_literal (value : Literal) : c.Typed clean inside n r (.literal value) := by
  refine typed_leaf .literal [("type", .str "literal"),
    ("value", Writer.literal value)] ?_ rfl (fun _ => ?_) (fun _ => rfl) rfl
    (Ty.still_of_children rfl rfl fun _ ha => by cases ha)
  · exact typeNode_written (Fields.keyed_nil.cons _ _) (by simp)
  · exact congrArg (fun l : Option Literal => (pure (l.map Ty.literal) : ReadM (Option Ty)))
      (literal_read value)

theorem typed_conditional {x y z w : Ty} (hx : c.Typed clean inside n r x)
    (hy : c.Typed clean inside n r y) (hz : c.Typed clean inside n r z)
    (hw : c.Typed clean inside n r w) : c.Typed clean inside n r (.conditional x y z w) := by
  refine typed_node .conditional [("type", .str "conditional"),
    ("checkType", c.writer.type inside x), ("extendsType", c.writer.type inside y),
    ("trueType", c.writer.type inside z), ("falseType", c.writer.type inside w)] ?_ rfl
    fun b depth hb hshallow => ?_
  · exact typeNode_written ((((Fields.keyed_nil.cons _ _).cons _ _).cons _ _).cons _ _) (by simp)
  refine Copies.of_eq (Copies.imp
    (Copies.bind hb (copies_typeAt hx hb hshallow (by simp))
      (Copies.bind (by omega) (copies_typeAt hy (by omega) hshallow (by simp))
        (Copies.bind (by omega) (copies_typeAt hz (by omega) hshallow (by simp))
          (Copies.bind (by omega) (copies_typeAt hw (by omega) hshallow (by simp))
            (Copies.pure _ trivial))))) fun hstill => ?_)
    (Ty.eq_declarations rfl (by simp [Ty.children])) rfl
  obtain ⟨h1, h2, h3, h4, -⟩ := hstill
  refine Ty.still_of_children rfl rfl fun a ha => ?_
  simp only [ty, Ty.children, List.mem_cons, List.not_mem_nil, or_false] at ha
  rcases ha with rfl | rfl | rfl | rfl <;> assumption

theorem typed_indexedAccess {x y : Ty} (hx : c.Typed clean inside n r x)
    (hy : c.Typed clean inside n r y) : c.Typed clean inside n r (.indexedAccess x y) := by
  refine typed_node .indexedAccess [("type", .str "indexedAccess"),
    ("indexType", c.writer.type inside y), ("objectType", c.writer.type inside x)] ?_ rfl
    fun b depth hb hshallow => ?_
  · exact typeNode_written ((Fields.keyed_nil.cons _ _).cons _ _) (by simp)
  refine Copies.of_eq (Copies.imp
    (Copies.bind hb (copies_typeAt hx hb hshallow (by simp))
      (Copies.bind (by omega) (copies_typeAt hy (by omega) hshallow (by simp))
        (Copies.pure _ trivial))) fun hstill => ?_)
    (Ty.eq_declarations rfl (by simp [Ty.children])) rfl
  refine Ty.still_of_children rfl rfl fun a ha => ?_
  simp only [ty, Ty.children, List.mem_cons, List.not_mem_nil, or_false] at ha
  rcases ha with rfl | rfl
  · exact hstill.1
  · exact hstill.2.1

theorem typed_inferred {o : Option Ty} (name : String) (ho : ∀ t ∈ o, c.Typed clean inside n r t) :
    c.Typed clean inside n r (.inferred name o) := by
  refine typed_node .inferred (("type", .str "inferred") :: ("name", .str name) ::
    Writer.valueField "constraint" (c.writer.typeOption inside o)) ?_ rfl fun b depth hb hshallow => ?_
  · exact typeNode_written ((Fields.keyed_valueField _ _).cons _ _) (by simp)
  refine Copies.of_eq (Copies.imp (Copies.bind hb (copies_typeAt? ho hb hshallow (by simp))
    (Copies.pure _ trivial)) fun hstill => ?_) (Ty.eq_declarations rfl (by simp [Ty.children])) rfl
  exact Ty.still_of_children rfl rfl fun a ha => hstill.1 a (Option.mem_toList.mp ha)

theorem typed_predicate {o : Option Ty} (name : String) (asserts : Bool)
    (ho : ∀ t ∈ o, c.Typed clean inside n r t) :
    c.Typed clean inside n r (.predicate name asserts o) := by
  refine typed_node .predicate ([("type", .str "predicate"), ("name", .str name),
    ("asserts", .bool asserts)] ++ Writer.valueField "targetType" (c.writer.typeOption inside o))
    ?_ rfl fun b depth hb hshallow => ?_
  · exact typeNode_written (((Fields.keyed_nil.cons _ _).cons _ _).append
      (Fields.keyed_valueField _ _)) (by simp)
  refine Copies.of_eq (Copies.imp (Copies.bind hb (copies_typeAt? ho hb hshallow (by simp))
    (Copies.pure _ trivial)) fun hstill => ?_) (Ty.eq_declarations rfl (by simp [Ty.children])) rfl
  exact Ty.still_of_children rfl rfl fun a ha => hstill.1 a (Option.mem_toList.mp ha)

theorem typed_mapped {x y : Ty} {o : Option Ty} (parameter : String) (fixed missing : Option Modifier)
    (hx : c.Typed clean inside n r x) (hy : c.Typed clean inside n r y)
    (ho : ∀ t ∈ o, c.Typed clean inside n r t) :
    c.Typed clean inside n r (.mapped parameter x y fixed missing o) := by
  let fields : Fields := [("type", .str "mapped"), ("parameter", .str parameter),
    ("parameterType", c.writer.type inside x), ("templateType", c.writer.type inside y)] ++
    Writer.textField "readonlyModifier" (fixed.map (·.sign)) ++
    Writer.textField "optionalModifier" (missing.map (·.sign)) ++
    Writer.valueField "nameType" (c.writer.typeOption inside o)
  have hsign : ∀ m : Option Modifier, (m.map (·.sign)).bind Modifier.ofSign? = m := fun m => by
    rcases m with - | (- | -) <;> rfl
  have hfixed : (fields.text? "readonlyModifier").bind Modifier.ofSign? = fixed := by
    have htext : fields.text? "readonlyModifier" = fixed.map (·.sign) := by
      rw [Fields.text?, ← Json.bind_asString? (fixed.map _)]
      simp [fields]
    rw [htext, hsign]
  have hmissing : (fields.text? "optionalModifier").bind Modifier.ofSign? = missing := by
    have htext : fields.text? "optionalModifier" = missing.map (·.sign) := by
      rw [Fields.text?, ← Json.bind_asString? (missing.map _)]
      simp [fields]
    rw [htext, hsign]
  refine typed_node .mapped fields ?_ rfl fun b depth hb hshallow => ?_
  · exact typeNode_written ((((((Fields.keyed_nil.cons _ _).cons _ _).cons _ _).append
      (Fields.keyed_textField _ _)).append (Fields.keyed_textField _ _)).append
      (Fields.keyed_valueField _ _)) (by simp)
  simp only [Reader.typeBuilder, hfixed, hmissing]
  refine Copies.of_eq (Copies.imp
    (Copies.bind hb (copies_typeAt hx hb hshallow (by simp [fields]))
      (Copies.bind (by omega) (copies_typeAt hy (by omega) hshallow (by simp [fields]))
        (Copies.bind (by omega) (copies_typeAt? ho (by omega) hshallow (by simp [fields]))
          (Copies.pure _ trivial)))) fun hstill => ?_)
    (Ty.eq_declarations rfl (by simp [Ty.children])) rfl
  obtain ⟨h1, h2, h3, -⟩ := hstill
  refine Ty.still_of_children rfl rfl fun a ha => ?_
  simp only [ty, Ty.children, List.mem_cons, Option.mem_toList] at ha
  rcases ha with rfl | rfl | ha
  · exact h1
  · exact h2
  · exact h3 a ha

theorem typed_intersection {ts : List Ty} (hts : ∀ t ∈ ts, c.Typed clean inside n r t) :
    c.Typed clean inside n r (.intersection ts) := by
  refine typed_node .intersection [("type", .str "intersection"),
    ("types", .arr (c.writer.typeList inside ts))] ?_ rfl fun b depth hb hshallow => ?_
  · exact typeNode_written (Fields.keyed_nil.cons _ _) (by simp)
  refine Copies.of_eq (Copies.imp (Copies.bind hb (copies_typesAt hts hb hshallow
    (by simp [Fields.items])) (Copies.pure _ trivial)) fun hstill => ?_)
    (Ty.eq_declarations rfl (by simp [Ty.children])) rfl
  exact Ty.still_of_children rfl rfl hstill.1

theorem typed_tuple {ts : List Ty} (hts : ∀ t ∈ ts, c.Typed clean inside n r t) :
    c.Typed clean inside n r (.tuple ts) := by
  refine typed_node .tuple (("type", .str "tuple") ::
    Writer.listField "elements" (c.writer.typeList inside ts)) ?_ rfl fun b depth hb hshallow => ?_
  · exact typeNode_written (Fields.keyed_listField _ _) (by simp)
  refine Copies.of_eq (Copies.imp (Copies.bind hb (copies_typesAt hts hb hshallow
    (Fields.items_of_listField (by simp))) (Copies.pure _ trivial)) fun hstill => ?_)
    (Ty.eq_declarations rfl (by simp [Ty.children])) rfl
  exact Ty.still_of_children rfl rfl hstill.1

/-- What follows a choice between two actions. -/
theorem ite_bind {α β : Type} (p : Prop) [Decidable p] (l m : ReadM α) (f : α → ReadM β) :
    (if p then l >>= f else m >>= f) = (if p then l else m) >>= f := by
  split <;> rfl

theorem copies_args {args : Option (List Ty)}
    (hargs : ∀ t ∈ args.getD [], c.Typed clean inside n r t) (hb : n < b)
    (hshallow : Shallow fields depth)
    (hkey : fields.value? "typeArguments" = if c.writer.typeArgs inside args = [] then none
      else some (.arr (c.writer.typeArgs inside args))) :
    c.Copies clean n b (if fields.has "typeArguments" = true then
        some <$> (Deserializer.standard.constructors depth).typesAt fields "typeArguments"
      else pure none) r (c.tyArgs b args) r ((args.getD []).flatMap Ty.declarations) []
      (∀ t ∈ (c.tyArgs b args).getD [], t.Still) := by
  rw [Fields.has, hkey]
  rcases args with _ | _ | ⟨t, ts⟩
  · exact .pure _ fun _ ht => (List.not_mem_nil ht).elim
  · exact .pure _ fun _ ht => (List.not_mem_nil ht).elim
  · exact Copies.map (copies_typesAt hargs hb hshallow (Fields.items_of_listField hkey))

theorem typed_reference (hleg : c.Legible) {head : Ref} {args : Option (List Ty)}
    (hargs : ∀ t ∈ args.getD [], c.Typed clean inside n r t) :
    c.Typed clean inside n r (.reference head args) := by
  let fields : Fields := ("type", .str "reference") ::
    ([("target", c.writer.refTarget head.target)] ++
      Writer.listField "typeArguments" (c.writer.typeArgs inside args) ++
      [("name", .str head.name)] ++ Writer.textField "package" head.package ++
      Writer.textField "externalUrl" head.externalUrl ++
      Writer.flagField "refersToTypeParameter" head.toTypeParameter ++
      Writer.flagField "preferValues" head.preferValues ++
      Writer.textField "qualifiedName" head.qualifiedName)
  have htarget : fields.value? "target" = some (c.writer.refTarget head.target) := by simp [fields]
  have hname : fields.text "name" = head.name := by simp [fields, Fields.text, Fields.text?]
  have hqualified : fields.text? "qualifiedName" = head.qualifiedName := by
    simp [fields, Fields.text?]
  have hpackage : fields.text? "package" = head.package := by simp [fields, Fields.text?]
  have hurl : fields.text? "externalUrl" = head.externalUrl := by simp [fields, Fields.text?]
  have hparameter : fields.flag "refersToTypeParameter" = head.toTypeParameter :=
    Fields.flag_of_flagField (by simp [fields])
  have hvalues : fields.flag "preferValues" = head.preferValues :=
    Fields.flag_of_flagField (by simp [fields])
  refine typed_node .reference fields ?_ rfl fun b depth hb hshallow => ?_
  · exact typeNode_written ((((((((Fields.keyed_nil.cons _ _).append
      (Fields.keyed_listField _ _)).append (Fields.keyed_nil.cons _ _)).append
      (Fields.keyed_textField _ _)).append (Fields.keyed_textField _ _)).append
      (Fields.keyed_flagField _ _)).append (Fields.keyed_flagField _ _)).append
      (Fields.keyed_textField _ _)) (by simp)
  simp only [Reader.typeBuilder, Reader.reference, htarget, hname, hqualified, hpackage, hurl,
    hparameter, hvalues, ite_bind]
  refine Copies.of_eq (Copies.imp
    (Copies.bind hb (Copies.of_takes (takes_refTarget hleg head.target))
      (Copies.bind (by omega) (copies_args hargs (by omega) hshallow (by simp [fields]))
        (Copies.pure _ trivial))) fun hstill => Ty.still_reference hstill.2.1 hstill.1)
    (Ty.eq_declarations rfl (by simp [Ty.children])) rfl

theorem typed_query {head : Ref} {args : Option (List Ty)}
    (h : c.Typed clean inside n r (.reference head args)) :
    c.Typed clean inside n r (.query head args) := by
  refine typed_node .query [("type", .str "query"),
    ("queryType", c.writer.type inside (.reference head args))] ?_ rfl fun b depth hb hshallow => ?_
  · exact typeNode_written (Fields.keyed_nil.cons _ _) (by simp)
  refine Copies.of_eq (Copies.imp (Copies.bind hb (copies_typeAt h hb hshallow (by simp))
    (Copies.pure _ trivial)) fun hstill => Ty.still_query hstill.1) ?_ rfl
  rw [List.append_nil]
  exact Ty.eq_declarations rfl (Ty.eq_declarations (t := .reference head args) rfl rfl)

theorem takes_summaries (hleg : c.Legible) {lists : Option (List (List Part))}
    (hkey : fields.value? "elementSummaries" = lists.map fun ls => .arr (ls.map c.writer.parts))
    (hlisted : ∀ ps ∈ lists.getD [], c.Listed clean ps) :
    Takes (c.site clean) (Reader.summaries fields) (lists.map c.summaries)
      (∀ ps ∈ (lists.map c.summaries).getD [], ∀ p ∈ ps, p.Still) := by
  rw [Reader.summaries, hkey]
  match lists with
  | none => exact .pure _ fun _ hps => (List.not_mem_nil hps).elim
  | some ls =>
    refine Takes.imp (Takes.bind (Takes.collect fun ps hps => Takes.imp
      (Takes.bind (takes_parts hleg ps (hlisted ps hps)) (.pure _ trivial)) And.left)
      (.pure _ trivial)) fun hstill => ?_
    exact List.forall_mem_map.mpr hstill.1

theorem typed_union (hleg : c.Legible) {ts : List Ty} {lists : Option (List (List Part))}
    (hts : ∀ t ∈ ts, c.Typed clean inside n r t)
    (hlisted : ∀ ps ∈ lists.getD [], c.Listed clean ps) :
    c.Typed clean inside n r (.union ts lists) := by
  refine typed_node .union ([("type", .str "union"),
    ("types", .arr (c.writer.typeList inside ts))] ++ Writer.valueField "elementSummaries"
      (lists.map fun ls => .arr (ls.map c.writer.parts))) ?_ rfl fun b depth hb hshallow => ?_
  · exact typeNode_written ((Fields.keyed_nil.cons _ _).append (Fields.keyed_valueField _ _))
      (by simp)
  refine Copies.of_eq (Copies.imp
    (Copies.bind hb (copies_typesAt hts hb hshallow (by simp [Fields.items]))
      (Copies.bind (by omega) (Copies.of_takes (takes_summaries hleg (by simp) hlisted))
        (Copies.pure _ trivial))) fun hstill => Ty.still_union hstill.1 hstill.2.1)
    (Ty.eq_declarations rfl (by simp [Ty.children])) rfl

theorem copies_tail {tail : List (Ty × String)}
    (htail : ∀ entry ∈ tail, c.Typed clean inside n r entry.1) (hb : n < b)
    (hdepth : ∀ j ∈ c.writer.typeTail inside tail, j.depth ≤ depth) :
    c.Copies clean n b (ReadM.collect (Reader.span (Deserializer.standard.constructors depth))
        (c.writer.typeTail inside tail)) r (c.tyTail b tail) r
      ((tail.map (·.1)).flatMap Ty.declarations) [] (∀ t ∈ (c.tyTail b tail).map (·.1), t.Still) := by
  induction tail generalizing b with
  | nil => exact .pure _ fun _ ht => (List.not_mem_nil ht).elim
  | cons entry rest ih =>
    obtain ⟨t, text⟩ := entry
    obtain ⟨inner, hw, hread⟩ := htail _ (List.mem_cons_self ..)
    have hd : (Json.obj inner).depth ≤ depth := by
      have hlt : (Json.obj inner).depth < (Json.arr [.obj inner, .str text]).depth :=
        Json.depth_lt_of_mem (List.mem_cons_self ..)
      rw [Writer.typeTail, hw] at hdepth
      exact Nat.le_trans (Nat.le_of_lt hlt) (hdepth _ (List.mem_cons_self ..))
    have hrest := ih (b := b + c.total t.declarations)
      (fun x hx => htail x (List.mem_cons_of_mem _ hx)) (by omega)
      fun j hj => hdepth j (List.mem_cons_of_mem _ hj)
    have hspan : c.Copies clean n b (Reader.span (Deserializer.standard.constructors depth)
        (.arr [.obj inner, .str text])) r (some (c.ty b t, text)) r t.declarations []
        (c.ty b t).Still :=
      Copies.of_eq (Copies.imp (Copies.bind hb (hread b depth hb hd) (Copies.pure _ trivial))
        And.left) (List.append_nil _) rfl
    rw [Writer.typeTail, hw]
    refine Copies.of_eq (Copies.imp (Copies.bind hb hspan
      (Copies.bind (by omega) hrest (.pure _ trivial))) fun hstill x hx => ?_) ?_ rfl
    · rcases List.mem_cons.mp hx with rfl | hx
      · exact hstill.1
      · exact hstill.2.1 x hx
    · rw [List.append_nil, List.map_cons, List.flatMap_cons]

theorem typed_templateLiteral {tail : List (Ty × String)} (head : String)
    (htail : ∀ entry ∈ tail, c.Typed clean inside n r entry.1) :
    c.Typed clean inside n r (.templateLiteral head tail) := by
  let fields : Fields := [("type", .str "templateLiteral"), ("head", .str head),
    ("tail", .arr (c.writer.typeTail inside tail))]
  have hitems : fields.items "tail" = c.writer.typeTail inside tail := by simp [fields, Fields.items]
  refine typed_node .templateLiteral fields ?_ rfl fun b depth hb hshallow => ?_
  · exact typeNode_written ((Fields.keyed_nil.cons _ _).cons _ _) (by simp)
  simp only [Reader.typeBuilder, hitems]
  refine Copies.of_eq (Copies.imp (Copies.bind hb
    (copies_tail htail hb (hitems ▸ hshallow.items)) (Copies.pure _ trivial)) fun hstill => ?_)
    (Ty.eq_declarations rfl (by simp [Ty.children])) rfl
  exact Ty.still_of_children rfl rfl hstill.1

end Inside

/-! ### All types -/

/-- A reflection that was written inside another one is read there: it is registered in the slot of
its role under the next number. -/
def Nested (c : Copying) (clean : Prop) (inside : ReflectionId → Option Json) (x : ReflectionId) :
    Prop :=
  ∃ fields, inside x = some (.obj fields) ∧ ∀ n b r v role depth, n < b →
    r.variant.attach? b role = some v → (Json.obj fields).depth ≤ depth →
    c.Copies clean n b ((Deserializer.standard.constructors depth).reflection fields role) r (some b)
      (r.holding v) [x] [] True

theorem typed_reflection {d : ReflectionId} (hd : c.Nested clean inside d)
    (hr : ∀ i, r.variant.attach? i .typeLiteral = some r.variant) :
    c.Typed clean inside n r (.reflection d) := by
  obtain ⟨inner, hw, hread⟩ := hd
  have hvalue : Fields.value? (("type", .str "reflection") ::
      Writer.valueField "declaration" (inside d)) "declaration" = some (.obj inner) := by
    rw [hw]
    simp
  refine typed_node .reflection (("type", .str "reflection") ::
    Writer.valueField "declaration" (inside d)) ?_ rfl fun b depth hb hshallow => ?_
  · exact typeNode_written (Fields.keyed_valueField _ _) (by simp)
  simp only [Reader.typeBuilder, Fields.object?, hvalue]
  exact Copies.of_eq (Copies.imp (Copies.bind hb
    (hread n b r r.variant .typeLiteral depth hb (hr b) (hshallow _ _ hvalue)) (Copies.pure _ trivial))
    fun _ => Ty.still_of_children rfl rfl fun a ha => by cases ha) rfl rfl

/-- Every type is read back, when the declarations that it owns are. -/
theorem typed (hleg : c.Legible) (t : Ty)
    (hin : ∀ d ∈ t.declarations, c.Typed clean inside n r (.reflection d))
    (hlisted : c.Listed clean t.parts) : c.Typed clean inside n r t := by
  induction t using Ty.induct with
  | h t ih =>
    have hchild : ∀ a ∈ t.children, c.Typed clean inside n r a := fun a ha =>
      ih a ha
        (fun d hd => hin d (Ty.mem_declarations_of_mem_children ha hd))
        (hlisted.mono fun p hp => by
          rw [Ty.parts_eq]
          exact List.mem_append_right _ (List.mem_flatMap.mpr ⟨a, ha, hp⟩))
    cases t with
    | array a => exact typed_array (hchild a (by simp [Ty.children]))
    | conditional x y z w =>
      exact typed_conditional (hchild x (by simp [Ty.children])) (hchild y (by simp [Ty.children]))
        (hchild z (by simp [Ty.children])) (hchild w (by simp [Ty.children]))
    | indexedAccess x y =>
      exact typed_indexedAccess (hchild x (by simp [Ty.children])) (hchild y (by simp [Ty.children]))
    | inferred name o => exact typed_inferred name fun a ha => hchild a (Option.mem_toList.mpr ha)
    | intersection ts => exact typed_intersection hchild
    | intrinsic name => exact typed_intrinsic name
    | literal value => exact typed_literal value
    | mapped parameter x y fixed missing o =>
      exact typed_mapped parameter fixed missing (hchild x (by simp [Ty.children]))
        (hchild y (by simp [Ty.children])) fun a ha => hchild a <|
          List.mem_cons_of_mem _ (List.mem_cons_of_mem _ (Option.mem_toList.mpr ha))
    | namedTupleMember name isOptional a =>
      exact typed_namedTupleMember name isOptional (hchild a (by simp [Ty.children]))
    | optional a => exact typed_optional (hchild a (by simp [Ty.children]))
    | predicate name asserts o =>
      exact typed_predicate name asserts fun a ha => hchild a (Option.mem_toList.mpr ha)
    | query head args => exact typed_query (typed_reference hleg hchild)
    | reference head args => exact typed_reference hleg hchild
    | reflection d => exact hin d (List.mem_singleton_self d)
    | rest a => exact typed_rest (hchild a (by simp [Ty.children]))
    | templateLiteral head tail =>
      exact typed_templateLiteral head fun entry hentry => hchild _ (List.mem_map_of_mem hentry)
    | tuple ts => exact typed_tuple hchild
    | operator op a => exact typed_operator op (hchild a (by simp [Ty.children]))
    | union ts lists =>
      refine typed_union hleg hchild fun ps hps => hlisted.mono fun p hp => ?_
      rw [Ty.parts_eq]
      exact List.mem_append_left _ (List.mem_flatten.mpr ⟨ps, hps, hp⟩)
    | unknown name => exact typed_unknown name

end Copying

end DocTree
