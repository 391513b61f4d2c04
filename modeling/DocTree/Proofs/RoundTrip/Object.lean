import DocTree.Proofs.RoundTrip.Type

/-!
The object of a reflection that was written: the fields that every reflection has, those of a
container and those of the variant, one after the other. No key stands in two of the three.
-/

namespace DocTree.Copying

variable (c : Copying) (inside : ReflectionId → Option Json)

/-! ### The fields of each variant -/

def typeField (key : String) (t : Option Ty) : Fields :=
  Writer.valueField key (c.writer.typeOption inside t)

def typesField (key : String) (ts : List Ty) : Fields :=
  Writer.listField key (c.writer.typeList inside ts)

def childrenField (key : String) (ids : List ReflectionId) : Fields :=
  Writer.listField key (Writer.reflections inside ids)

def projectFields (d : ProjectData) : Fields :=
  [("schemaVersion", .str Writer.schemaVersion)] ++ Writer.textField "packageName" d.packageName ++
    Writer.textField "packageVersion" d.packageVersion ++
    Writer.valueField "readme" (d.readme.map c.writer.parts) ++
    [("symbolIdMap", c.writer.symbolMap), ("files", c.writer.files c.project.files)]

def declarationFields (d : Declaration) : Fields :=
  Writer.textField "packageVersion" d.packageVersion ++
    Writer.listField "sources" (d.sources.map c.writer.source) ++
    childrenField inside "typeParameters" d.typeParameters ++ c.typeField inside "type" d.type ++
    childrenField inside "signatures" d.signatures ++
    childrenField inside "indexSignatures" d.indexSignatures ++
    Writer.valueField "getSignature" (d.getSignature.bind inside) ++
    Writer.valueField "setSignature" (d.setSignature.bind inside) ++
    Writer.textField "defaultValue" d.defaultValue ++ c.typeField inside "overwrites" d.overwrites ++
    c.typeField inside "inheritedFrom" d.inheritedFrom ++
    c.typeField inside "implementationOf" d.implementationOf ++
    c.typesField inside "extendedTypes" d.extendedTypes ++
    c.typesField inside "extendedBy" d.extendedBy ++
    c.typesField inside "implementedTypes" d.implementedTypes ++
    c.typesField inside "implementedBy" d.implementedBy ++
    Writer.valueField "readme" (d.readme.map c.writer.parts)

def signatureFields (d : Signature) : Fields :=
  Writer.listField "sources" (d.sources.map c.writer.source) ++
    childrenField inside "typeParameters" d.typeParameters ++
    childrenField inside "parameters" d.parameters ++ c.typeField inside "type" d.type ++
    c.typeField inside "overwrites" d.overwrites ++
    c.typeField inside "inheritedFrom" d.inheritedFrom ++
    c.typeField inside "implementationOf" d.implementationOf

def typeParameterFields (d : TypeParameter) : Fields :=
  c.typeField inside "type" d.type ++ c.typeField inside "default" d.default ++
    Writer.textField "varianceModifier" (d.variance.map (·.word))

def documentFields (d : Document) : Fields :=
  [("content", c.writer.parts d.content)] ++
    if d.frontmatter.isEmpty then [] else [("frontmatter", .obj d.frontmatter)]

def variantFields (r : Reflection) : Fields :=
  match r.variant with
  | .project d => c.projectFields d
  | .declaration d => c.declarationFields inside d
  | .signature d => c.signatureFields inside d
  | .param d => c.typeField inside "type" d.type ++ Writer.textField "defaultValue" d.defaultValue
  | .typeParam d => c.typeParameterFields inside d
  | .reference _ =>
    [("target", (c.project.targetOf? r.id).elim (.ofInt ReflectionId.absent) .ofNat)]
  | .document d => c.documentFields d

/-- The fields of a reflection; `inside` writes the reflections inside it. -/
def objectFields (r : Reflection) : Fields :=
  c.writer.sharedFields r ++ (r.container?.map (c.writer.containerFields inside)).getD [] ++
    c.variantFields inside r

/-! ### Their keys -/

def sharedKeys : List String := ["id", "name", "variant", "kind", "flags", "comment"]

def containerKeys : List String := ["children", "documents", "groups", "categories"]

def variantKeys : VariantTag → List String
  | .project =>
    ["schemaVersion"] ++ ["packageName"] ++ ["packageVersion"] ++ ["readme"] ++
      ["symbolIdMap", "files"]
  | .declaration =>
    ["packageVersion"] ++ ["sources"] ++ ["typeParameters"] ++ ["type"] ++ ["signatures"] ++
      ["indexSignatures"] ++ ["getSignature"] ++ ["setSignature"] ++ ["defaultValue"] ++
      ["overwrites"] ++ ["inheritedFrom"] ++ ["implementationOf"] ++ ["extendedTypes"] ++
      ["extendedBy"] ++ ["implementedTypes"] ++ ["implementedBy"] ++ ["readme"]
  | .signature =>
    ["sources"] ++ ["typeParameters"] ++ ["parameters"] ++ ["type"] ++ ["overwrites"] ++
      ["inheritedFrom"] ++ ["implementationOf"]
  | .param => ["type"] ++ ["defaultValue"]
  | .typeParam => ["type"] ++ ["default"] ++ ["varianceModifier"]
  | .reference => ["target"]
  | .document => ["content"] ++ ["frontmatter"]

theorem keyed_shared (r : Reflection) : Fields.Keyed sharedKeys (c.writer.sharedFields r) :=
  (((((Fields.keyed_nil.cons _ _).cons _ _).cons _ _).cons _ _).cons _ _).append
    (Fields.keyed_valueField _ _)

theorem keyed_container (r : Reflection) :
    Fields.Keyed containerKeys ((r.container?.map (c.writer.containerFields inside)).getD []) := by
  cases r.container? with
  | none => exact List.nil_sublist _
  | some k =>
    exact (((Fields.keyed_listField _ _).append (Fields.keyed_listField _ _)).append
      (Fields.keyed_listField _ _)).append (Fields.keyed_listField _ _)

theorem keyed_declaration (d : Declaration) :
    Fields.Keyed (variantKeys .declaration) (c.declarationFields inside d) := by
  rw [declarationFields, variantKeys]
  refine (((((((((((((((Fields.Keyed.append ?_ ?_).append ?_).append ?_).append ?_).append
    ?_).append ?_).append ?_).append ?_).append ?_).append ?_).append ?_).append ?_).append
    ?_).append ?_).append ?_).append ?_
  all_goals first
    | exact Fields.keyed_textField _ _
    | exact Fields.keyed_listField _ _
    | exact Fields.keyed_valueField _ _

theorem keyed_signature (d : Signature) :
    Fields.Keyed (variantKeys .signature) (c.signatureFields inside d) := by
  rw [signatureFields, variantKeys]
  refine ((((((Fields.Keyed.append ?_ ?_).append ?_).append ?_).append ?_).append ?_).append ?_)
  all_goals first
    | exact Fields.keyed_listField _ _
    | exact Fields.keyed_valueField _ _

theorem keyed_variant (r : Reflection) :
    Fields.Keyed (variantKeys r.tag) (c.variantFields inside r) := by
  rw [variantFields, Reflection.tag]
  cases r.variant with
  | project d =>
    exact ((((Fields.keyed_nil.cons _ _).append (Fields.keyed_textField _ _)).append
      (Fields.keyed_textField _ _)).append (Fields.keyed_valueField _ _)).append
      ((Fields.keyed_nil.cons _ _).cons _ _)
  | declaration d => exact c.keyed_declaration inside d
  | signature d => exact c.keyed_signature inside d
  | param d => exact (Fields.keyed_valueField _ _).append (Fields.keyed_textField _ _)
  | typeParam d =>
    exact ((Fields.keyed_valueField _ _).append (Fields.keyed_valueField _ _)).append
      (Fields.keyed_textField _ _)
  | reference t => exact Fields.keyed_nil.cons _ _
  | document d =>
    refine (Fields.keyed_nil.cons _ _).append ?_
    by_cases h : d.frontmatter.isEmpty = true
    · rw [if_pos h]
      exact List.nil_sublist _
    · rw [if_neg h]
      exact Fields.keyed_nil.cons _ _

theorem nodup_keys (tag : VariantTag) :
    (sharedKeys ++ containerKeys ++ variantKeys tag).Nodup := by
  cases tag <;> decide

theorem object_written (r : Reflection) :
    Component.compose (c.writer.serializer.components .reflection) c.writer.context
      (c.writer.ownFields inside r) r = .obj (c.objectFields inside r) := by
  have hvariant : c.writer.ownFields inside r (.variant r.tag) = c.variantFields inside r := by
    rw [Writer.ownFields, if_pos rfl, Writer.variantFields, variantFields]
    cases r.variant <;> rfl
  have hothers : ∀ other, other ≠ r.tag → c.writer.ownFields inside r (.variant other) = [] :=
    fun other hne => if_neg (Ne.symm hne)
  rw [objectFields, ← hvariant]
  refine Component.compose_reflectionParts hothers ?_ (nodup_keys r.tag)
  rw [hvariant]
  exact ((c.keyed_shared r).append (c.keyed_container inside r)).append (c.keyed_variant inside r)

/-! ### What stands under a key -/

variable {c inside}

theorem value?_eq_none {fields : Fields} {keys : List String} {key : String}
    (h : Fields.Keyed keys fields) (hkey : key ∉ keys) : fields.value? key = none := by
  refine List.lookup_eq_none_iff.mpr fun entry hentry => bne_iff_ne.mpr fun heq => ?_
  have hmem : entry.1 ∈ keys := h.subset (List.mem_map_of_mem hentry)
  exact hkey (heq ▸ hmem)

/-- What stands under a key of the variant. -/
theorem value?_variant {r : Reflection} {key : String} (tag : VariantTag)
    (h : key ∈ variantKeys tag) :
    (c.objectFields inside r).value? key = (c.variantFields inside r).value? key := by
  have hkey : key ∉ sharedKeys ++ containerKeys := fun hmem =>
    (List.nodup_append.mp (nodup_keys tag)).2.2 key hmem key h rfl
  have hfront := value?_eq_none ((c.keyed_shared r).append (c.keyed_container inside r)) hkey
  rw [objectFields, Fields.value?_append, hfront, Option.none_or]

/-- A list as a value that is left out when it has no items. -/
def arr? (items : List Json) : Option Json := if items = [] then none else some (.arr items)

/-- What stands under the keys of a declaration. -/
structure HoldsDeclaration (c : Copying) (inside : ReflectionId → Option Json) (d : Declaration)
    (fields : Fields) : Prop where
  sources : fields.value? "sources" = arr? (d.sources.map c.writer.source)
  typeParameters : fields.value? "typeParameters" = arr? (Writer.reflections inside d.typeParameters)
  type : fields.value? "type" = c.writer.typeOption inside d.type
  signatures : fields.value? "signatures" = arr? (Writer.reflections inside d.signatures)
  indexSignatures : fields.value? "indexSignatures" =
    arr? (Writer.reflections inside d.indexSignatures)
  getSignature : fields.value? "getSignature" = d.getSignature.bind inside
  setSignature : fields.value? "setSignature" = d.setSignature.bind inside
  overwrites : fields.value? "overwrites" = c.writer.typeOption inside d.overwrites
  inheritedFrom : fields.value? "inheritedFrom" = c.writer.typeOption inside d.inheritedFrom
  implementationOf : fields.value? "implementationOf" =
    c.writer.typeOption inside d.implementationOf
  extendedTypes : fields.value? "extendedTypes" = arr? (c.writer.typeList inside d.extendedTypes)
  extendedBy : fields.value? "extendedBy" = arr? (c.writer.typeList inside d.extendedBy)
  implementedTypes : fields.value? "implementedTypes" =
    arr? (c.writer.typeList inside d.implementedTypes)
  implementedBy : fields.value? "implementedBy" = arr? (c.writer.typeList inside d.implementedBy)
  readme : fields.value? "readme" = d.readme.map c.writer.parts
  defaultValue : fields.value? "defaultValue" = d.defaultValue.map .str
  packageVersion : fields.value? "packageVersion" = d.packageVersion.map .str

theorem holdsDeclaration {r : Reflection} {d : Declaration} (hv : r.variant = .declaration d) :
    c.HoldsDeclaration inside d (c.objectFields inside r) := by
  have hvalue : ∀ {key}, key ∈ variantKeys .declaration → (c.objectFields inside r).value? key =
      (c.declarationFields inside d).value? key := fun hkey => by
    rw [value?_variant .declaration hkey, variantFields, hv]
  constructor <;>
    refine (hvalue (by decide)).trans ?_ <;>
    simp [declarationFields, typeField, typesField, childrenField, arr?]

/-- What stands under the keys of a signature. -/
structure HoldsSignature (c : Copying) (inside : ReflectionId → Option Json) (d : Signature)
    (fields : Fields) : Prop where
  sources : fields.value? "sources" = arr? (d.sources.map c.writer.source)
  typeParameters : fields.value? "typeParameters" = arr? (Writer.reflections inside d.typeParameters)
  parameters : fields.value? "parameters" = arr? (Writer.reflections inside d.parameters)
  type : fields.value? "type" = c.writer.typeOption inside d.type
  overwrites : fields.value? "overwrites" = c.writer.typeOption inside d.overwrites
  inheritedFrom : fields.value? "inheritedFrom" = c.writer.typeOption inside d.inheritedFrom
  implementationOf : fields.value? "implementationOf" =
    c.writer.typeOption inside d.implementationOf

theorem holdsSignature {r : Reflection} {d : Signature} (hv : r.variant = .signature d) :
    c.HoldsSignature inside d (c.objectFields inside r) := by
  have hvalue : ∀ {key}, key ∈ variantKeys .signature → (c.objectFields inside r).value? key =
      (c.signatureFields inside d).value? key := fun hkey => by
    rw [value?_variant .signature hkey, variantFields, hv]
  constructor <;>
    refine (hvalue (by decide)).trans ?_ <;>
    simp [signatureFields, typeField, childrenField, arr?]

/-- What stands under a key of the container. -/
theorem value?_container {r : Reflection} {k : Container} {key : String} (hr : r.container? = some k)
    (h : key ∈ containerKeys) :
    (c.objectFields inside r).value? key = (c.writer.containerFields inside k).value? key := by
  obtain ⟨hfront, -, hvariant⟩ := List.nodup_append.mp (nodup_keys r.tag)
  have hshared := value?_eq_none (c.keyed_shared r) fun hmem =>
    (List.nodup_append.mp hfront).2.2 key hmem key h rfl
  have hback := value?_eq_none (c.keyed_variant inside r) fun hmem =>
    hvariant key (List.mem_append_right _ h) key hmem rfl
  rw [objectFields, Fields.value?_append, Fields.value?_append, hshared, hback, Option.none_or,
    Option.or_none, hr]
  rfl

/-- What stands under a key that every reflection has. -/
theorem value?_shared {r : Reflection} {key : String} (h : key ∈ sharedKeys) :
    (c.objectFields inside r).value? key = (c.writer.sharedFields r).value? key := by
  have hnodup := nodup_keys r.tag
  rw [List.append_assoc] at hnodup
  have hback := value?_eq_none ((c.keyed_container inside r).append (c.keyed_variant inside r))
    fun hmem => (List.nodup_append.mp hnodup).2.2 key h key hmem rfl
  rw [objectFields, List.append_assoc, Fields.value?_append, hback, Option.or_none]

end DocTree.Copying
