import DocTree.Reader.Type

/-!
Making reflections. A bare reflection is registered in a slot of the active one, then its fields are
read while it is the active one itself. The recursion into a serialized tree is in one place:
`constructors` hands every object the constructors for the objects inside it.
-/

namespace DocTree

namespace Reader

/-! ### Fields -/

/-- A change of what a reflection says. -/
def edit (id : ReflectionId) (f : Reflection → Reflection) : ReadM Unit :=
  ReadM.changeProject (·.edit id f)

/-- The main type. The declarations in it were registered under the reflection on the way. -/
def mainType (c : Constructors) (id : ReflectionId) (fields : Fields) : ReadM Unit := do
  match ← c.typeAt fields "type" with
  | none => return
  | some t => ReadM.tryProject fun p => return (← p.setOwnType id t, ())

/-- Flags and comment, where they are. -/
def shared (id : ReflectionId) (fields : Fields) : ReadM Unit := do
  let flags := (fields.object? "flags").map Flags.ofFields
  let comment ← match fields.object? "comment" with
    | none => pure none
    | some inner => some <$> comment inner
  edit id fun r => { r with flags := flags.getD r.flags, comment := comment.or r.comment }

/-- Children and documents; how they are grouped is put off, since groups name old numbers. -/
def container (c : Constructors) (id : ReflectionId) (fields : Fields) : ReadM Unit := do
  c.childrenAt fields "children" .children
  c.childrenAt fields "documents" .documents
  let groups ← groups? fields
  let categories ← categories? fields
  if groups.isSome || categories.isSome then ReadM.defer (.groupings id groups categories)

def projectData (id : ReflectionId) (fields : Fields) : ReadM Unit := do
  let readme ← parts? fields "readme"
  edit id fun r => { r with
    variant := match r.variant with
      | .project d => .project { d with
          packageName := fields.text? "packageName"
          packageVersion := fields.text? "packageVersion"
          readme := readme }
      | variant => variant }

def declaration (c : Constructors) (id : ReflectionId) (fields : Fields) : ReadM Unit := do
  let sources ← sources fields
  c.childrenAt fields "typeParameters" .typeParameter
  mainType c id fields
  c.childrenAt fields "signatures" .signatures
  c.childrenAt fields "indexSignatures" .indexSignature
  c.childAt fields "getSignature" .getSignature
  c.childAt fields "setSignature" .setSignature
  let overwrites ← c.typeAt fields "overwrites"
  let inheritedFrom ← c.typeAt fields "inheritedFrom"
  let implementationOf ← c.typeAt fields "implementationOf"
  let extendedTypes ← c.typesAt fields "extendedTypes"
  let extendedBy ← c.typesAt fields "extendedBy"
  let implementedTypes ← c.typesAt fields "implementedTypes"
  let implementedBy ← c.typesAt fields "implementedBy"
  let readme ← parts? fields "readme"
  edit id fun r => { r with
    variant := match r.variant with
      | .declaration d => .declaration { d with
          sources := sources
          defaultValue := fields.text? "defaultValue"
          overwrites := overwrites
          inheritedFrom := inheritedFrom
          implementationOf := implementationOf
          extendedTypes := extendedTypes
          extendedBy := extendedBy
          implementedTypes := implementedTypes
          implementedBy := implementedBy
          packageVersion := fields.text? "packageVersion"
          readme := readme }
      | variant => variant }

def signature (c : Constructors) (id : ReflectionId) (fields : Fields) : ReadM Unit := do
  let sources ← sources fields
  c.childrenAt fields "typeParameters" .typeParameter
  c.childrenAt fields "parameters" .parameters
  mainType c id fields
  let overwrites ← c.typeAt fields "overwrites"
  let inheritedFrom ← c.typeAt fields "inheritedFrom"
  let implementationOf ← c.typeAt fields "implementationOf"
  edit id fun r => { r with
    variant := match r.variant with
      | .signature d => .signature { d with
          sources := sources
          overwrites := overwrites
          inheritedFrom := inheritedFrom
          implementationOf := implementationOf }
      | variant => variant }

def parameter (c : Constructors) (id : ReflectionId) (fields : Fields) : ReadM Unit := do
  mainType c id fields
  edit id fun r => { r with
    variant := match r.variant with
      | .param d => .param { d with defaultValue := fields.text? "defaultValue" }
      | variant => variant }

def typeParameter (c : Constructors) (id : ReflectionId) (fields : Fields) : ReadM Unit := do
  mainType c id fields
  let default ← c.typeAt fields "default"
  edit id fun r => { r with
    variant := match r.variant with
      | .typeParam d => .typeParam { d with
          default := default
          variance := (fields.text? "varianceModifier").bind Variance.ofWord? }
      | variant => variant }

/-- The target is put off; a negative number was broken already. -/
def referenceTarget (id : ReflectionId) (fields : Fields) : ReadM Unit :=
  match fields.word? "target" with
  | some old => ReadM.defer (.target id old)
  | none => return

def document (id : ReflectionId) (fields : Fields) : ReadM Unit := do
  let content ← parts (fields.value? "content")
  edit id fun r => { r with
    variant := match r.variant with
      | .document _ => .document ⟨content, (fields.object? "frontmatter").getD []⟩
      | variant => variant }

/-- The fields of one variant. -/
def variantFields (c : Constructors) (id : ReflectionId) (fields : Fields) : VariantTag → ReadM Unit
  | .project => do
    container c id fields
    projectData id fields
  | .declaration => do
    container c id fields
    declaration c id fields
  | .signature => signature c id fields
  | .param => parameter c id fields
  | .typeParam => typeParameter c id fields
  | .reference => referenceTarget id fields
  | .document => document id fields

/-- All standard fields of a registered reflection. When a target was stored by its old number on the
way, here or further in, it is to be resolved. -/
def standardFields (c : Constructors) (id : ReflectionId) (fields : Fields) : ReadM Unit := do
  let before ← ReadM.revival
  match before.project.get? id with
  | none => return
  | some r =>
    shared id fields
    variantFields c id fields r.tag
    if (← ReadM.revival).pendingCount ≠ before.pendingCount then ReadM.defer (.pendingTargets id)

/-! ### Builders -/

/-- The serialized kind; without one a reflection has none. -/
def kindOf (fields : Fields) : Kind := ((fields.value? "kind").bind Kind.ofJson?).getD .none

/-- The standard builder of a variant. Projects cannot be nested. A reference gets its target later. -/
def reflectionBuilder : VariantTag → Option ReflectionBuilder
  | .project => none
  | .declaration => some fun fields => .declaration (fields.text "name") (kindOf fields)
  | .signature => some fun fields => .signature (fields.text "name") (kindOf fields)
  | .param => some fun fields => { Reflection.parameter (fields.text "name") with kind := kindOf fields }
  | .typeParam => some fun fields =>
    { Reflection.typeParameter (fields.text "name") with kind := kindOf fields }
  | .reference => some fun fields =>
    { Reflection.reference (fields.text "name") .broken with kind := kindOf fields }
  | .document => some fun fields => .document (fields.text "name") []

end Reader

namespace Deserializer

/-- The deserializer of the standard format. -/
def standard : Deserializer := ⟨.empty, Reader.reflectionBuilder, Reader.typeBuilder⟩

/-! ### Construction -/

/-- The fields of a reflection: the standard ones, then those of the supplements. -/
def readReflection (d : Deserializer) (c : Constructors) (id : ReflectionId) (fields : Fields) :
    ReadM Unit := do
  ReadM.change fun r => { r with active := id :: r.active }
  Reader.standardFields c id fields
  ReadM.each (fun s : Supplement => do
    if s.supportsReflection id fields then s.readReflection id fields) d.supplements.items
  ReadM.change fun r => { r with active := r.active.tail }

/-- A reflection, registered in a slot of the active one and read. -/
def constructReflection (d : Deserializer) (c : Constructors) (fields : Fields) (role : Role) :
    ReadM (Option ReflectionId) := do
  let variant := fields.text "variant"
  match VariantTag.ofName? variant with
  | none =>
    ReadM.report (.unknownVariant variant)
    return none
  | some tag =>
    match d.reflectionBuilder tag with
    | none =>
      ReadM.report (.misplacedVariant variant)
      return none
    | some build =>
      let parent := (← ReadM.revival).activeReflection
      let id ← ReadM.tryProject fun p => p.add parent role (build fields)
      match fields.word? "id" with
      | some old => ReadM.change (·.record old id)
      | none => pure ()
      d.readReflection c id fields
      return some id

/-- A type as the supplements leave it, each asked in turn. -/
def supplementType (fields : Fields) : List Supplement → Ty → ReadM Ty
  | [], t => return t
  | s :: rest, t => do
    let t ← if s.supportsType t fields then s.readType t fields else pure t
    supplementType fields rest t

/-- A type, made and supplemented. -/
def constructType (d : Deserializer) (c : Constructors) (fields : Fields) : ReadM (Option Ty) := do
  let tag := fields.text "type"
  match TypeKind.ofTag? tag with
  | none =>
    ReadM.report (.unknownTypeKind tag)
    return none
  | some kind =>
    match ← d.typeBuilder kind c fields with
    | none => return none
    | some t => return some (← supplementType fields d.supplements.items t)

/-- The constructors for objects that lie at most so deep. -/
def constructors (d : Deserializer) : Nat → Constructors
  | 0 => .none
  | depth + 1 =>
    let inner := d.constructors depth
    ⟨d.constructType inner, d.constructReflection inner⟩

end Deserializer

end DocTree
