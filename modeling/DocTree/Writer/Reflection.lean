import DocTree.Json.Printer
import DocTree.Writer.Type

/-!
The standard form of reflections and projects. A reflection is written with its children inside it;
children that are no longer registered are left out. Writing looks up references and symbols, and the
outcome is kept in the project: `settle` does that for every reflection that is written, as far as the
components of the serializer write it.
-/

namespace DocTree.Writer

/-- The version of the serialized form. -/
def schemaVersion : String := "2.0"

/-! ### Reflections -/

/-- The fields that every reflection has. A comment that says nothing is left out. -/
def sharedFields (w : Writer) (r : Reflection) : Fields :=
  [("id", .ofNat r.id), ("name", .str r.name), ("variant", .str r.tag.name), ("kind", r.kind.toJson),
   ("flags", .obj r.flags.toFields)] ++
    valueField "comment" ((r.comment.filter fun c => !c.isEmpty).map w.comment)

/-- The children that `inside` writes. -/
def reflections (inside : ReflectionId → Option Json) (ids : List ReflectionId) : List Json :=
  ids.filterMap inside

/-- Children, documents and how they are grouped. -/
def containerFields (w : Writer) (inside : ReflectionId → Option Json) (c : Container) : Fields :=
  listField "children" (reflections inside c.children) ++
    listField "documents" (reflections inside c.documents) ++
    listField "groups" ((c.groups.getD []).map w.group) ++
    listField "categories" ((c.categories.getD []).map w.category)

/-- The symbols of all reflections, by number. -/
def symbolMap (w : Writer) : Json :=
  .obj (w.project.symbolMap.map fun (id, s) => (id.text, w.symbol s))

/-- The fields of one variant. -/
def variantFields (w : Writer) (inside : ReflectionId → Option Json) (r : Reflection) : Fields :=
  let typeField (key : String) (t : Option Ty) := valueField key (w.typeOption inside t)
  let typesField (key : String) (ts : List Ty) := listField key (w.typeList inside ts)
  let childrenField (key : String) (ids : List ReflectionId) := listField key (reflections inside ids)
  match r.variant with
  | .project d =>
    [("schemaVersion", .str schemaVersion)] ++ textField "packageName" d.packageName ++
      textField "packageVersion" d.packageVersion ++ valueField "readme" (d.readme.map w.parts) ++
      [("symbolIdMap", w.symbolMap), ("files", w.files w.project.files)]
  | .declaration d =>
    textField "packageVersion" d.packageVersion ++ listField "sources" (d.sources.map w.source) ++
      childrenField "typeParameters" d.typeParameters ++ typeField "type" d.type ++
      childrenField "signatures" d.signatures ++ childrenField "indexSignatures" d.indexSignatures ++
      valueField "getSignature" (d.getSignature.bind inside) ++
      valueField "setSignature" (d.setSignature.bind inside) ++
      textField "defaultValue" d.defaultValue ++ typeField "overwrites" d.overwrites ++
      typeField "inheritedFrom" d.inheritedFrom ++ typeField "implementationOf" d.implementationOf ++
      typesField "extendedTypes" d.extendedTypes ++ typesField "extendedBy" d.extendedBy ++
      typesField "implementedTypes" d.implementedTypes ++ typesField "implementedBy" d.implementedBy ++
      valueField "readme" (d.readme.map w.parts)
  | .signature d =>
    listField "sources" (d.sources.map w.source) ++ childrenField "typeParameters" d.typeParameters ++
      childrenField "parameters" d.parameters ++ typeField "type" d.type ++
      typeField "overwrites" d.overwrites ++ typeField "inheritedFrom" d.inheritedFrom ++
      typeField "implementationOf" d.implementationOf
  | .param d => typeField "type" d.type ++ textField "defaultValue" d.defaultValue
  | .typeParam d =>
    typeField "type" d.type ++ typeField "default" d.default ++
      textField "varianceModifier" (d.variance.map (·.word))
  | .reference _ =>
    [("target", (w.project.targetOf? r.id).elim (.ofInt ReflectionId.absent) .ofNat)]
  | .document d =>
    [("content", w.parts d.content)] ++
      if d.frontmatter.isEmpty then [] else [("frontmatter", .obj d.frontmatter)]

/-- The fields of one part of the standard form of a reflection. -/
def ownFields (w : Writer) (inside : ReflectionId → Option Json) (r : Reflection) :
    ReflectionPart → Fields
  | .shared => w.sharedFields r
  | .container => (r.container?.map (w.containerFields inside)).getD []
  | .variant tag => if r.tag = tag then w.variantFields inside r else []

/-- A reflection and all that stands inside it, at most so many levels deep. -/
def reflectionWithin (w : Writer) : Nat → ReflectionId → Option Json
  | 0, _ => none
  | levels + 1, id =>
    (w.project.get? id).map fun r =>
      Component.compose (w.serializer.components .reflection) w.context
        (w.ownFields (w.reflectionWithin levels) r) r

/-- How deep reflections can stand inside one another. -/
def levels (p : Project) : Nat := p.arena.size + 1

/-- A reflection with all that stands inside it. -/
def reflection (w : Writer) (id : ReflectionId) : Option Json :=
  w.reflectionWithin (levels w.project) id

/-- A type with the declarations that it owns. -/
def ownedType (w : Writer) (t : Ty) : Json := w.type w.reflection t

/-! ### Keeping what was looked up -/

/-- A serializer writes the types of the reflections of a variant: what belongs to the variant, and
types. -/
def typesWritten (s : Serializer) (tag : VariantTag) : Bool :=
  s.writes .reflection (.variant tag) && s.writes .type ()

/-- A serializer writes what stands in a slot of the reflections of a variant. Declarations that types
own are written inside these. -/
def slotWritten (s : Serializer) (tag : VariantTag) : Role → Bool
  | .children | .documents => s.writes .reflection .container
  | .typeLiteral => typesWritten s tag
  | _ => s.writes .reflection (.variant tag)

/-- A reflection and the registered reflections that a serializer writes inside it, at most so many
levels deep. -/
def reachedWithin (s : Serializer) (p : Project) : Nat → ReflectionId → List ReflectionId
  | 0, _ => []
  | levels + 1, id =>
    match p.get? id with
    | none => []
    | some r =>
      id :: (r.structuralChildren.filter fun (_, role) => slotWritten s r.tag role).flatMap
        fun (child, _) => reachedWithin s p levels child

/-- A type as it is after it was written. Queries are written from a copy, so they stay. -/
def settledType (p : Project) (t : Ty) : Ty :=
  t.adjust { Ty.Change.none with ref := p.settleRef, inQueries := false }

/-- A reflection with its types as they are after it was written. -/
def settledReflection (s : Serializer) (p : Project) (r : Reflection) : Reflection :=
  if typesWritten s r.tag then r.mapTypes (settledType p) else r

/-- A reflection was written: where it leads, if it is a reference, and its types were looked up, as far
as the serializer writes them. -/
def settleOne (s : Serializer) (p : Project) (id : ReflectionId) : Project :=
  let looked := if s.writes .reflection (.variant .reference) then p.settle id else p
  looked.update id (settledReflection s p)

/-- The project after reflections were written with everything inside them. -/
def settle (s : Serializer) (p : Project) (ids : List ReflectionId) : Project :=
  (ids.flatMap (reachedWithin s p (levels p))).foldl (settleOne s) p

end DocTree.Writer

namespace DocTree.Serializer

/-! ### Projects -/

/-- A project that was written. -/
structure Written where
  output : Fields
  /-- What the listeners noted. -/
  journal : List Json
  /-- The project with all that was looked up. -/
  project : Project

/-- Write a project. -/
def writeProject (s : Serializer) (p : Project) (root : String) : Written :=
  let context : WriteContext := ⟨p, root⟩
  let begun := s.begin context
  let output := (Writer.reflection ⟨s, context⟩ ReflectionId.project).bind Json.asObject?
  let settled := Writer.settle s p [ReflectionId.project]
  let (output, ended) := s.finish ⟨settled, root⟩ (output.getD [])
  ⟨output, begun ++ ended, settled⟩

/-- The text of a project that was written. -/
def Written.text (w : Written) (pretty : Bool) : String := (Json.obj w.output).render pretty

end DocTree.Serializer
