import DocTree.Ranked
import DocTree.Reader.Text

/-!
What a deserializer is made of. Builders make the bare reflection of a variant and the type of a kind
from the fields that are needed to make them, and can be replaced. Supplements read further fields
once the standard ones have been read, in order of rank. A builder that needs what stands inside its
object is given the constructors for one level further in.
-/

namespace DocTree

/-- Makes what stands inside an object. -/
structure Constructors where
  /-- A type; nothing if it cannot be made. -/
  type : Fields → ReadM (Option Ty)
  /-- A reflection, registered in a slot of the active one. -/
  reflection : Fields → Role → ReadM (Option ReflectionId)

namespace Constructors

/-- Makes nothing. -/
def none : Constructors := ⟨fun _ => return .none, fun _ _ => return .none⟩

/-- The type under a key. -/
def typeAt (c : Constructors) (fields : Fields) (key : String) : ReadM (Option Ty) :=
  match fields.object? key with
  | .none => return .none
  | some inner => c.type inner

/-- The types in the array under a key. -/
def typesAt (c : Constructors) (fields : Fields) (key : String) : ReadM (List Ty) :=
  ReadM.collect c.type (fields.objects key)

/-- The reflections in the array under a key, in the slot of a role. -/
def childrenAt (c : Constructors) (fields : Fields) (key : String) (role : Role) : ReadM Unit :=
  ReadM.each (fun inner => do let _ ← c.reflection inner role) (fields.objects key)

/-- The reflection under a key, in the slot of a role. -/
def childAt (c : Constructors) (fields : Fields) (key : String) (role : Role) : ReadM Unit :=
  ReadM.each (fun inner => do let _ ← c.reflection inner role) (fields.object? key).toList

end Constructors

/-- Makes the bare reflection of one variant. -/
abbrev ReflectionBuilder := Fields → Reflection

/-- Makes the type of one kind; nothing drops the type. -/
abbrev TypeBuilder := Constructors → Fields → ReadM (Option Ty)

/-- Reads further fields of reflections and types. -/
structure Supplement where
  supportsReflection : ReflectionId → Fields → Bool
  readReflection : ReflectionId → Fields → ReadM Unit
  supportsType : Ty → Fields → Bool
  readType : Ty → Fields → ReadM Ty

/-- The supplements and the builders. -/
structure Deserializer where
  supplements : Ranked Supplement
  /-- The builder of a variant; absent where no reflection of the variant can be nested. -/
  reflectionBuilder : VariantTag → Option ReflectionBuilder
  typeBuilder : TypeKind → TypeBuilder

namespace Deserializer

/-- Another builder for a variant. -/
def setReflectionBuilder (d : Deserializer) (tag : VariantTag) (builder : ReflectionBuilder) :
    Deserializer :=
  { d with reflectionBuilder := fun t => if t = tag then some builder else d.reflectionBuilder t }

/-- Another builder for a kind of types. -/
def setTypeBuilder (d : Deserializer) (kind : TypeKind) (builder : TypeBuilder) : Deserializer :=
  { d with typeBuilder := fun k => if k = kind then builder else d.typeBuilder k }

end Deserializer

end DocTree
