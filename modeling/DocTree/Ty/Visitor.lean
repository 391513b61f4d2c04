import DocTree.Ty.Basic

/-!
Handling a type by its sort. A visitor has a handler for some sorts and one result for all others.
-/

namespace DocTree.Ty

/-- Handlers for some sorts of types. -/
structure Visitor (α : Type) where
  handler : TypeKind → Option (Ty → α)
  fallback : α

/-- A visitor that handles nothing. -/
def Visitor.plain {α : Type} (fallback : α) : Visitor α := ⟨fun _ => none, fallback⟩

/-- The result of the handler for this sort of type, else the result for all others. -/
def visit {α : Type} (v : Visitor α) (t : Ty) : α :=
  match v.handler t.kind with
  | some handle => handle t
  | none => v.fallback

end DocTree.Ty
