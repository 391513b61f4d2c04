import DocTree.Reflection.Basic

/-!
Misuse of a project. These are mistakes of the caller, each with its message.
-/

namespace DocTree

/-- What a caller did wrong. -/
inductive Fault where
  | parentNotRegistered (parent : ReflectionId)
  | noSlot (tag : VariantTag) (parent : ReflectionId) (role : Role)
  | notRegistered (id : ReflectionId)
  | noType (tag : VariantTag) (id : ReflectionId)
  /-- A type owns a declaration that is not registered under the reflection that gets the type. -/
  | foreignLiteral (id : ReflectionId)
  | rootMoved
  | rootRemoved
  | projectNested
  /-- Work was put off by work that had been put off. -/
  | deferredTwice
  deriving DecidableEq, Repr

def Fault.message : Fault → String
  | .parentNotRegistered parent => "parent reflection " ++ parent.text ++ " is not registered"
  | .noSlot tag parent role =>
    tag.name ++ " reflection " ++ parent.text ++ " has no " ++ role.title ++ " slot"
  | .notRegistered id => "reflection " ++ id.text ++ " is not registered"
  | .noType tag id => tag.name ++ " reflection " ++ id.text ++ " has no type"
  | .foreignLiteral id => "type literal declarations must be registered under " ++ id.text
  | .rootMoved => "the project root cannot be moved"
  | .rootRemoved => "the project root cannot be removed"
  | .projectNested => "a project reflection cannot be nested"
  | .deferredTwice => "cannot defer work while deferred work is running"

end DocTree
