import DocTree.Project.Reference
import DocTree.Project.Structure

/-!
Removing reflections. With a reflection goes all that exists only because of it: its children, the
references that lead to it, and the declarations owned by a type that is given up because it mentions
the reflection. What is being removed is remembered, so that circles end.
-/

namespace DocTree.Project

/-- A project in which reflections are being removed. -/
structure Removal where
  project : Project
  /-- The reflections whose removal has begun. -/
  begun : List ReflectionId

/-- Take a reflection out of its parent. Gives the declarations that types of the parent owned which
were given up with it. -/
def unlink (p : Project) (id : ReflectionId) : Project × List ReflectionId :=
  match p.parent? id with
  | none => (p, [])
  | some parent =>
    let role := p.roleInParent? id
    let before := (p.get? parent).elim [] Reflection.literals
    let p := p.update parent (·.detach id (role.getD .children))
    let after := (p.get? parent).elim [] Reflection.literals
    let orphans := if role = some .typeLiteral then
        before.filter fun d => d ≠ id && d ∉ after
      else []
    let p := p.strikeChild parent id
    (p, orphans.filter fun d => p.parent? d = some parent)

/-- Remove a reflection with all that depends on it, unless it is gone or its removal has begun. Each
step down begins one more removal, so as many steps as there are reflections are enough. -/
def removeWithin : Nat → ReflectionId → Removal → Removal
  | 0, _, s => s
  | steps + 1, id, s =>
    if !s.project.contains id || id ∈ s.begun then s
    else
      let children := s.project.registeredChildren id
      let s : Removal :=
        ⟨{ s.project with registered := Assoc.erase id s.project.registered }, id :: s.begun⟩
      let s := children.foldl (fun s child =>
        if s.project.parent? child = some id then removeWithin steps child s else s) s
      let (p, references) := s.project.referencing id
      let s := references.foldl (fun s reference => removeWithin steps reference s)
        { s with project := p }
      let p := s.project.purgeSymbol id
      let p := { p with files := p.files.disown id }
      let (p, orphans) := p.unlink id
      let s := { s with project := (p.put id none).forgetGraph }
      orphans.foldl (fun s orphan => removeWithin steps orphan s) s

/-- Remove a reflection with all that depends on it. -/
def remove (p : Project) (id : ReflectionId) : Except Fault Project :=
  if id.isProject then .error .rootRemoved
  else .ok (removeWithin (p.size + 1) id ⟨p, []⟩).project

/-- Remove a declaration that a type of a reflection owned, if it still belongs to it. -/
def dropLiteral (owner : ReflectionId) (p : Project) (declaration : ReflectionId) : Project :=
  if p.parent? declaration = some owner then
    (removeWithin (p.size + 1) declaration ⟨p, []⟩).project
  else p

/-- Replace the main type of a reflection. Declarations that the old type owned and the new one does
not are removed. -/
def setType (p : Project) (id : ReflectionId) (type : Option Ty) : Except Fault Project :=
  match p.get? id with
  | none => .error (.notRegistered id)
  | some r =>
    match r.variant.setMainType? type with
    | none => .error (.noType r.tag id)
    | some variant =>
      let kept := type.elim [] Ty.declarations
      let old := (r.type?.elim [] Ty.declarations).filter (· ∉ kept)
      .ok (old.foldl (dropLiteral id) (p.put id (some { r with variant := variant }))).forgetGraph

/-- All declarations that a type owns are registered under a reflection. -/
def ownsLiterals (p : Project) (id : ReflectionId) (type : Ty) : Bool :=
  type.declarations.all fun d => p.parent? d = some id

/-- Give a reflection a main type whose declarations are registered under it. -/
def setOwnType (p : Project) (id : ReflectionId) (type : Ty) : Except Fault Project := do
  let q ← p.setType id (some type)
  if p.ownsLiterals id type then return q else throw (.foreignLiteral id)

end DocTree.Project
