import DocTree.Project.SymbolIndex

/-!
Adding and moving reflections. The slot of the parent, the parent of the child and the table of
children change together.
-/

namespace DocTree.Project

/-- Put a child into a slot of a registered parent. -/
def attach (p : Project) (parent child : ReflectionId) (role : Role) : Except Fault Project :=
  match p.get? parent with
  | none => .error (.parentNotRegistered parent)
  | some r =>
    match r.variant.attach? child role with
    | none => .error (.noSlot r.tag parent role)
    | some variant => .ok (p.put parent (some { r with variant := variant }))

/-- Enter a child at the end of the table of children. -/
def enterChild (p : Project) (parent child : ReflectionId) : Project :=
  { p with registered := Assoc.insert parent (p.registeredChildren parent ++ [child]) p.registered }

/-- Strike a child from the table of children. -/
def strikeChild (p : Project) (parent child : ReflectionId) : Project :=
  match p.registered.lookup parent with
  | some ids => { p with registered := Assoc.insert parent (ids.filter (· ≠ child)) p.registered }
  | none => p

/-- Register a reflection as a child of another. A declaration that a type is to own is registered
first and then put into the type. -/
def add (p : Project) (parent : ReflectionId) (role : Role) (r : Reflection) :
    Except Fault (Project × ReflectionId) := do
  if r.isProject then throw .projectNested
  let (id, _) := p.supply.take
  let p ← p.attach parent id role
  let p := p.enterChild parent id
  return ({ p with arena := p.arena.push (some { r with id := id, parent := some parent }), graph := none }, id)

/-- Register a reflection with its symbol and the file that it owns. -/
def register (p : Project) (parent : ReflectionId) (role : Role) (r : Reflection)
    (symbol : Option DeclaredSymbol) (file : Option String) :
    Except Fault (Project × ReflectionId) := do
  let (p, id) ← p.add parent role r
  let p := symbol.elim p (p.registerSymbol id)
  return (file.elim p fun path => { p with files := (p.files.registerOwned path id).1 }, id)

/-- The role of a reflection in its parent, if it stands in a slot. -/
def roleInParent? (p : Project) (id : ReflectionId) : Option Role := do
  (← p.get? (← p.parent? id)).roleOf? id

/-- Move a reflection under another parent. -/
def reparent (p : Project) (id parent : ReflectionId) (role : Role) : Except Fault Project := do
  if id.isProject then throw .rootMoved
  match p.parent? id with
  | none => return p
  | some old =>
    let p := (p.roleInParent? id).elim p fun role => p.update old (·.detach id role)
    let p := p.strikeChild old id
    let p ← p.attach parent id role
    let p := p.update id fun r => { r with parent := some parent }
    return (p.enterChild parent id).forgetGraph

end DocTree.Project
