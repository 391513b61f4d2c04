import DocTree.Reader.Revival

/-!
Work put off until every reflection has its new number. Old numbers become new ones; what has none
leads nowhere or is left out, and each such number is noted.
-/

namespace DocTree.Reader

/-! ### Targets by old numbers -/

/-- The old number in the target of a named type. -/
def oldRef? : RefTarget → Option Nat
  | .pending old => some old
  | _ => none

/-- The old number in the target of a piece of text. -/
def oldLink? (p : Part) : Option Nat :=
  match p.target? with
  | some (.pending old) => some old
  | _ => none

/-- A target with its new number, or none. -/
def newRef (r : Revival) : RefTarget → RefTarget
  | .pending old => (r.id? old).elim .broken .reflection
  | target => target

/-- A link with its new number; without one it leads nowhere. -/
def newLink? (r : Revival) : LinkTarget → Option LinkTarget
  | .pending old => (r.id? old).map .reflection
  | target => some target

/-- The old numbers without a new one. -/
def missing (r : Revival) (olds : List Nat) : List Nat :=
  olds.filter fun old => (r.id? old).isNone

def missingLinks (r : Revival) (parts : List Part) : List Issue :=
  (missing r (parts.filterMap oldLink?)).map (.missingReflection · .inlineTag)

def missingRefs (r : Revival) (t : Ty) : List Issue :=
  (missing r (t.references.filterMap fun (head, _) => oldRef? head.target)).map
    (.missingReflection · .referenceType)

def newPart (r : Revival) (p : Part) : Part := p.mapTarget (newLink? r)

/-- A type with new numbers everywhere. -/
def newType (r : Revival) (t : Ty) : Ty :=
  t.adjust { Ty.Change.none with
    ref := fun head => { head with target := newRef r head.target }
    part := newPart r }

/-- The targets that a reflection holds get their new numbers. -/
def resolvePending (r : Revival) (id : ReflectionId) : Revival :=
  match r.project.get? id with
  | none => r
  | some reflection =>
    let issues := reflection.types.flatMap (missingRefs r) ++
      missingLinks r (reflection.types.flatMap Ty.parts ++ reflection.parts)
    let p := r.project.edit id fun s => (s.mapTypes (newType r)).mapParts (newPart r)
    { r with project := p, issues := r.issues ++ issues }

/-! ### Groups and categories -/

/-- The members that have a new number. -/
def newMembers (r : Revival) (members : List Nat) : List ReflectionId := members.filterMap r.id?

def missingMembers (r : Revival) (members : List Nat) : List Issue :=
  (missing r members).map (.missingReflection · .group)

def newCategory (r : Revival) (c : Category) : Category :=
  { c with children := newMembers r c.children, description := c.description.map (·.map (newPart r)) }

def categoryIssues (r : Revival) (c : Category) : List Issue :=
  missingMembers r c.children ++ missingLinks r (c.description.getD [])

def newGroup (r : Revival) (g : Group) : Group :=
  { g with
    children := newMembers r g.children
    description := g.description.map (·.map (newPart r))
    categories := g.categories.map (·.map (newCategory r)) }

def groupIssues (r : Revival) (g : Group) : List Issue :=
  missingMembers r g.children ++ missingLinks r (g.description.getD []) ++
    (g.categories.getD []).flatMap (categoryIssues r)

/-- A container gets its groups and categories. -/
def setGroupings (r : Revival) (id : ReflectionId) (groups : Option (List Group))
    (categories : Option (List Category)) : Revival :=
  let issues := (groups.getD []).flatMap (groupIssues r) ++
    (categories.getD []).flatMap (categoryIssues r)
  let grouped (c : Container) : Container := { c with
    groups := groups.map (·.map (newGroup r))
    categories := categories.map (·.map (newCategory r)) }
  { r with project := r.project.edit id (·.mapContainer grouped), issues := r.issues ++ issues }

/-! ### References, symbols and files -/

/-- A reference gets its target. -/
def setTarget (r : Revival) (id : ReflectionId) (old : Nat) : Revival :=
  let (r, new) := r.expect old .referenceReflection
  { r with project := r.project.setTarget id (.fixed new) }

/-- A reflection is entered under its symbol. -/
def setSymbol (r : Revival) (entry : Nat × Symbol) : Revival :=
  match r.expect entry.1 .symbolMap with
  | (r, some id) => { r with project := r.project.registerSymbolId id entry.2 }
  | (r, none) => r

/-- A file gets its owner. -/
def setOwner (r : Revival) (entry : Nat × Nat) : Revival :=
  match r.fileId? entry.1 with
  | none => r.report (.missingFile entry.1)
  | some file =>
    match r.expect entry.2 .fileTable with
    | (r, some id) =>
      { r with project := { r.project with files := r.project.files.setOwner file id } }
    | (r, none) => r

/-- One piece of work. -/
def carryOut (r : Revival) : Deferred → Except Fault Revival
  | .pendingTargets id => .ok (resolvePending r id)
  | .groupings id groups categories => .ok (setGroupings r id groups categories)
  | .target id old => .ok (setTarget r id old)
  | .projectMaps symbols owners => .ok (owners.foldl setOwner (symbols.foldl setSymbol r))
  | .extension work => work r

/-- All work that was put off, in order. -/
def carryOutAll : List Deferred → Revival → Except Fault Revival
  | [], r => .ok r
  | work :: rest, r => do carryOutAll rest (← carryOut r work)

end DocTree.Reader
