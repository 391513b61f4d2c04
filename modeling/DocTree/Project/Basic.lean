import DocTree.Fault
import DocTree.FileTable
import DocTree.Reflection.Slot

/-!
Projects: the registry that holds all reflections of a documentation. A reflection is kept under its
number, and a number is never given twice. Beside the reflections stand tables that follow from them
and are kept in step: the children by parent, the reflections by symbol, and the references by
target, which are collected when they are first asked for.
-/

namespace DocTree

/-- A documentation with all its reflections. -/
structure Project where
  /-- The reflection of each number; numbers of removed reflections stay empty. -/
  arena : Array (Option Reflection)
  /-- The reflections of each symbol. -/
  symbolIndex : List (Symbol × List ReflectionId)
  /-- The symbol of each reflection. -/
  symbols : List (ReflectionId × Symbol)
  /-- The registered children of each reflection. -/
  registered : List (ReflectionId × List ReflectionId)
  /-- The references by their targets, while that is up to date. -/
  graph : Option (List (ReflectionId × List ReflectionId))
  files : FileTable
  deriving Repr

namespace Project

/-- A project that holds nothing but its root. -/
def ofName (name : String) : Project :=
  ⟨#[some (.project name)], [], [], [], none, .empty⟩

/-- The reflection of a number, if it is registered. -/
def get? (p : Project) (id : ReflectionId) : Option Reflection :=
  p.arena[id]?.join

def contains (p : Project) (id : ReflectionId) : Bool := (p.get? id).isSome

/-- The root; every project has one. -/
def root (p : Project) : Reflection := (p.get? ReflectionId.project).getD (.project "")

def name (p : Project) : String := p.root.name

/-- The numbers not yet given. -/
def supply (p : Project) : IdSupply := ⟨p.arena.size⟩

/-- All reflections, in the order of their numbers. -/
def reflections (p : Project) : List Reflection := p.arena.toList.filterMap id

/-- The number of reflections, the root included. -/
def size (p : Project) : Nat := p.reflections.length

/-- The reflections whose kind is in a group. -/
def ofKind (p : Project) (group : Kind) : List Reflection :=
  p.reflections.filter (·.kind.isIn group)

/-- The parent of a registered reflection; the root has none. -/
def parent? (p : Project) (id : ReflectionId) : Option ReflectionId :=
  (p.get? id).bind (·.parent)

/-- The children of a reflection in the order of registration. -/
def registeredChildren (p : Project) (parent : ReflectionId) : List ReflectionId :=
  (p.registered.lookup parent).getD []

/-- A descendant by the names of children on the way. -/
def descend? (p : Project) (start : ReflectionId) : List String → Option ReflectionId
  | [] => some start
  | name :: path => do
    let container ← (← p.get? start).container?
    let child ← container.children.find? fun id => (p.get? id).any (·.name = name)
    p.descend? child path

/-! ### Changing reflections -/

/-- What a number holds replaced; the tables are left to the caller. -/
def put (p : Project) (id : ReflectionId) (r : Option Reflection) : Project :=
  { p with arena := p.arena.setIfInBounds id r }

/-- A registered reflection changed; the tables are left to the caller. -/
def update (p : Project) (id : ReflectionId) (f : Reflection → Reflection) : Project :=
  match p.get? id with
  | some r => p.put id (some (f r))
  | none => p

/-- The references are collected anew when they are next asked for. -/
def forgetGraph (p : Project) : Project := { p with graph := none }

/-- Change what a reflection says. Its number, its parent and its slots are not to be changed. -/
def edit (p : Project) (id : ReflectionId) (f : Reflection → Reflection) : Project :=
  (p.update id f).forgetGraph

/-- Change what the root says. Nothing leads to the root by name, so the references stay as they
are. -/
def editRoot (p : Project) (f : Reflection → Reflection) : Project :=
  p.update ReflectionId.project f

end Project

end DocTree
