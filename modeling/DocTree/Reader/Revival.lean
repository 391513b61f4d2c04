import DocTree.Project.Removal
import DocTree.Reader.Issue

/-!
The state of reading. While the tree is read, reflections get new numbers; whatever names a
reflection by its old number is put off until every reflection has its new one. A piece of work that
was put off sees the revival alone, without the queue, so it cannot put off more.
-/

namespace DocTree

/-- A project that is being read. -/
structure Revival where
  project : Project
  /-- The directory from which serialized paths are seen. -/
  root : String
  /-- The reflections whose fields are being read, the innermost first. -/
  active : List ReflectionId
  /-- The new numbers of reflections by their old ones. -/
  ids : List (Nat × ReflectionId)
  /-- The new numbers of files by their old ones. -/
  fileIds : List (Nat × FileId)
  /-- How many targets were stored by their old number so far. -/
  pendingCount : Nat
  issues : List Issue
  /-- What extensions noted. -/
  journal : List Json

namespace Revival

/-- Nothing has been read. -/
def start (p : Project) (root : String) : Revival := ⟨p, root, [], [], [], 0, [], []⟩

/-- The reflection whose fields are being read. -/
def activeReflection (r : Revival) : ReflectionId := r.active.head?.getD ReflectionId.project

/-- The new number of a reflection. -/
def id? (r : Revival) (old : Nat) : Option ReflectionId := r.ids.lookup old

/-- The new number of a file. -/
def fileId? (r : Revival) (old : Nat) : Option FileId := r.fileIds.lookup old

/-- Record the new number of a reflection; the last one stands. -/
def record (r : Revival) (old : Nat) (new : ReflectionId) : Revival :=
  { r with ids := Assoc.insert old new r.ids }

/-- Note that something is amiss. -/
def report (r : Revival) (issue : Issue) : Revival := { r with issues := r.issues ++ [issue] }

/-- Note something for the caller. -/
def note (r : Revival) (entry : Json) : Revival := { r with journal := r.journal ++ [entry] }

/-- The new number of a reflection; when there is none, that is amiss. -/
def expect (r : Revival) (old : Nat) (mention : Mention) : Revival × Option ReflectionId :=
  match r.id? old with
  | some new => (r, some new)
  | none => (r.report (.missingReflection old mention), none)

/-- The symbol of a serialized one. -/
def symbol? (r : Revival) (fields : Fields) : Option Symbol := do
  return .ofSerialized r.root (← fields.text? "sourceFileName") (← fields.text? "qualifiedName")

/-- Work that is being carried out cannot put off more. -/
def defer (_ : Revival) (_ : Revival → Except Fault Revival) : Except Fault Revival :=
  .error .deferredTwice

end Revival

/-- Work put off until the tree has been read. -/
inductive Deferred where
  /-- Targets that a reflection holds by old numbers get the new ones. -/
  | pendingTargets (id : ReflectionId)
  /-- A container gets its groups and categories. -/
  | groupings (id : ReflectionId) (groups : Option (List Group)) (categories : Option (List Category))
  /-- A reference gets its target. -/
  | target (id : ReflectionId) (old : Nat)
  /-- The symbols of reflections and the owners of files. -/
  | projectMaps (symbols : List (Nat × Symbol)) (owners : List (Nat × Nat))
  /-- What an extension put off. -/
  | extension (work : Revival → Except Fault Revival)

/-- A revival with the work that was put off. -/
structure Reading where
  revival : Revival
  queue : List Deferred

/-- Reading changes the state and fails only by misuse of the project. -/
abbrev ReadM := StateT Reading (Except Fault)

namespace ReadM

/-- The state of the revival. -/
def revival : ReadM Revival := return (← get).revival

/-- Change the revival. -/
def change (f : Revival → Revival) : ReadM Unit :=
  modify fun s => { s with revival := f s.revival }

/-- Change the project. -/
def changeProject (f : Project → Project) : ReadM Unit :=
  change fun r => { r with project := f r.project }

/-- Change the project in a way that may fail. -/
def tryProject {α : Type} (f : Project → Except Fault (Project × α)) : ReadM α := do
  let (p, a) ← f (← revival).project
  changeProject fun _ => p
  return a

/-- Note that something is amiss. -/
def report (issue : Issue) : ReadM Unit := change (·.report issue)

/-- Put work off until the tree has been read. -/
def defer (work : Deferred) : ReadM Unit :=
  modify fun s => { s with queue := s.queue ++ [work] }

/-- What a function gives for the items of a list, in order. -/
def collect {α β : Type} (f : α → ReadM (Option β)) : List α → ReadM (List β)
  | [] => return []
  | a :: as => do
    let b ← f a
    let bs ← collect f as
    return b.toList ++ bs

/-- An action for the items of a list, in order. -/
def each {α : Type} (f : α → ReadM Unit) : List α → ReadM Unit
  | [] => return
  | a :: as => do
    f a
    each f as

end ReadM

end DocTree
