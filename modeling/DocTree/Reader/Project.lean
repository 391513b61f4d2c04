import DocTree.Json.Parser
import DocTree.Json.Printer
import DocTree.Reader.Pending
import DocTree.Reader.Reflection

/-!
Reading serialized projects, one into a project of its own or several into one, each as a module.
Reading goes in two passes: the tree is read and everything in it registered, then the work that was
put off is carried out. The only input that cannot be read is one that is no project.
-/

namespace DocTree

/-- Why a project could not be read. -/
inductive ReviveError where
  /-- The value is not a serialized project; what it is instead. -/
  | notAProject (found : String)
  /-- The text is not JSON. -/
  | invalidJson
  /-- An extension or a builder misused the project. -/
  | fault (fault : Fault)
  deriving DecidableEq, Repr

def ReviveError.message : ReviveError → String
  | .notAProject found => "expected a serialized project object, found " ++ found
  | .invalidJson => "invalid JSON"
  | .fault f => f.message

namespace Reader

/-- A number of 32 bits in decimal digits, which may have a plus sign in front. -/
def word? (text : String) : Option Nat :=
  let digits := match text.toList with
    | '+' :: rest => rest
    | all => all
  if digits.isEmpty || !digits.all Char.isDigit then none
  else some (Json.natOfDigits digits) |>.filter (· < Json.wordBound)

/-- The paths of the serialized files are registered, and their new numbers recorded. -/
def fileEntry (r : Revival) (entry : String × Json) : Revival :=
  match word? entry.1, entry.2.asString? with
  | some old, some path =>
    let (files, link) := r.project.files.register (Path.resolve r.root path).text
    { r with
      project := { r.project with files := files }
      fileIds := Assoc.insert old link.file r.fileIds }
  | _, _ => r

/-- The entries of the file table, read before anything that may link to a file. -/
def fileEntries (r : Revival) (fields : Fields) : Revival :=
  ((((fields.object? "files").bind (Fields.object? · "entries")).getD [])).foldl fileEntry r

/-- The symbols by the old numbers of their reflections. -/
def symbolEntries (r : Revival) (fields : Fields) : List (Nat × Symbol) :=
  ((fields.object? "symbolIdMap").getD []).filterMap fun (key, value) => do
    return (← word? key, ← r.symbol? (← value.asObject?))

/-- The owners by the old numbers of files and reflections. -/
def ownerEntries (fields : Fields) : List (Nat × Nat) :=
  (((fields.object? "files").bind (Fields.object? · "reflections")).getD []).filterMap
    fun (key, value) => do return (← word? key, ← value.asWord?)

/-- The state before the tree is read: the reflection that it is read into has its new number, and the
files are listed. -/
def opened (p : Project) (target : ReflectionId) (fields : Fields) (root : String) : Revival :=
  let start := Revival.start p root
  fileEntries ((fields.word? "id").elim start (start.record · target)) fields

/-- The first pass: a serialized project is read into a registered reflection, the root or a module
that stands for it. -/
def readTree (d : Deserializer) (p : Project) (target : ReflectionId) (fields : Fields)
    (root : String) : Except Fault Reading := do
  let c := d.constructors (Json.obj fields).depth
  let (_, read) ← (d.readReflection c target fields).run ⟨opened p target fields root, []⟩
  return read

/-- Read a serialized project into a registered reflection, both passes. -/
def reviveInto (d : Deserializer) (p : Project) (target : ReflectionId) (fields : Fields)
    (root : String) : Except Fault Revival := do
  let read ← readTree d p target fields root
  let maps := Deferred.projectMaps (symbolEntries read.revival fields) (ownerEntries fields)
  carryOutAll (read.queue ++ [maps]) read.revival

/-- The fields of a serialized project. -/
def projectFields (value : Json) : Except ReviveError Fields :=
  match value with
  | .obj fields =>
    if Fields.text? fields "variant" = some VariantTag.project.name then .ok fields
    else .error (.notAProject ("variant " ++
      ((Fields.value? fields "variant").map Json.compact).getD "(none)"))
  | other => .error (.notAProject other.describe)

/-- Misuse as a reason why a project could not be read. -/
def orFault {α : Type} (result : Except Fault α) : Except ReviveError α :=
  result.mapError .fault

end Reader

/-- A project that was read. -/
structure Revived where
  project : Project
  issues : List Issue
  /-- What extensions noted. -/
  journal : List Json

namespace Deserializer

/-- Read a serialized project, with the new numbers of its reflections by their old ones. A name that
is given stands for the serialized one. -/
def reviveWithIds (d : Deserializer) (value : Json) (name : Option String) (root : String) :
    Except ReviveError (Revived × List (Nat × ReflectionId)) := do
  let fields ← Reader.projectFields value
  let name := (name.or (Fields.text? fields "name")).getD ""
  let r ← Reader.orFault (Reader.reviveInto d (.ofName name) ReflectionId.project fields root)
  return (⟨r.project, r.issues, r.journal⟩, r.ids)

/-- Read a serialized project. -/
def revive (d : Deserializer) (value : Json) (name : Option String) (root : String) :
    Except ReviveError Revived := do
  return (← d.reviveWithIds value name root).1

/-- Read a serialized project from its text. -/
def reviveText (d : Deserializer) (text : String) (name : Option String) (root : String) :
    Except ReviveError Revived :=
  match Json.parse? text with
  | some value => d.revive value name root
  | none => .error .invalidJson

/-- One more serialized project as a module of a project. -/
def addModule (d : Deserializer) (root : String) (merged : Revived) (fields : Fields) :
    Except Fault Revived := do
  let (p, module) ← merged.project.add ReflectionId.project .children
    (.declaration (fields.text "name") .module)
  let r ← Reader.reviveInto d p module fields root
  return ⟨r.project, merged.issues ++ r.issues, merged.journal ++ r.journal⟩

/-- Several serialized projects in one, each a module, in the order in which they are given. -/
def merge (d : Deserializer) (name : String) (values : List Json) (root : String) :
    Except ReviveError Revived := do
  let objects ← values.mapM Reader.projectFields
  Reader.orFault (objects.foldlM (d.addModule root) ⟨.ofName name, [], []⟩)

end Deserializer

end DocTree
