import DocTree.CommandLine.Basic
import DocTree.Options.Reader
import DocTree.Reader.Combine
import DocTree.Report
import DocTree.Writer.Reflection

/-!
Running a command. Files are read by an action that is given, so a run can be over a file system or
over texts at hand; all else is the same. The first mistake ends the run.
-/

namespace DocTree

/-- Why a run ended early. -/
inductive RunError where
  | unreadableOptions (place : String)
  | malformedOptions (place : String)
  | unreadableProject (place : String)
  | malformedProject (place : String)
  | combine (reason : CombineError)
  /-- The project to be checked could not be read. -/
  | notRevived (place : String)
  /-- There is no writing to the place of the outcome. -/
  | unwritable (place : String)
  deriving DecidableEq, Repr

def RunError.message : RunError → String
  | .unreadableOptions place => "failed to read options: " ++ place
  | .malformedOptions place => "failed to parse options: " ++ place
  | .unreadableProject place => "failed to read serialized project: " ++ place
  | .malformedProject place => "invalid JSON in " ++ place
  | .combine reason => reason.message
  | .notRevived place => "failed to revive " ++ place
  | .unwritable place => "failed to write " ++ place

/-- What `revive` gives. -/
structure ReviveOutcome where
  /-- The project as a serialized text. -/
  json : String
  /-- How many reflections it has. -/
  size : Nat
  issues : List Issue

section

variable {m : Type → Type} [Monad m] (read : String → m (Option String))

/-- The text of a file. -/
def fileText (refusal : RunError) (place : String) : ExceptT RunError m String := do
  match ← read place with
  | some text => return text
  | none => throw refusal

namespace Invocation

/-- The options of a file, whose places are seen from its directory. -/
def fileOptions (place : String) : ExceptT RunError m Options := do
  let text ← fileText read (.unreadableOptions place) place
  match Options.parse text with
  | .ok o => return o.seenFrom (Location.directory place)
  | .error _ => throw (.malformedOptions place)

/-- The options of an invocation: those of the file, and what the command line says in their place. -/
def options (i : Invocation) : ExceptT RunError m Options := do
  let o ← match i.config with
    | some place => fileOptions read place
    | none => pure .none
  let o := { o with projectRoot := i.projectRoot.or o.projectRoot }
  match i.command with
  | .revive given => return o.override given
  | .check _ => return o

end Invocation

/-- A serialized project in a file. -/
def serialized (place : String) : ExceptT RunError m Json := do
  let text ← fileText read (.unreadableProject place) place
  match Json.parse? text with
  | some value => return value
  | none => throw (.malformedProject place)

/-- Read the serialized projects and write them as one. -/
def runRevive (o : Options) (root : String) : ExceptT RunError m ReviveOutcome := do
  let values ← o.inputs.mapM (serialized read)
  match Deserializer.standard.combine values o.name root with
  | .error reason => throw (.combine reason)
  | .ok revived =>
    let written := Serializer.standard.writeProject revived.project root
    return ⟨written.text (o.pretty.getD false), revived.project.size, revived.issues⟩

/-- Read a serialized project and report what is in it. -/
def runCheck (input root : String) : ExceptT RunError m String := do
  let value ← serialized read input
  match Deserializer.standard.revive value none root with
  | .error _ => throw (.notRevived input)
  | .ok revived => return Report.text revived.project revived.issues

end

end DocTree
