import DocTree.Location
import DocTree.Path

/-!
What a run is asked to do: which serialized projects are read, under which name, from which directory
their files are seen, and how and where the outcome is written.
-/

namespace DocTree

/-- The options of a run. -/
structure Options where
  /-- The name of the project that is written. -/
  name : Option String
  /-- The directory from which serialized files are seen. -/
  projectRoot : Option String
  /-- The outcome is indented. -/
  pretty : Option Bool
  /-- Where the serialized projects lie. -/
  inputs : List String
  /-- Where the outcome is written. -/
  out : Option String
  deriving DecidableEq, Repr

namespace Options

/-- Nothing is asked. -/
def none : Options := ⟨.none, .none, .none, [], .none⟩

/-- Options that lie in a directory name every place as seen from there. -/
def seenFrom (o : Options) (directory : String) : Options :=
  { o with
    projectRoot := o.projectRoot.map (Location.join directory)
    inputs := o.inputs.map (Location.join directory)
    out := o.out.map (Location.join directory) }

/-- The cleaned directory from which files are seen; the working directory unless another is asked
for. -/
def resolvedRoot (o : Options) (workingDirectory : String) : String :=
  match o.projectRoot with
  | some root => (Path.resolve workingDirectory root).text
  | .none => (Path.ofText workingDirectory).text

end Options

end DocTree
