import DocTree.Reader.Project

/-!
Reading any number of serialized projects into one: a single one keeps its shape, of several each
becomes a module, and none at all is refused.
-/

namespace DocTree

/-- Why serialized projects could not be combined. -/
inductive CombineError where
  | nothingGiven
  | revive (reason : ReviveError)
  deriving DecidableEq, Repr

def CombineError.message : CombineError → String
  | .nothingGiven => "no serialized projects given"
  | .revive reason => reason.message

namespace Deserializer

/-- The name of a project of several, if none is given. -/
def combinedName : String := "Documentation"

/-- Read serialized projects into one. A name that is given stands for the name of a single one, and
for the usual name of several. -/
def combine (d : Deserializer) (values : List Json) (name : Option String) (root : String) :
    Except CombineError Revived :=
  match values with
  | [] => .error .nothingGiven
  | [value] => (d.revive value name root).mapError .revive
  | values => (d.merge (name.getD combinedName) values root).mapError .revive

end Deserializer

end DocTree
