import DocTree.Options.Basic

/-!
What a command line asks for: one of two commands, with an options file and a project directory that
count for both.
-/

namespace DocTree

/-- What the command `revive` is given. -/
structure ReviveArguments where
  inputs : List String
  name : Option String
  out : Option String
  pretty : Bool
  deriving DecidableEq, Repr

/-- A command. -/
inductive Command where
  /-- Read serialized projects and write them as one. -/
  | revive (given : ReviveArguments)
  /-- Read a serialized project and report what is in it. -/
  | check (input : String)
  deriving DecidableEq, Repr

/-- A command line. -/
structure Invocation where
  /-- Where the options file lies. -/
  config : Option String
  projectRoot : Option String
  command : Command
  deriving DecidableEq, Repr

namespace Options

/-- What is given on the command line stands for what the options say. -/
def override (o : Options) (given : ReviveArguments) : Options :=
  { o with
    inputs := if given.inputs.isEmpty then o.inputs else given.inputs
    name := given.name.or o.name
    out := given.out.or o.out
    pretty := if given.pretty then some true else o.pretty }

end Options

end DocTree
