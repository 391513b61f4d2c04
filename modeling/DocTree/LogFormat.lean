import DocTree.Text.Blank

/-!
The forms in which a run is logged: plain lines, a tree of nested spans, or one JSON object a line.
-/

namespace DocTree

/-- The form of a log. -/
inductive LogFormat where
  | text
  | tree
  | json
  deriving DecidableEq, Repr

namespace LogFormat

/-- The form that a word asks for, blanks around it and capital letters aside. Any other word asks for
plain lines. -/
def ofWord (word : String) : LogFormat :=
  match Text.lower (Text.trim word) with
  | "tree" => .tree
  | "json" => .json
  | _ => .text

/-- The name as a title. -/
def title : LogFormat → String
  | .text => "Text"
  | .tree => "Tree"
  | .json => "Json"

end LogFormat

end DocTree
