import DocTree.Path

/-!
Places in source files: the file as shown to readers, its full path, a line counted from one and a
column counted from zero.
-/

namespace DocTree

/-- Where a declaration was found. -/
structure Source where
  /-- The name shown to readers. -/
  fileName : String
  /-- The path of the file, which is not serialized. -/
  fullPath : Path
  line : Nat
  column : Nat
  /-- Where the source can be read, if it is published. -/
  url : Option String
  deriving DecidableEq, Repr

namespace Source

/-- A place in a file, which is shown by its last segment. -/
def ofPath (file : String) (line column : Nat) : Source :=
  let path := Path.ofText file
  ⟨path.baseName, path, line, column, none⟩

/-- Show the file as seen from a directory. -/
def relativeTo (s : Source) (directory : String) : Source :=
  { s with fileName := s.fullPath.relativeTo directory }

end Source

end DocTree
