/-!
Numbers that name reflections and files. Everything that points at a reflection or a file without
owning it does so by number. Reflections are numbered from zero, which is the project, and files from
one; numbers are handed out in ascending order and never twice.
-/

namespace DocTree

/-- The number of a reflection. -/
abbrev ReflectionId := Nat

/-- The number of a file. -/
abbrev FileId := Nat

namespace ReflectionId

/-- The root of every project. -/
def project : ReflectionId := 0

/-- What is written for a reflection that is not there. -/
def absent : Int := -1

def isProject (id : ReflectionId) : Bool := id = project

/-- The number as it stands in a message. -/
def text (id : ReflectionId) : String := toString id

/-- The number with its sort. -/
def describe (id : ReflectionId) : String := "ReflectionId(" ++ toString id ++ ")"

end ReflectionId

namespace FileId

/-- The number of the first file. -/
def first : FileId := 1

/-- The number as it stands in a message. -/
def text (id : FileId) : String := "file#" ++ toString id

/-- The number with its sort. -/
def describe (id : FileId) : String := "FileId(" ++ toString id ++ ")"

end FileId

/-- The numbers not yet handed out: `next` and all above it. They never run out here; what is said of a
supply is meant for fewer than `2 ^ 32` numbers. -/
structure IdSupply where
  next : ReflectionId
  deriving DecidableEq, Repr

namespace IdSupply

/-- Nothing handed out yet. -/
def full : IdSupply := ⟨ReflectionId.project⟩

/-- The number that comes next. -/
def peek (s : IdSupply) : ReflectionId := s.next

/-- Hand out the next number. -/
def take (s : IdSupply) : ReflectionId × IdSupply := (s.next, ⟨s.next + 1⟩)

end IdSupply

end DocTree
