import DocTree.Text.Split

/-!
Places of files as they are written on the command line and in options files. They are joined as
text and not cleaned, so that a place is shown as it was composed and found as the file system reads
it.
-/

namespace DocTree.Location

/-- The separator of segments. -/
def separator : Char := '/'

/-- Begins at the root of the file system. -/
def isRooted (place : String) : Bool :=
  place.toList.head? = some separator

/-- Segments that add nothing to the ones before them. -/
def isIdle (segment : List Char) : Bool :=
  segment.isEmpty || segment = ['.']

/-- The directory in which a place lies, empty for a plain file name. Idle segments before the last
one are dropped, apart from the first of all. -/
def directory (place : String) : String :=
  match Text.pieces separator place.toList with
  | [] | [_] => ""
  | first :: rest =>
    let middle := (rest.dropLast.reverse.dropWhile isIdle).reverse
    if first.isEmpty && middle.isEmpty then String.ofList [separator]
    else String.ofList ([separator].intercalate (first :: middle))

/-- A place as seen from a directory. A rooted place stays as it is. -/
def join (base place : String) : String :=
  if isRooted place || base.isEmpty then place
  else if base.toList.getLast? = some separator then base ++ place
  else base ++ String.ofList [separator] ++ place

example : directory "sub/./x.json" = "sub" := by decide +kernel
example : directory "/x.json" = "/" := by decide +kernel
example : directory "./x.json" = "." := by decide +kernel
example : join "sub" "../x.json" = "sub/../x.json" := by decide +kernel

end DocTree.Location
