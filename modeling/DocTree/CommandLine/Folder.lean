import DocTree.Location

/-!
Files given as values. A run over a folder reads what it would read in a directory that holds these
files and nothing else, and touches no file system.
-/

namespace DocTree

/-- Files with their texts, by the names on the way to them. -/
structure Folder where
  files : List (List (List Char) × String)

namespace Folder

/-- Files by their relative names. -/
def ofNames (files : List (String × String)) : Folder :=
  ⟨files.map fun (name, text) =>
    ((Text.pieces Location.separator name.toList).filter (!Location.isIdle ·), text)⟩

/-- Some file lies in a directory. -/
def isDirectory (f : Folder) (way : List (List Char)) : Bool :=
  f.files.any fun (file, _) => way.isPrefixOf file && file ≠ way

/-- The text of the file to which the rest of the way leads from a directory. Going up out of the
folder leads nowhere, and so does going on behind a file. -/
def follow (f : Folder) (directory : List (List Char)) : List (List Char) → Option String
  | [] => none
  | segment :: rest =>
    if Location.isIdle segment then f.follow directory rest
    else if segment = ['.', '.'] then
      if directory.isEmpty then none else f.follow directory.dropLast rest
    else
      let way := directory ++ [segment]
      if rest.isEmpty then f.files.lookup way
      else if f.isDirectory way then f.follow way rest
      else none

/-- The text of the file at a place. -/
def read? (f : Folder) (place : String) : Option String :=
  if Location.isRooted place then none
  else f.follow [] (Text.pieces Location.separator place.toList)

end Folder

end DocTree
