import DocTree.Assoc
import DocTree.Id
import DocTree.Path

/-!
The files that a documentation refers to. Each cleaned path has one number; the paths are kept in the
order of their numbers, so number and path determine one another. A file may be owned by a
reflection, and then links to the file lead to the reflection. Files that are copied out get names
that differ from one another.
-/

namespace DocTree

/-- The files of a project. -/
structure FileTable where
  /-- The paths; the file of number `i` is the one at `i - 1`. This one list says which number a path
  has, which path a number has and which number comes next: `register` alone enters a path, under the
  next number and in both directions at once, and nothing takes one out, so the three never part. -/
  paths : List Path
  /-- The reflection that owns a file, in the order of registration. -/
  owners : List (FileId × ReflectionId)
  /-- The path last registered for a reflection. -/
  owned : List (ReflectionId × Path)
  /-- The output names given so far. -/
  names : List (FileId × String)
  /-- For every name in use the number that the next file of this name tries. -/
  usage : List (String × Nat)
  deriving DecidableEq, Repr

namespace FileTable

def empty : FileTable := ⟨[], [], [], [], []⟩

/-- What a file number leads to. -/
inductive Target where
  | reflection (id : ReflectionId)
  | path (path : Path)
  deriving DecidableEq, Repr

/-- A file with the part of the link behind `#`. -/
structure Link where
  file : FileId
  anchor : Option String
  deriving DecidableEq, Repr

/-! ### Reading -/

/-- The path of a file. -/
def path? (t : FileTable) (file : FileId) : Option Path :=
  if FileId.first ≤ file then t.paths[file - FileId.first]? else none

/-- The number of a cleaned path. -/
def find? (t : FileTable) (path : Path) : Option FileId :=
  (t.paths.findIdx? (· = path)).map (· + FileId.first)

/-- The number of a path. -/
def id? (t : FileTable) (text : String) : Option FileId :=
  t.find? (.ofText text)

/-- The number of files. -/
def size (t : FileTable) : Nat := t.paths.length

/-- The files in the order of their numbers. -/
def entries (t : FileTable) : List (FileId × Path) :=
  t.paths.zipIdx.map fun (path, i) => (i + FileId.first, path)

/-- The reflection that owns the file, else its path. -/
def resolve? (t : FileTable) (file : FileId) : Option Target :=
  match t.owners.lookup file with
  | some id => some (.reflection id)
  | none => (t.path? file).map .path

/-- The path last registered for a reflection. -/
def ownedPath? (t : FileTable) (id : ReflectionId) : Option Path :=
  t.owned.lookup id

/-! ### Registering -/

/-- A link cut at its first `#`. -/
def splitAnchor (text : String) : String × Option String :=
  match Text.cutFirst '#' text.toList with
  | some (path, anchor) => (String.ofList path, some (String.ofList anchor))
  | none => (text, none)

/-- Register a path that may carry an anchor; a path that is known keeps its number. Numbers are counted
without bound; what is said of a table is meant for fewer than `2 ^ 32` different paths. -/
def register (t : FileTable) (text : String) : FileTable × Link :=
  let (text, anchor) := splitAnchor text
  let path := Path.ofText text
  match t.find? path with
  | some file => (t, ⟨file, anchor⟩)
  | none => (⟨t.paths ++ [path], t.owners, t.owned, t.names, t.usage⟩,
      ⟨t.size + FileId.first, anchor⟩)

/-- Register a link that stands in the file `source`. -/
def registerLink (t : FileTable) (source link : String) : FileTable × Link :=
  t.register (Path.resolve (Path.ofText source).directory link).text

/-- Make a reflection the owner of a file that is registered. -/
def setOwner (t : FileTable) (file : FileId) (id : ReflectionId) : FileTable :=
  match t.path? file with
  | some path => ⟨t.paths, Assoc.insert file id t.owners, Assoc.insert id path t.owned, t.names, t.usage⟩
  | none => t

/-- Register a path and make a reflection its owner. -/
def registerOwned (t : FileTable) (text : String) (id : ReflectionId) : FileTable × FileId :=
  let (t, link) := t.register text
  (t.setOwner link.file id, link.file)

/-- Forget what is registered for a reflection: its path, and that it owns the file of that path. -/
def disown (t : FileTable) (id : ReflectionId) : FileTable :=
  match t.ownedPath? id with
  | none => t
  | some path =>
    let owners := match t.find? path with
      | some file => if t.owners.lookup file = some id then Assoc.erase file t.owners else t.owners
      | none => t.owners
    ⟨t.paths, owners, Assoc.erase id t.owned, t.names, t.usage⟩

/-! ### Output names -/

/-- A name with a number before its extension. -/
def numbered (base : String) (n : Nat) : String :=
  let (stem, extension) := Path.splitExtension base
  stem ++ "-" ++ toString n ++ extension

/-- The first number from `n` on whose name is not in use. Different numbers give different names, so
one try more than there are names is enough. -/
def freeNumber (usage : List (String × Nat)) (base : String) : Nat → Nat → Nat
  | 0, n => n
  | tries + 1, n =>
    if Assoc.contains (numbered base n) usage then freeNumber usage base tries (n + 1) else n

/-- The output name of a file: its last segment if no other file has that name, else with a number.
A name once given stays. -/
def name (t : FileTable) (file : FileId) : FileTable × Option String :=
  match t.path? file, t.names.lookup file with
  | none, _ => (t, none)
  | some _, some name => (t, some name)
  | some path, none =>
    let base := path.baseName
    let (usage, name) := match t.usage.lookup base with
      | none => (Assoc.insert base 1 t.usage, base)
      | some start =>
        let n := freeNumber t.usage base (t.usage.length + 1) start
        let name := numbered base n
        (Assoc.insert name 1 (Assoc.insert base (n + 1) t.usage), name)
    (⟨t.paths, t.owners, t.owned, Assoc.insert file name t.names, usage⟩, some name)

/-- The output names of all files that no reflection owns, with their paths. -/
def outputNames (t : FileTable) : FileTable × List (String × Path) :=
  let free := t.entries.filter fun (file, _) => !Assoc.contains file t.owners
  free.foldl (fun (t, out) (file, path) =>
    let (t, name) := t.name file
    (t, name.elim out fun name => Assoc.insert name path out)) (t, [])

end FileTable

end DocTree
