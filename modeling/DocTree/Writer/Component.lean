import DocTree.Project.Removal
import DocTree.Ranked

/-!
What a serializer is made of. Every sort of value is written by a list of components in order of
rank; each adds fields to the object that those before it have written, so that a later one may rely
on earlier fields and overwrite them. The standard components offer the fields of this library's own
format, and extensions stand beside them. Listeners are told when a project begins to be written and
when it has been written.
-/

namespace DocTree

/-- What is written, and the directory from which paths are seen. -/
structure WriteContext where
  project : Project
  root : String

/-- A source with the handle under which it is written. -/
structure SourceEntry where
  source : Source

/-- Writes some fields of the values of one sort. `Own` are the parts in which the standard format
writes a value. -/
inductive Component (Own Item : Type) where
  /-- Writes a part of the standard format. -/
  | standard (part : Own)
  /-- Writes what an extension adds, for the values that it supports. -/
  | extension (supports : Item → Bool) (write : WriteContext → Item → Fields → Fields)

namespace Component

variable {Own Item : Type}

/-- One component after those before it; `own` are the fields of each part of the standard format. -/
def apply (c : WriteContext) (own : Own → Fields) (item : Item) (written : Fields) :
    Component Own Item → Fields
  | .standard part => written.setAll (own part)
  | .extension supports write => if supports item then write c item written else written

/-- The object that a list of components writes for a value. -/
def compose (components : List (Ranked.Entry (Component Own Item))) (c : WriteContext)
    (own : Own → Fields) (item : Item) : Json :=
  .obj ((components.map (·.item)).foldl (apply c own item) [])

/-- A component writes a part of the standard format. -/
def isStandard [DecidableEq Own] (part : Own) : Component Own Item → Bool
  | .standard other => other = part
  | .extension .. => false

end Component

/-- The parts of the standard form of a reflection: the fields that every reflection has, those of a
container and those of one variant. -/
inductive ReflectionPart where
  | shared
  | container
  | variant (tag : VariantTag)
  deriving DecidableEq, Repr

/-! ### Sorts of values -/

/-- The sorts of values that the standard format has. Components for values of any other sort, which
nothing but extensions would write, are left out. -/
inductive ItemSort where
  | reflection | type | part | comment | blockTag | group | category | source | files | symbol
  deriving DecidableEq, Repr

namespace ItemSort

/-- Every sort. -/
def all : List ItemSort :=
  [.reflection, .type, .part, .comment, .blockTag, .group, .category, .source, .files, .symbol]

def name : ItemSort → String
  | .reflection => "reflection"
  | .type => "type"
  | .part => "part"
  | .comment => "comment"
  | .blockTag => "tag"
  | .group => "group"
  | .category => "category"
  | .source => "source"
  | .files => "files"
  | .symbol => "symbol"

def ofName? (name : String) : Option ItemSort := all.find? (·.name = name)

/-- The values of a sort. -/
abbrev Item : ItemSort → Type
  | .reflection => Reflection
  | .type => Ty
  | .part => Part
  | .comment => Comment
  | .blockTag => BlockTag
  | .group => Group
  | .category => Category
  | .source => SourceEntry
  | .files => FileTable
  | .symbol => Symbol

/-- The parts in which the standard format writes a value of a sort. Reflections alone have more than
one. -/
abbrev Own : ItemSort → Type
  | .reflection => ReflectionPart
  | _ => Unit

instance : (sort : ItemSort) → DecidableEq sort.Own
  | .reflection => inferInstanceAs (DecidableEq ReflectionPart)
  | .type | .part | .comment | .blockTag | .group | .category | .source | .files | .symbol =>
    inferInstanceAs (DecidableEq Unit)

/-- The word by which an extension may tell values of a sort apart. -/
def label? : (sort : ItemSort) → sort.Item → Option String
  | .reflection, r => some r.tag.name
  | .type, t => some t.kind.tag
  | .part, p => some p.kind
  | .blockTag, t => some t.tag
  | .group, g => some g.title
  | .category, c => some c.title
  | .comment, _ | .source, _ | .files, _ | .symbol, _ => none

/-- An order in which all sorts are looked through. -/
structure Order where
  sorts : List ItemSort
  complete : ∀ sort, sort ∈ sorts

/-- One sort before the others. -/
def Order.startingAt (sort : ItemSort) : Order :=
  ⟨sort :: all, fun other => List.mem_cons_of_mem sort (by cases other <;> decide)⟩

end ItemSort

/-! ### Listeners -/

/-- Told of the beginning of writing a project. It may note something in the journal. -/
abbrev BeginListener := WriteContext → List Json

/-- Told of the end of writing a project. It may note something and change the output. -/
abbrev EndListener := WriteContext → Fields → Fields × List Json

/-- Told of the beginning or the end. -/
inductive Listener where
  | atBegin (notes : BeginListener)
  | atEnd (act : EndListener)

/-- The listeners for both events, which share their numbers. Numbers are counted without bound; what is
said of listeners is meant for fewer than `2 ^ 32` that were ever added. -/
structure Listeners where
  next : Nat
  begins : List (Ranked.Entry BeginListener)
  ends : List (Ranked.Entry EndListener)

namespace Listeners

def empty : Listeners := ⟨0, [], []⟩

/-- How many listeners there are. -/
def size (l : Listeners) : Nat := l.begins.length + l.ends.length

/-- Add a listener under the next number. -/
def add (l : Listeners) (priority : Int) : Listener → Listeners × Nat
  | .atBegin notes =>
    (⟨l.next + 1, Ranked.slotIn ⟨l.next, priority, notes⟩ l.begins, l.ends⟩, l.next)
  | .atEnd act =>
    (⟨l.next + 1, l.begins, Ranked.slotIn ⟨l.next, priority, act⟩ l.ends⟩, l.next)

/-- Remove the listener of a number; says whether there was one. -/
def remove (l : Listeners) (number : Nat) : Listeners × Bool :=
  let kept : Listeners := ⟨l.next, Ranked.strike number l.begins, Ranked.strike number l.ends⟩
  (kept, kept.size ≠ l.size)

end Listeners

/-! ### Serializers -/

/-- The components for every sort of value, which share their numbers, and the listeners. Numbers are
counted without bound; what is said of a serializer is meant for fewer than `2 ^ 32` components that were
ever added. -/
structure Serializer where
  next : Nat
  components : (sort : ItemSort) → List (Ranked.Entry (Component sort.Own sort.Item))
  listeners : Listeners

namespace Serializer

/-- A serializer without components, which writes empty objects. -/
def empty : Serializer := ⟨0, fun _ => [], .empty⟩

/-- Other components for one sort. -/
def setComponents (s : Serializer) (sort : ItemSort)
    (components : List (Ranked.Entry (Component sort.Own sort.Item))) : Serializer :=
  { s with components := fun other =>
      if h : sort = other then h ▸ components else s.components other }

/-- One more component for a sort, under the next number. -/
def addComponent (s : Serializer) (sort : ItemSort) (priority : Int)
    (c : Component sort.Own sort.Item) : Serializer × Nat :=
  let components := Ranked.sortIn ⟨s.next, priority, c⟩ (s.components sort)
  ({ s.setComponents sort components with next := s.next + 1 }, s.next)

/-- Remove the component of a number from the first of some sorts that has one; says whether there was
one. -/
def removeFirst (s : Serializer) (number : Nat) : List ItemSort → Serializer × Bool
  | [] => (s, false)
  | sort :: others =>
    if (s.components sort).any (·.number = number) then
      (s.setComponents sort ((s.components sort).eraseP (·.number = number)), true)
    else s.removeFirst number others

/-- Remove the component of a number, looked for in some sort first; says whether there was one. -/
def removeComponent (s : Serializer) (sort : ItemSort) (number : Nat) : Serializer × Bool :=
  s.removeFirst number (ItemSort.Order.startingAt sort).sorts

/-! ### The standard components -/

/-- The priority of the fields that every reflection has. -/
def sharedPriority : Int := 1000
/-- The priority of children, documents and groupings. -/
def containerPriority : Int := 900
/-- The priority of the fields of one variant. -/
def variantPriority : Int := 800
/-- The priority of the fields of all other values. -/
def valuePriority : Int := 1000

/-- One component that writes the whole of the standard format. -/
def whole {Item : Type} (number : Nat) : List (Ranked.Entry (Component Unit Item)) :=
  [⟨number, valuePriority, .standard ()⟩]

/-- The components of the variants, one for each. -/
def variantParts : List (Ranked.Entry (Component ReflectionPart Reflection)) :=
  (VariantTag.all.zipIdx 2).map fun (tag, number) =>
    ⟨number, variantPriority, .standard (.variant tag)⟩

/-- The components of reflections. -/
def reflectionParts : List (Ranked.Entry (Component ReflectionPart Reflection)) :=
  ⟨0, sharedPriority, .standard .shared⟩ :: ⟨1, containerPriority, .standard .container⟩ ::
    variantParts

/-- The components of the standard format. -/
def standardComponents : (sort : ItemSort) → List (Ranked.Entry (Component sort.Own sort.Item))
  | .reflection => reflectionParts
  | .type => whole 9
  | .comment => whole 10
  | .blockTag => whole 11
  | .part => whole 12
  | .group => whole 13
  | .category => whole 14
  | .source => whole 15
  | .files => whole 16
  | .symbol => whole 17

/-- The serializer of the standard format. -/
def standard : Serializer := ⟨18, standardComponents, .empty⟩

/-- A serializer writes a part of the standard format of a sort. -/
def writes (s : Serializer) (sort : ItemSort) (part : sort.Own) : Bool :=
  (s.components sort).any (·.item.isStandard part)

/-! ### Telling the listeners -/

/-- The notes of the listeners at the beginning. -/
def begin (s : Serializer) (c : WriteContext) : List Json :=
  s.listeners.begins.flatMap fun entry => entry.item c

/-- One listener at the end. -/
def endStep (c : WriteContext) (state : Fields × List Json) (act : EndListener) : Fields × List Json :=
  let (output, notes) := act c state.1
  (output, state.2 ++ notes)

/-- The output as the listeners at the end leave it, with their notes. -/
def finish (s : Serializer) (c : WriteContext) (output : Fields) : Fields × List Json :=
  (s.listeners.ends.map (·.item)).foldl (endStep c) (output, [])

end Serializer

end DocTree
