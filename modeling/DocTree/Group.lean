import DocTree.Comment

/-!
Groups and categories, in which the children of a reflection are shown. They name children by number
and own nothing.
-/

namespace DocTree

/-- A category of children. -/
structure Category where
  title : String
  description : Option (List Part)
  children : List ReflectionId
  deriving DecidableEq, Repr

/-- A group of children, which may be divided into categories. -/
structure Group where
  title : String
  description : Option (List Part)
  children : List ReflectionId
  categories : Option (List Category)
  deriving DecidableEq, Repr

namespace Category

/-- Drop a child everywhere, and the categories that are then empty. -/
def removeFrom (categories : List Category) (id : ReflectionId) : List Category :=
  (categories.map fun c => { c with children := c.children.filter (· ≠ id) }).filter
    fun c => !c.children.isEmpty

/-- Drop a child everywhere; no list stays where none is left. -/
def removeFrom? (categories : Option (List Category)) (id : ReflectionId) : Option (List Category) :=
  categories.bind fun categories =>
    let left := removeFrom categories id
    if left.isEmpty then none else some left

end Category

namespace Group

/-- Drop a child from the group and its categories. -/
def remove (g : Group) (id : ReflectionId) : Group :=
  { g with
    children := g.children.filter (· ≠ id)
    categories := Category.removeFrom? g.categories id }

/-- Drop a child everywhere, and the groups that are then empty; no list stays where none is left. -/
def removeFrom? (groups : Option (List Group)) (id : ReflectionId) : Option (List Group) :=
  groups.bind fun groups =>
    let left := (groups.map (·.remove id)).filter fun g => !g.children.isEmpty
    if left.isEmpty then none else some left

end Group

end DocTree
