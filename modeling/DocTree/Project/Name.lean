import DocTree.Project.Basic
import DocTree.Text.Blank

/-!
Names of reflections: the full name with the names of all ancestors, the same without signatures, and
the anchor that stands in addresses. Walks up the parents end after a fixed number of steps, so that
parents in a circle do no harm.
-/

namespace DocTree.Project

/-- How many parents are followed at most. -/
def maxParents : Nat := 1024

/-- The reflections up from a number, at most so many. -/
def upward (p : Project) : Nat → Option ReflectionId → List Reflection
  | 0, _ => []
  | steps + 1, next =>
    match next.bind p.get? with
    | some r => r :: p.upward steps r.parent
    | none => []

/-- The ancestors of a reflection, the nearest first. -/
def ancestors (p : Project) (id : ReflectionId) : List Reflection :=
  p.upward maxParents (p.parent? id)

/-- A reflection and its ancestors up to the root, the root left out, outermost first. -/
def chain (p : Project) (r : Reflection) : List Reflection :=
  ((r :: p.ancestors r.id).takeWhile fun a => !a.isProject).reverse

/-- The names on the way to a reflection, those of some kinds left out; at least its own. -/
def namePath? (p : Project) (id : ReflectionId) (skipped : Kind) : Option (List String) :=
  (p.get? id).map fun r =>
    if r.isProject then [r.name]
    else
      match ((p.chain r).filter fun a => !a.kind.isIn skipped).map (·.name) with
      | [] => [r.name]
      | names => names

/-- The names of all ancestors and the own one. The root is not named unless it is meant. -/
def fullName? (p : Project) (id : ReflectionId) (separator : String) : Option String :=
  (p.namePath? id .none).map separator.intercalate

/-- The full name without the names of signatures. -/
def friendlyName? (p : Project) (id : ReflectionId) : Option String :=
  (p.namePath? id .unnamedSignature).map ".".intercalate

/-! ### Anchors -/

/-- The letters of a name that may stand in an address. -/
def slug (name : String) : String :=
  String.ofList (name.toList.filter fun c => c.isAlphanum || c = '_')

/-- The reflection on whose page another is shown: the nearest of itself and its ancestors that has a
page of its own or no parent. -/
def page (p : Project) (r : Reflection) : ReflectionId :=
  ((r :: p.ancestors r.id).find? fun a => a.ownDocument || a.parent.isNone).elim r.id (·.id)

/-- The anchor of a reflection. It differs from every other on the same page, also in lower case
alone, and stays as it was first given. -/
def anchor (p : Project) (id : ReflectionId) : Project × Option String :=
  match p.get? id with
  | none => (p, none)
  | some r =>
    match r.anchor with
    | some anchor => (p, some anchor)
    | none =>
      let base := if (slug r.name).isEmpty then "reflection-" ++ id.text else slug r.name
      let page := p.page r
      let key := Text.lower base
      let count := (p.get? page).bind (·.anchorCounts.lookup key)
      let anchor := count.elim base fun n => base ++ "-" ++ toString n
      let counted := p.update page fun s =>
        { s with anchorCounts := Assoc.insert key (count.elim 1 (· + 1)) s.anchorCounts }
      (counted.update id fun s => { s with anchor := some anchor }, some anchor)

end DocTree.Project
