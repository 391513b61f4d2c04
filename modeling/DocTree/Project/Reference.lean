import DocTree.Project.Name
import DocTree.Project.SymbolIndex

/-!
Following references. A reference reflection leads to a number or to a full name, which is looked up
on first use; a named type leads to a number or a symbol. Looking something up never changes what it
leads to, but the outcome is kept.
-/

namespace DocTree.Project

/-! ### Reference reflections -/

/-- How many references are followed from one to the next. -/
def maxHops : Nat := 64

/-- The first reflection of a full name that is no reference, not the root and not the one that
asks. -/
def findNamed? (p : Project) (name : String) (asking : ReflectionId) : Option ReflectionId :=
  (p.reflections.find? fun r =>
    r.id ≠ asking && !r.isReference && !r.isProject && p.fullName? r.id "." = some name).map (·.id)

/-- Where a reference leads, looked up. -/
def settled? (p : Project) (id : ReflectionId) : Option ReferenceTarget :=
  ((p.get? id).bind (·.target?)).map (·.settle (p.findNamed? · id))

/-- Where a reference leads, if that is registered. -/
def targetOf? (p : Project) (id : ReflectionId) : Option ReflectionId :=
  ((p.settled? id).bind (·.id?)).filter p.contains

/-- Keep what a reference leads to. -/
def settle (p : Project) (id : ReflectionId) : Project :=
  match p.settled? id with
  | some target => p.update id (·.mapTarget fun _ => target)
  | none => p

/-- Where a reference leads; the outcome of a look-up is kept. -/
def referenceTarget (p : Project) (id : ReflectionId) : Project × Option ReflectionId :=
  (p.settle id, p.targetOf? id)

/-- Follow references from a reflection until one is none, at most so many. -/
def follow : Nat → Project → ReflectionId → Project × Option ReflectionId
  | 0, p, _ => (p, none)
  | hops + 1, p, current =>
    match p.get? current with
    | none => (p, none)
    | some r =>
      if r.isReference then
        match p.referenceTarget current with
        | (p, some next) => follow hops p next
        | (p, none) => (p, none)
      else (p, some current)

/-- The reflection at the end of a chain of references. -/
def deepTarget (p : Project) (id : ReflectionId) : Project × Option ReflectionId :=
  match p.referenceTarget id with
  | (p, some next) => follow maxHops p next
  | (p, none) => (p, none)

/-- Give a reference another target. -/
def setTarget (p : Project) (id : ReflectionId) (target : ReferenceTarget) : Project :=
  if (p.get? id).any (·.isReference) then
    (p.update id (·.mapTarget fun _ => target)).forgetGraph
  else p

/-! ### The references by target -/

/-- One reference entered under its target. -/
def enter (p : Project) (graph : List (ReflectionId × List ReflectionId)) (id : ReflectionId) :
    List (ReflectionId × List ReflectionId) :=
  match p.targetOf? id with
  | some target => Assoc.insert target ((graph.lookup target).getD [] ++ [id]) graph
  | none => graph

/-- The references, in the order of their numbers. -/
def referenceIds (p : Project) : List ReflectionId :=
  (p.reflections.filter (·.isReference)).map (·.id)

/-- All references looked up and entered under their targets. -/
def collectGraph (p : Project) : Project :=
  let settled := p.referenceIds.foldl settle p
  { settled with graph := some (settled.referenceIds.foldl settled.enter []) }

/-- The references that lead to a reflection, in the order of their numbers. -/
def referencing (p : Project) (id : ReflectionId) : Project × List ReflectionId :=
  let p := if p.graph.isNone then p.collectGraph else p
  (p, ((p.graph.getD []).lookup id).getD [])

/-! ### Named types -/

/-- The reflection that a named type leads to. -/
def resolveTarget? (p : Project) : RefTarget → Option ReflectionId
  | .reflection id => if p.contains id then some id else none
  | .symbol s => (p.ofSymbol? s).map (·.id)
  | .pending _ | .broken => none

/-- A symbol that is found becomes the number of its reflection; all else stays. -/
def settleTarget (p : Project) : RefTarget → RefTarget
  | .symbol s => (p.ofSymbol? s).elim (.symbol s) fun r => .reflection r.id
  | target => target

/-- A named type with its symbol looked up. -/
def settleRef (p : Project) (r : Ref) : Ref := { r with target := p.settleTarget r.target }

end DocTree.Project
