import DocTree.Reflection.Basic

/-!
Slots and stored types. A child stands in a slot of its parent; a declaration that a type owns stands
in the types themselves, so taking it out replaces every type that mentions it. The children of a
reflection are listed slot by slot in one fixed order.
-/

namespace DocTree

namespace Variant

/-! ### Stored types -/

/-- The type that is *the* type of a reflection. -/
def mainType? : Variant → Option Ty
  | .declaration d => d.type
  | .signature d => d.type
  | .param d => d.type
  | .typeParam d => d.type
  | _ => none

/-- The main type replaced; absent where the variant has no place for one. -/
def setMainType? (type : Option Ty) : Variant → Option Variant
  | .declaration d => some (.declaration { d with type := type })
  | .signature d => some (.signature { d with type := type })
  | .param d => some (.param { d with type := type })
  | .typeParam d => some (.typeParam { d with type := type })
  | _ => none

/-- Every stored type, the main one first. -/
def types : Variant → List Ty
  | .declaration d =>
    d.type.toList ++ d.overwrites.toList ++ d.inheritedFrom.toList ++ d.implementationOf.toList ++
      d.extendedTypes ++ d.extendedBy ++ d.implementedTypes ++ d.implementedBy
  | .signature d =>
    d.type.toList ++ d.overwrites.toList ++ d.inheritedFrom.toList ++ d.implementationOf.toList
  | .param d => d.type.toList
  | .typeParam d => d.type.toList ++ d.default.toList
  | _ => []

/-- Every stored type replaced. -/
def mapTypes (f : Ty → Ty) : Variant → Variant
  | .declaration d => .declaration { d with
      type := d.type.map f
      overwrites := d.overwrites.map f
      inheritedFrom := d.inheritedFrom.map f
      implementationOf := d.implementationOf.map f
      extendedTypes := d.extendedTypes.map f
      extendedBy := d.extendedBy.map f
      implementedTypes := d.implementedTypes.map f
      implementedBy := d.implementedBy.map f }
  | .signature d => .signature { d with
      type := d.type.map f
      overwrites := d.overwrites.map f
      inheritedFrom := d.inheritedFrom.map f
      implementationOf := d.implementationOf.map f }
  | .param d => .param { d with type := d.type.map f }
  | .typeParam d => .typeParam { d with type := d.type.map f, default := d.default.map f }
  | variant => variant

/-- The declarations that the stored types own. -/
def literals (v : Variant) : List ReflectionId := v.types.flatMap Ty.declarations

/-! ### Slots -/

/-- The slots with the children in them, in the order of traversal. -/
def slots (v : Variant) : List (Role × List ReflectionId) :=
  match v with
  | .project d => [(.children, d.container.children), (.documents, d.container.documents)]
  | .declaration d =>
    [(.typeParameter, d.typeParameters), (.typeLiteral, v.literals), (.signatures, d.signatures),
     (.indexSignature, d.indexSignatures), (.getSignature, d.getSignature.toList),
     (.setSignature, d.setSignature.toList), (.children, d.container.children),
     (.documents, d.container.documents)]
  | .signature d =>
    [(.typeLiteral, v.literals), (.typeParameter, d.typeParameters), (.parameters, d.parameters)]
  | .param _ | .typeParam _ => [(.typeLiteral, v.literals)]
  | .reference _ | .document _ => []

/-- The children with their roles. -/
def structuralChildren (v : Variant) : List (ReflectionId × Role) :=
  v.slots.flatMap fun (role, ids) => ids.map (·, role)

/-- Put a child into the slot of a role; absent where the variant has no such slot. A declaration
that a type owns has its place in the type, so nothing changes for it. -/
def attach? (child : ReflectionId) : Role → Variant → Option Variant
  | .children, .project d =>
    some (.project { d with container := { d.container with children := d.container.children ++ [child] } })
  | .documents, .project d =>
    some (.project { d with container := { d.container with documents := d.container.documents ++ [child] } })
  | .children, .declaration d =>
    some (.declaration { d with container := { d.container with children := d.container.children ++ [child] } })
  | .documents, .declaration d =>
    some (.declaration { d with container := { d.container with documents := d.container.documents ++ [child] } })
  | .typeParameter, .declaration d => some (.declaration { d with typeParameters := d.typeParameters ++ [child] })
  | .signatures, .declaration d => some (.declaration { d with signatures := d.signatures ++ [child] })
  | .indexSignature, .declaration d =>
    some (.declaration { d with indexSignatures := d.indexSignatures ++ [child] })
  | .getSignature, .declaration d => some (.declaration { d with getSignature := some child })
  | .setSignature, .declaration d => some (.declaration { d with setSignature := some child })
  | .parameters, .signature d => some (.signature { d with parameters := d.parameters ++ [child] })
  | .typeParameter, .signature d => some (.signature { d with typeParameters := d.typeParameters ++ [child] })
  | .typeLiteral, .declaration d => some (.declaration d)
  | .typeLiteral, .signature d => some (.signature d)
  | .typeLiteral, .param d => some (.param d)
  | .typeLiteral, .typeParam d => some (.typeParam d)
  | _, _ => none

/-- The child taken out of the slot of a role. -/
def vacate (child : ReflectionId) : Role → Variant → Variant
  | .children, .project d => .project { d with
      container := { d.container with children := d.container.children.filter (· ≠ child) } }
  | .documents, .project d => .project { d with
      container := { d.container with documents := d.container.documents.filter (· ≠ child) } }
  | .children, .declaration d => .declaration { d with
      container := { d.container with children := d.container.children.filter (· ≠ child) } }
  | .documents, .declaration d => .declaration { d with
      container := { d.container with documents := d.container.documents.filter (· ≠ child) } }
  | .typeParameter, .declaration d =>
    .declaration { d with typeParameters := d.typeParameters.filter (· ≠ child) }
  | .signatures, .declaration d =>
    .declaration { d with signatures := d.signatures.filter (· ≠ child) }
  | .indexSignature, .declaration d =>
    .declaration { d with indexSignatures := d.indexSignatures.filter (· ≠ child) }
  | .getSignature, .declaration d =>
    .declaration { d with getSignature := d.getSignature.filter (· ≠ child) }
  | .setSignature, .declaration d =>
    .declaration { d with setSignature := d.setSignature.filter (· ≠ child) }
  | .parameters, .signature d =>
    .signature { d with parameters := d.parameters.filter (· ≠ child) }
  | .typeParameter, .signature d =>
    .signature { d with typeParameters := d.typeParameters.filter (· ≠ child) }
  | .typeLiteral, v =>
    v.mapTypes fun t => if child ∈ t.declarations then Ty.object else t
  | _, v => v

end Variant

namespace Reflection

/-- The main type. -/
def type? (r : Reflection) : Option Ty := r.variant.mainType?

/-- Every stored type, the main one first. -/
def types (r : Reflection) : List Ty := r.variant.types

/-- Every stored type replaced. -/
def mapTypes (f : Ty → Ty) (r : Reflection) : Reflection :=
  { r with variant := r.variant.mapTypes f }

/-- The declarations that the stored types own. -/
def literals (r : Reflection) : List ReflectionId := r.variant.literals

/-- The main type set before the reflection is registered; dropped where there is no place for it. -/
def withType (r : Reflection) (type : Ty) : Reflection :=
  match r.variant.setMainType? (some type) with
  | some variant => { r with variant := variant }
  | none => r

/-- The children with their roles. -/
def structuralChildren (r : Reflection) : List (ReflectionId × Role) :=
  r.variant.structuralChildren

/-- The children in turn up to the first one at which the walk stops, and whether it stopped. -/
def traverse (r : Reflection) (stops : ReflectionId → Role → Bool) :
    List (ReflectionId × Role) × Bool :=
  let rec go : List (ReflectionId × Role) → List (ReflectionId × Role) × Bool
    | [] => ([], false)
    | (id, role) :: rest =>
      if stops id role then ([(id, role)], true)
      else
        let (seen, stopped) := go rest
        ((id, role) :: seen, stopped)
  go r.structuralChildren

/-- The role of the first place in which a child stands. -/
def roleOf? (r : Reflection) (child : ReflectionId) : Option Role :=
  r.structuralChildren.lookup child

/-- Take a child out of a slot, and out of all groups and categories. -/
def detach (r : Reflection) (child : ReflectionId) (role : Role) : Reflection :=
  mapContainer (fun c => { c with
      groups := Group.removeFrom? c.groups child
      categories := Category.removeFrom? c.categories child })
    { r with variant := r.variant.vacate child role }

end Reflection

end DocTree
