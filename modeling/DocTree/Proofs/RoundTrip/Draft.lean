import Mathlib.Algebra.Ring.Nat
import DocTree.Proofs.Reading.Reads
import DocTree.Proofs.RoundTrip.Fields

/-!
What reading makes of what was written, before the work that was put off is carried out. Numbers are
given in the order of reading, so the number of a reflection follows from how many reflections are
written before it; what leads to a reflection holds its old number. Whatever leads nowhere is left
out, and a path becomes what its written form says.
-/

namespace DocTree

/-! ### Values -/

/-- A symbol written and read again. -/
def Symbol.reread (root : String) (s : Symbol) : Symbol :=
  .ofSerialized root (s.serializedFile root) s.name

/-- A place in a source file written and read again. -/
def Source.reread (root : String) (s : Source) : Source :=
  ⟨s.fileName, .resolve root s.fileName, if s.line < Json.wordBound then s.line else 0,
    if s.column < Json.wordBound then s.column else 0, s.url⟩

/-- A literal written and read again. What is not finite has no written form. -/
def Literal.reread : Literal → Literal
  | .number x =>
    match x.toInt? with
    | some n => if n.natAbs ≤ Writer.maxSafeInteger then .number (.ofInt n) else .number x
    | none => if x.isFinite then .number x else .null
  | value => value

/-- Flags written and read again. -/
def Flags.reread (flags : Flags) : Flags := .ofFields flags.toFields

/-- A project that is written and read again. -/
structure Copying where
  project : Project
  root : String
  /-- The new numbers of files by their old ones. -/
  files : List (Nat × FileId)
  /-- How many reflections are written with one, itself included. -/
  span : ReflectionId → Nat

namespace Copying

variable (c : Copying)

/-- The numbers in the project are those of the registry and fit into 32 bits, and only the root is a
project. -/
structure Legible : Prop where
  id : ∀ i r, c.project.get? i = some r → r.id = i
  nested : ∀ i r, c.project.get? i = some r → i ≠ ReflectionId.project → r.isProject = false
  small : c.project.arena.size ≤ Json.wordBound

def writer : Writer := ⟨.standard, c.project, c.root⟩

/-- Where the copy is read. -/
def site (clean : Prop) : Site := ⟨c.root, c.files, clean⟩

/-- The numbers that are registered. -/
def live (ids : List ReflectionId) : List ReflectionId := ids.filter c.project.contains

/-! ### Texts -/

def link? : LinkTarget → Option LinkTarget
  | .reflection id => if c.project.contains id then some (.pending id) else none
  | .symbol s => some (.symbol (s.reread c.root))
  | .url address => some (.url address)
  | .pending _ => none

/-- The file of a link; none if it is not listed. -/
def file? (file : FileId) : Option FileId :=
  if file < Json.wordBound then c.files.lookup file else none

def part : Part → Part
  | .text s => .text s
  | .code s => .code s
  | .inlineTag tag s target linkText => .inlineTag tag s (target.bind c.link?) linkText
  | .relativeLink s file anchor => .relativeLink s (file.bind c.file?) anchor

def parts (ps : List Part) : List Part := ps.map c.part

def blockTag (t : BlockTag) : BlockTag := ⟨t.tag, t.name, c.parts t.content⟩

def comment (m : Comment) : Comment :=
  m.modifierTags.foldl Comment.addModifier
    ⟨c.parts m.summary, m.blockTags.map c.blockTag, [], m.label⟩

/-- A comment that says nothing is not written. -/
def comment? (m : Option Comment) : Option Comment := (m.filter fun m => !m.isEmpty).map c.comment

def category (k : Category) : Category := ⟨k.title, k.description.map c.parts, c.live k.children⟩

/-- No list is written when it has no items. -/
def categories? (ks : Option (List Category)) : Option (List Category) :=
  if (ks.getD []).isEmpty then none else some ((ks.getD []).map c.category)

def group (g : Group) : Group :=
  ⟨g.title, g.description.map c.parts, c.live g.children, c.categories? g.categories⟩

def groups? (gs : Option (List Group)) : Option (List Group) :=
  if (gs.getD []).isEmpty then none else some ((gs.getD []).map c.group)

def sources (ss : List Source) : List Source := ss.map (·.reread c.root)

/-! ### Numbers -/

/-- How many reflections are written with all of these. -/
def total (ids : List ReflectionId) : Nat := (ids.map c.span).sum

/-- The new numbers of reflections that are read one after the other. -/
def run (b : Nat) : List ReflectionId → List ReflectionId
  | [] => []
  | id :: rest => b :: run (b + c.span id) rest

/-! ### Types -/

/-- Where a named type leads: what it is found to lead to is kept by its number. -/
def refTarget (target : RefTarget) : RefTarget :=
  match c.project.resolveTarget? target with
  | some id => .pending id
  | none =>
    match target with
    | .symbol s => .symbol (s.reread c.root)
    | _ => .broken

def ref (head : Ref) : Ref := { head with target := c.refTarget head.target }

def summaries (lists : List (List Part)) : List (List Part) := lists.map c.parts

/-- How many reflections are written with types. -/
def owned (types : List Ty) : Nat := c.total (types.flatMap Ty.declarations)

mutual

/-- A type whose declarations get their numbers from `b` on. -/
def ty (b : Nat) : Ty → Ty
  | .array x => .array (ty b x)
  | .conditional x y z w =>
    let b₁ := b + c.total x.declarations
    let b₂ := b₁ + c.total y.declarations
    let b₃ := b₂ + c.total z.declarations
    .conditional (ty b x) (ty b₁ y) (ty b₂ z) (ty b₃ w)
  | .indexedAccess x y => .indexedAccess (ty b x) (ty (b + c.total x.declarations) y)
  | .inferred name x => .inferred name (tyOption b x)
  | .intersection xs => .intersection (tyList b xs)
  | .intrinsic name => .intrinsic name
  | .literal value => .literal value.reread
  | .mapped parameter x y fixed missing z =>
    let b₁ := b + c.total x.declarations
    let b₂ := b₁ + c.total y.declarations
    .mapped parameter (ty b x) (ty b₁ y) fixed missing (tyOption b₂ z)
  | .namedTupleMember name isOptional x => .namedTupleMember name isOptional (ty b x)
  | .optional x => .optional (ty b x)
  | .predicate name asserts x => .predicate name asserts (tyOption b x)
  | .query head args => .query (c.ref head) (tyArgs b args)
  | .reference head args => .reference (c.ref head) (tyArgs b args)
  | .reflection _ => .reflection b
  | .rest x => .rest (ty b x)
  | .templateLiteral head tail => .templateLiteral head (tyTail b tail)
  | .tuple xs => .tuple (tyList b xs)
  | .operator op x => .operator op (ty b x)
  | .union xs lists => .union (tyList b xs) (lists.map c.summaries)
  | .unknown name => .unknown name

def tyOption (b : Nat) : Option Ty → Option Ty
  | none => none
  | some x => some (ty b x)

/-- No list of type arguments is written when it has no items. -/
def tyArgs (b : Nat) : Option (List Ty) → Option (List Ty)
  | none | some [] => none
  | some (x :: xs) => some (ty b x :: tyList (b + c.total x.declarations) xs)

def tyList (b : Nat) : List Ty → List Ty
  | [] => []
  | x :: xs => ty b x :: tyList (b + c.total x.declarations) xs

def tyTail (b : Nat) : List (Ty × String) → List (Ty × String)
  | [] => []
  | (x, text) :: tail => (ty b x, text) :: tyTail (b + c.total x.declarations) tail

end

/-! ### Reflections -/

def container (b : Nat) (k : Container) : Container :=
  ⟨c.run b (c.live k.children), c.run (b + c.total (c.live k.children)) (c.live k.documents),
    none, none⟩

def declaration (b : Nat) (d : Declaration) : Declaration :=
  let b₁ := b + c.total (c.live d.container.children) + c.total (c.live d.container.documents)
  let b₂ := b₁ + c.total (c.live d.typeParameters)
  let b₃ := b₂ + c.owned d.type.toList
  let b₄ := b₃ + c.total (c.live d.signatures)
  let b₅ := b₄ + c.total (c.live d.indexSignatures)
  let b₆ := b₅ + c.total (c.live d.getSignature.toList)
  let b₇ := b₆ + c.total (c.live d.setSignature.toList)
  let b₈ := b₇ + c.owned d.overwrites.toList
  let b₉ := b₈ + c.owned d.inheritedFrom.toList
  let b₁₀ := b₉ + c.owned d.implementationOf.toList
  let b₁₁ := b₁₀ + c.owned d.extendedTypes
  let b₁₂ := b₁₁ + c.owned d.extendedBy
  let b₁₃ := b₁₂ + c.owned d.implementedTypes
  { container := c.container b d.container
    sources := c.sources d.sources
    type := c.tyOption b₂ d.type
    typeParameters := c.run b₁ (c.live d.typeParameters)
    signatures := c.run b₃ (c.live d.signatures)
    indexSignatures := c.run b₄ (c.live d.indexSignatures)
    getSignature := (c.run b₅ (c.live d.getSignature.toList)).getLast?
    setSignature := (c.run b₆ (c.live d.setSignature.toList)).getLast?
    defaultValue := d.defaultValue
    overwrites := c.tyOption b₇ d.overwrites
    inheritedFrom := c.tyOption b₈ d.inheritedFrom
    implementationOf := c.tyOption b₉ d.implementationOf
    extendedTypes := c.tyList b₁₀ d.extendedTypes
    extendedBy := c.tyList b₁₁ d.extendedBy
    implementedTypes := c.tyList b₁₂ d.implementedTypes
    implementedBy := c.tyList b₁₃ d.implementedBy
    packageVersion := d.packageVersion
    readme := d.readme.map c.parts }

def signature (b : Nat) (d : Signature) : Signature :=
  let b₁ := b + c.total (c.live d.typeParameters)
  let b₂ := b₁ + c.total (c.live d.parameters)
  let b₃ := b₂ + c.owned d.type.toList
  let b₄ := b₃ + c.owned d.overwrites.toList
  let b₅ := b₄ + c.owned d.inheritedFrom.toList
  { sources := c.sources d.sources
    parameters := c.run b₁ (c.live d.parameters)
    typeParameters := c.run b (c.live d.typeParameters)
    type := c.tyOption b₂ d.type
    overwrites := c.tyOption b₃ d.overwrites
    inheritedFrom := c.tyOption b₄ d.inheritedFrom
    implementationOf := c.tyOption b₅ d.implementationOf }

/-- What a variant holds; groupings and the target of a reference come later. -/
def variant (b : Nat) : Variant → Variant
  | .project d => .project
      ⟨c.container b d.container, d.packageName, d.packageVersion, d.readme.map c.parts⟩
  | .declaration d => .declaration (c.declaration b d)
  | .signature d => .signature (c.signature b d)
  | .param d => .param ⟨c.tyOption b d.type, d.defaultValue⟩
  | .typeParam d => .typeParam
      ⟨c.tyOption b d.type, c.tyOption (b + c.owned d.type.toList) d.default, d.variance⟩
  | .reference _ => .reference .broken
  | .document d => .document ⟨c.parts d.content, d.frontmatter⟩

/-- The reflections inside one, in the order in which they are read. -/
def inOrder : Variant → List ReflectionId
  | .project d => c.live d.container.children ++ c.live d.container.documents
  | .declaration d =>
    c.live d.container.children ++ c.live d.container.documents ++ c.live d.typeParameters ++
      d.type.toList.flatMap Ty.declarations ++ c.live d.signatures ++ c.live d.indexSignatures ++
      c.live d.getSignature.toList ++ c.live d.setSignature.toList ++
      d.overwrites.toList.flatMap Ty.declarations ++ d.inheritedFrom.toList.flatMap Ty.declarations ++
      d.implementationOf.toList.flatMap Ty.declarations ++ d.extendedTypes.flatMap Ty.declarations ++
      d.extendedBy.flatMap Ty.declarations ++ d.implementedTypes.flatMap Ty.declarations ++
      d.implementedBy.flatMap Ty.declarations
  | .signature d =>
    c.live d.typeParameters ++ c.live d.parameters ++ d.type.toList.flatMap Ty.declarations ++
      d.overwrites.toList.flatMap Ty.declarations ++ d.inheritedFrom.toList.flatMap Ty.declarations ++
      d.implementationOf.toList.flatMap Ty.declarations
  | .param d => d.type.toList.flatMap Ty.declarations
  | .typeParam d =>
    d.type.toList.flatMap Ty.declarations ++ d.default.toList.flatMap Ty.declarations
  | .reference _ | .document _ => []

/-- The bare reflection that is registered before the fields are read. -/
def bare (r : Reflection) : Reflection :=
  match r.variant with
  | .project _ => .project r.name
  | .declaration _ => .declaration r.name r.kind
  | .signature _ => .signature r.name r.kind
  | .param _ => { Reflection.parameter r.name with kind := r.kind }
  | .typeParam _ => { Reflection.typeParameter r.name with kind := r.kind }
  | .reference _ => { Reflection.reference r.name .broken with kind := r.kind }
  | .document _ => .document r.name []

/-- A bare reflection with its number after its fields were read. -/
def filled (n : Nat) (r head : Reflection) : Reflection :=
  { head with
    flags := r.flags.reread
    comment := c.comment? r.comment
    variant := c.variant (n + 1) r.variant }

/-- A place in the copy: its number, the reflection that is copied there, and its new parent, which the
root does not have. -/
structure Spot where
  number : Nat
  source : ReflectionId
  owner : Option Nat

/-- What stands at a place. -/
def draft (s : Spot) : Reflection :=
  match c.project.get? s.source with
  | some r => c.filled s.number r { bare r with id := s.number, parent := s.owner }
  | none => .project ""

/-- Reflections that are read one after the other from the number `b` on fill these places. -/
inductive Laid : Nat → Nat → List ReflectionId → List Spot → Prop
  | nil {owner b : Nat} : Laid owner b [] []
  | cons {owner b : Nat} {x : ReflectionId} {r : Reflection} {xs : List ReflectionId}
      {inner rest : List Spot} : c.project.get? x = some r → c.span x = inner.length + 1 →
      Laid b (b + 1) (c.inOrder r.variant) inner → Laid owner (b + c.span x) xs rest →
      Laid owner b (x :: xs) (⟨b, x, some owner⟩ :: (inner ++ rest))

/-! ### Work that is put off -/

/-- How a container is grouped, by old numbers. -/
def groupWork (n : Nat) (r : Reflection) : List Deferred :=
  match r.container? with
  | none => []
  | some k =>
    if (c.groups? k.groups).isSome || (c.categories? k.categories).isSome then
      [.groupings n (c.groups? k.groups) (c.categories? k.categories)]
    else []

/-- Where a reference leads, by its old number. -/
def targetWork (n : Nat) (r : Reflection) : List Deferred :=
  match r.variant with
  | .reference _ => (c.project.targetOf? r.id).toList.map (.target n)
  | _ => []

end Copying

end DocTree
