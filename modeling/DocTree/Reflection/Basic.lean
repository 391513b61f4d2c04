import DocTree.Flags
import DocTree.Group
import DocTree.Kind
import DocTree.Source
import DocTree.Ty.Walk

/-!
Reflections: the documented entities. Reflections form a tree. A parent names its children in the
slots of its variant, and each child names its parent; the reflections themselves are kept by the
project. What a reflection is, a class, a signature, a parameter, is its variant together with its
kind.
-/

namespace DocTree

/-! ### Roles and variants -/

/-- What a child is to its parent. -/
inductive Role where
  | children | documents | parameters | typeParameter | signatures | indexSignature | getSignature
  | setSignature
  /-- A declaration that a type of the parent owns. -/
  | typeLiteral
  deriving DecidableEq, Repr

namespace Role

def all : List Role :=
  [.children, .documents, .parameters, .typeParameter, .signatures, .indexSignature, .getSignature,
   .setSignature, .typeLiteral]

def name : Role → String
  | .children => "children"
  | .documents => "documents"
  | .parameters => "parameters"
  | .typeParameter => "typeParameter"
  | .signatures => "signatures"
  | .indexSignature => "indexSignature"
  | .getSignature => "getSignature"
  | .setSignature => "setSignature"
  | .typeLiteral => "typeLiteral"

/-- The name as a title. -/
def title : Role → String
  | .children => "Children"
  | .documents => "Documents"
  | .parameters => "Parameters"
  | .typeParameter => "TypeParameter"
  | .signatures => "Signatures"
  | .indexSignature => "IndexSignature"
  | .getSignature => "GetSignature"
  | .setSignature => "SetSignature"
  | .typeLiteral => "TypeLiteral"

def ofName? (name : String) : Option Role := all.find? (·.name = name)

end Role

/-- The sort of a reflection in serialized form. -/
inductive VariantTag where
  | project | declaration | signature | param | typeParam | reference | document
  deriving DecidableEq, Repr

namespace VariantTag

def all : List VariantTag :=
  [.project, .declaration, .signature, .param, .typeParam, .reference, .document]

def name : VariantTag → String
  | .project => "project"
  | .declaration => "declaration"
  | .signature => "signature"
  | .param => "param"
  | .typeParam => "typeParam"
  | .reference => "reference"
  | .document => "document"

def ofName? (name : String) : Option VariantTag := all.find? (·.name = name)

end VariantTag

/-- How a type parameter varies with its argument. -/
inductive Variance where
  | contravariant
  | covariant
  | invariant
  deriving DecidableEq, Repr

namespace Variance

def word : Variance → String
  | .contravariant => "in"
  | .covariant => "out"
  | .invariant => "in out"

def ofWord? (word : String) : Option Variance :=
  [.contravariant, .covariant, .invariant].find? (·.word = word)

end Variance

/-! ### What the variants hold -/

/-- Children and documents, and how they are grouped for readers. -/
structure Container where
  children : List ReflectionId
  documents : List ReflectionId
  groups : Option (List Group)
  categories : Option (List Category)
  deriving DecidableEq, Repr

def Container.empty : Container := ⟨[], [], none, none⟩

/-- What only the root holds. -/
structure ProjectData where
  container : Container
  packageName : Option String
  packageVersion : Option String
  readme : Option (List Part)
  deriving DecidableEq, Repr

/-- What a declaration holds. -/
structure Declaration where
  container : Container
  sources : List Source
  type : Option Ty
  typeParameters : List ReflectionId
  signatures : List ReflectionId
  indexSignatures : List ReflectionId
  getSignature : Option ReflectionId
  setSignature : Option ReflectionId
  defaultValue : Option String
  overwrites : Option Ty
  inheritedFrom : Option Ty
  implementationOf : Option Ty
  extendedTypes : List Ty
  extendedBy : List Ty
  implementedTypes : List Ty
  implementedBy : List Ty
  packageVersion : Option String
  readme : Option (List Part)
  deriving Repr

/-- What a signature holds. -/
structure Signature where
  sources : List Source
  parameters : List ReflectionId
  typeParameters : List ReflectionId
  type : Option Ty
  overwrites : Option Ty
  inheritedFrom : Option Ty
  implementationOf : Option Ty
  deriving Repr

/-- What a parameter holds. -/
structure Parameter where
  type : Option Ty
  defaultValue : Option String
  deriving Repr

/-- What a type parameter holds; its type is what it must extend. -/
structure TypeParameter where
  type : Option Ty
  default : Option Ty
  variance : Option Variance
  deriving Repr

/-- What a document holds. -/
structure Document where
  content : List Part
  frontmatter : Fields
  deriving Repr

/-- Where a reference leads: to a known reflection or nowhere, or to a full name. A name is looked up
once and the outcome is kept, success and failure alike. -/
inductive ReferenceTarget where
  | fixed (id : Option ReflectionId)
  | named (name : String) (outcome : Option (Option ReflectionId))
  deriving DecidableEq, Repr

namespace ReferenceTarget

def broken : ReferenceTarget := .fixed none

def toId (id : ReflectionId) : ReferenceTarget := .fixed (some id)

/-- A name that has not been looked up. -/
def toName (name : String) : ReferenceTarget := .named name none

def name? : ReferenceTarget → Option String
  | .fixed _ => none
  | .named name _ => some name

/-- What is known of the target. -/
def outcome? : ReferenceTarget → Option (Option ReflectionId)
  | .fixed id => some id
  | .named _ outcome => outcome

/-- Look the name up, if it is one and has not been. -/
def settle (lookup : String → Option ReflectionId) : ReferenceTarget → ReferenceTarget
  | .named name none => .named name (some (lookup name))
  | target => target

/-- The reflection that a settled target leads to. -/
def id? (target : ReferenceTarget) : Option ReflectionId := target.outcome?.join

end ReferenceTarget

/-- What a reflection is. -/
inductive Variant where
  | project (data : ProjectData)
  | declaration (data : Declaration)
  | signature (data : Signature)
  | param (data : Parameter)
  | typeParam (data : TypeParameter)
  | reference (target : ReferenceTarget)
  | document (data : Document)
  deriving Repr

def Variant.tag : Variant → VariantTag
  | .project _ => .project
  | .declaration _ => .declaration
  | .signature _ => .signature
  | .param _ => .param
  | .typeParam _ => .typeParam
  | .reference _ => .reference
  | .document _ => .document

/-! ### Reflections -/

/-- A documented entity. -/
structure Reflection where
  id : ReflectionId
  name : String
  kind : Kind
  flags : Flags
  comment : Option Comment
  parent : Option ReflectionId
  /-- Is shown on a page of its own. -/
  ownDocument : Bool
  /-- What extensions keep here, in the order of the keys. -/
  pluginData : Fields
  /-- The name in addresses, once it has been asked for. -/
  anchor : Option String
  /-- How often each anchor, in lower case, was given on the page of this reflection. -/
  anchorCounts : List (String × Nat)
  variant : Variant
  deriving Repr

namespace Reflection

/-- A reflection that no project holds; its number says nothing yet. -/
def ofVariant (name : String) (kind : Kind) (variant : Variant) : Reflection :=
  ⟨0, name, kind, .none, none, none, false, [], none, [], variant⟩

/-- The root of a project. -/
def project (name : String) : Reflection :=
  { ofVariant name .project (.project ⟨.empty, none, none, none⟩) with
    id := ReflectionId.project
    ownDocument := true }

def declaration (name : String) (kind : Kind) : Reflection :=
  ofVariant name kind <| .declaration
    ⟨.empty, [], none, [], [], [], none, none, none, none, none, none, [], [], [], [], none, none⟩

def signature (name : String) (kind : Kind) : Reflection :=
  ofVariant name kind (.signature ⟨[], [], [], none, none, none, none⟩)

def parameter (name : String) : Reflection :=
  ofVariant name .parameter (.param ⟨none, none⟩)

def typeParameter (name : String) : Reflection :=
  ofVariant name .typeParameter (.typeParam ⟨none, none, none⟩)

def reference (name : String) (target : ReferenceTarget) : Reflection :=
  ofVariant name .reference (.reference target)

def document (name : String) (content : List Part) : Reflection :=
  ofVariant name .document (.document ⟨content, []⟩)

def tag (r : Reflection) : VariantTag := r.variant.tag

def isProject (r : Reflection) : Bool := r.tag = .project

def isReference (r : Reflection) : Bool := r.tag = .reference

/-- Put a value under a key of the plugin data, which stays in the order of the keys. -/
def putSorted (key : String) (value : Json) : Fields → Fields
  | [] => [(key, value)]
  | (k, v) :: rest =>
    if key = k then (key, value) :: rest
    else if key < k then (key, value) :: (k, v) :: rest
    else (k, v) :: putSorted key value rest

/-- Keep a value for an extension. -/
def setPlugin (r : Reflection) (key : String) (value : Json) : Reflection :=
  { r with pluginData := putSorted key value r.pluginData }

/-- The children, documents and groupings, where the variant has them. -/
def container? (r : Reflection) : Option Container :=
  match r.variant with
  | .project d => some d.container
  | .declaration d => some d.container
  | _ => none

/-- The container replaced, where the variant has one. -/
def mapContainer (f : Container → Container) (r : Reflection) : Reflection :=
  match r.variant with
  | .project d => { r with variant := .project { d with container := f d.container } }
  | .declaration d => { r with variant := .declaration { d with container := f d.container } }
  | _ => r

def sources (r : Reflection) : List Source :=
  match r.variant with
  | .declaration d => d.sources
  | .signature d => d.sources
  | _ => []

/-- Where a reference leads. -/
def target? (r : Reflection) : Option ReferenceTarget :=
  match r.variant with
  | .reference target => some target
  | _ => none

/-- A reference with another target; other reflections stay. -/
def mapTarget (f : ReferenceTarget → ReferenceTarget) (r : Reflection) : Reflection :=
  match r.variant with
  | .reference target => { r with variant := .reference (f target) }
  | _ => r

/-- All pieces of text that a reflection holds: its comment, then its readme or content. -/
def parts (r : Reflection) : List Part :=
  (r.comment.elim [] Comment.parts) ++
    match r.variant with
    | .project d => d.readme.getD []
    | .declaration d => d.readme.getD []
    | .document d => d.content
    | _ => []

/-- Every piece of text replaced. -/
def mapParts (f : Part → Part) (r : Reflection) : Reflection :=
  { r with
    comment := r.comment.map (·.mapParts f)
    variant := match r.variant with
      | .project d => .project { d with readme := d.readme.map (·.map f) }
      | .declaration d => .declaration { d with readme := d.readme.map (·.map f) }
      | .document d => .document { d with content := d.content.map f }
      | variant => variant }

end Reflection

end DocTree
