import DocTree.Json.Basic

/-!
Kinds of reflections. A kind is a set of bits of which a reflection has one; a group of kinds is a
set too, so that belonging to a group is one test. The bits are part of the serialized form, and bits
without a meaning are kept.
-/

namespace DocTree

/-- A set of kinds. -/
structure Kind where
  bits : UInt32
  deriving DecidableEq, Repr, Inhabited

namespace Kind

instance : OrOp Kind := ⟨fun a b => ⟨a.bits ||| b.bits⟩⟩

def none : Kind := ⟨0⟩
def project : Kind := ⟨0x1⟩
def module : Kind := ⟨0x2⟩
def namespace_ : Kind := ⟨0x4⟩
def enum : Kind := ⟨0x8⟩
def enumMember : Kind := ⟨0x10⟩
def variable_ : Kind := ⟨0x20⟩
def function : Kind := ⟨0x40⟩
def class_ : Kind := ⟨0x80⟩
def interface : Kind := ⟨0x100⟩
def constructor : Kind := ⟨0x200⟩
def property : Kind := ⟨0x400⟩
def method : Kind := ⟨0x800⟩
def callSignature : Kind := ⟨0x1000⟩
def indexSignature : Kind := ⟨0x2000⟩
def constructorSignature : Kind := ⟨0x4000⟩
def parameter : Kind := ⟨0x8000⟩
def typeLiteral : Kind := ⟨0x10000⟩
def typeParameter : Kind := ⟨0x20000⟩
def accessor : Kind := ⟨0x40000⟩
def getSignature : Kind := ⟨0x80000⟩
def setSignature : Kind := ⟨0x100000⟩
def typeAlias : Kind := ⟨0x200000⟩
def reference : Kind := ⟨0x400000⟩
def document : Kind := ⟨0x800000⟩

/-! ### Groups -/

/-- What a class has as its members. -/
def classMember : Kind := accessor ||| constructor ||| method ||| property

/-- Signatures whose own names say nothing that their parent's name does not. -/
def unnamedSignature : Kind :=
  constructorSignature ||| callSignature ||| getSignature ||| setSignature

/-! ### Names -/

/-- Every single kind with its name for one and for several, in the order of the bits. -/
def names : List (Kind × String × String) :=
  [(project, "Project", "Projects"),
   (module, "Module", "Modules"),
   (namespace_, "Namespace", "Namespaces"),
   (enum, "Enumeration", "Enumerations"),
   (enumMember, "Enumeration Member", "Enumeration Members"),
   (variable_, "Variable", "Variables"),
   (function, "Function", "Functions"),
   (class_, "Class", "Classes"),
   (interface, "Interface", "Interfaces"),
   (constructor, "Constructor", "Constructors"),
   (property, "Property", "Properties"),
   (method, "Method", "Methods"),
   (callSignature, "Call Signature", "Call Signatures"),
   (indexSignature, "Index Signature", "Index Signatures"),
   (constructorSignature, "Constructor Signature", "Constructor Signatures"),
   (parameter, "Parameter", "Parameters"),
   (typeLiteral, "Type Literal", "Type Literals"),
   (typeParameter, "Type Parameter", "Type Parameters"),
   (accessor, "Accessor", "Accessors"),
   (getSignature, "Get Signature", "Get Signatures"),
   (setSignature, "Set Signature", "Set Signatures"),
   (typeAlias, "Type Alias", "Type Aliases"),
   (reference, "Reference", "References"),
   (document, "Document", "Documents")]

/-- The single kinds, in the order of the bits. -/
def primary : List Kind := names.map (·.1)

/-- The name for one reflection; only single kinds have one. -/
def singular (k : Kind) : String :=
  ((names.lookup k).map (·.1)).getD "Unknown"

/-- The name for several reflections; only single kinds have one. -/
def plural (k : Kind) : String :=
  ((names.lookup k).map (·.2)).getD "Unknown"

/-- Shares a bit with the group. -/
def isIn (k group : Kind) : Bool :=
  k.bits &&& group.bits ≠ 0

/-- The serialized form. -/
def toJson (k : Kind) : Json := .ofNat k.bits.toNat

/-- Read from the serialized form. -/
def ofJson? (j : Json) : Option Kind :=
  j.asWord?.map fun bits => ⟨UInt32.ofNat bits⟩

end Kind

end DocTree
