import DocTree.Comment
import DocTree.Decimal.Double

/-!
Type expressions. A type is a finite tree; the node `reflection` owns a declaration that holds the
members of an object type, and a named reference points at a declaration without owning it. What a
reference says besides its type arguments is its head, so that the recursion of the tree runs over
types alone.
-/

namespace DocTree

open Decimal (Double)

/-! ### Leaves -/

/-- The value of a literal type. -/
inductive Literal where
  | string (s : String)
  | number (x : Double)
  | bigInt (negative : Bool) (digits : String)
  | boolean (b : Bool)
  | null
  deriving DecidableEq, Repr

/-- A modifier of a mapped type, given or taken away. -/
inductive Modifier where
  | add
  | remove
  deriving DecidableEq, Repr

def Modifier.sign : Modifier → String
  | .add => "+"
  | .remove => "-"

def Modifier.ofSign? (sign : String) : Option Modifier :=
  [.add, .remove].find? (·.sign = sign)

/-- An operator in front of a type. -/
inductive Operator where
  | keyof
  | unique
  | readonly
  deriving DecidableEq, Repr

def Operator.word : Operator → String
  | .keyof => "keyof"
  | .unique => "unique"
  | .readonly => "readonly"

def Operator.ofWord? (word : String) : Option Operator :=
  [.keyof, .unique, .readonly].find? (·.word = word)

/-- What a named reference points at. -/
inductive RefTarget where
  | reflection (id : ReflectionId)
  /-- To be looked up among the symbols of the project. -/
  | symbol (s : Symbol)
  /-- The number of a reflection in a serialized project, before it is known in the new one. -/
  | pending (old : Nat)
  /-- Nothing that is documented. -/
  | broken
  deriving DecidableEq, Repr

/-- A named reference without its type arguments. -/
structure Ref where
  name : String
  target : RefTarget
  qualifiedName : Option String
  /-- The package that declares the target, if it is another one. -/
  package : Option String
  externalUrl : Option String
  toTypeParameter : Bool
  /-- Of a value and a type of this name the value is meant. -/
  preferValues : Bool
  deriving DecidableEq, Repr

namespace Ref

def ofTarget (name : String) (target : RefTarget) : Ref :=
  ⟨name, target, none, none, none, false, false⟩

def toReflection (name : String) (id : ReflectionId) : Ref := ofTarget name (.reflection id)

/-- A reference to a symbol is qualified by the symbol's name. -/
def ofSymbol (name : String) (s : Symbol) : Ref :=
  { ofTarget name (.symbol s) with qualifiedName := some s.name }

def broken (name : String) : Ref := ofTarget name .broken

/-- Points at nothing on purpose: neither into the documentation nor to an address. -/
def isIntentionallyBroken (r : Ref) : Bool :=
  r.target = .broken && r.externalUrl.isNone

end Ref

/-! ### Types -/

/-- A type expression. -/
inductive Ty where
  | array (element : Ty)
  | conditional (check extend yes no : Ty)
  | indexedAccess (object index : Ty)
  | inferred (name : String) (bound : Option Ty)
  | intersection (types : List Ty)
  | intrinsic (name : String)
  | literal (value : Literal)
  | mapped (parameter : String) (source template : Ty) (readonly optional : Option Modifier)
      (nameType : Option Ty)
  | namedTupleMember (name : String) (isOptional : Bool) (element : Ty)
  | optional (element : Ty)
  | predicate (name : String) (asserts : Bool) (target : Option Ty)
  | query (head : Ref) (args : Option (List Ty))
  | reference (head : Ref) (args : Option (List Ty))
  | reflection (declaration : ReflectionId)
  | rest (element : Ty)
  | templateLiteral (head : String) (tail : List (Ty × String))
  | tuple (elements : List Ty)
  | operator (operator : Operator) (target : Ty)
  | union (types : List Ty) (summaries : Option (List (List Part)))
  | unknown (name : String)
  deriving Repr, Inhabited

/-- The sort of a type. -/
inductive TypeKind where
  | array | conditional | indexedAccess | inferred | intersection | intrinsic | literal | mapped
  | namedTupleMember | optional | predicate | query | reference | reflection | rest
  | templateLiteral | tuple | typeOperator | union | unknown
  deriving DecidableEq, Repr

namespace TypeKind

/-- Every sort, in alphabetical order. -/
def all : List TypeKind :=
  [.array, .conditional, .indexedAccess, .inferred, .intersection, .intrinsic, .literal, .mapped,
   .namedTupleMember, .optional, .predicate, .query, .reference, .reflection, .rest,
   .templateLiteral, .tuple, .typeOperator, .union, .unknown]

/-- The serialized name. -/
def tag : TypeKind → String
  | .array => "array"
  | .conditional => "conditional"
  | .indexedAccess => "indexedAccess"
  | .inferred => "inferred"
  | .intersection => "intersection"
  | .intrinsic => "intrinsic"
  | .literal => "literal"
  | .mapped => "mapped"
  | .namedTupleMember => "namedTupleMember"
  | .optional => "optional"
  | .predicate => "predicate"
  | .query => "query"
  | .reference => "reference"
  | .reflection => "reflection"
  | .rest => "rest"
  | .templateLiteral => "templateLiteral"
  | .tuple => "tuple"
  | .typeOperator => "typeOperator"
  | .union => "union"
  | .unknown => "unknown"

def ofTag? (tag : String) : Option TypeKind := all.find? (·.tag = tag)

end TypeKind

namespace Ty

def kind : Ty → TypeKind
  | .array .. => .array
  | .conditional .. => .conditional
  | .indexedAccess .. => .indexedAccess
  | .inferred .. => .inferred
  | .intersection .. => .intersection
  | .intrinsic .. => .intrinsic
  | .literal .. => .literal
  | .mapped .. => .mapped
  | .namedTupleMember .. => .namedTupleMember
  | .optional .. => .optional
  | .predicate .. => .predicate
  | .query .. => .query
  | .reference .. => .reference
  | .reflection .. => .reflection
  | .rest .. => .rest
  | .templateLiteral .. => .templateLiteral
  | .tuple .. => .tuple
  | .operator .. => .typeOperator
  | .union .. => .union
  | .unknown .. => .unknown

def isIntrinsic (t : Ty) (name : String) : Bool :=
  match t with
  | .intrinsic n => n = name
  | _ => false

def isBoolean (t : Ty) (b : Bool) : Bool :=
  match t with
  | .literal (.boolean c) => c = b
  | _ => false

/-- The union of types. The first `true` and the first `false` together become `boolean`, at the
place of the earlier one. -/
def unionOf (types : List Ty) : Ty :=
  match types.findIdx? (·.isBoolean true), types.findIdx? (·.isBoolean false) with
  | some i, some j => .union ((types.set (min i j) (.intrinsic "boolean")).eraseIdx (max i j)) none
  | _, _ => .union types none

/-- What stands in place of a type that mentions something removed. -/
def object : Ty := .intrinsic "Object"

/-! ### Equality -/

/-- Equal values; numbers are compared as numbers. -/
def sameLiteral : Literal → Literal → Bool
  | .number x, .number y => x.equal y
  | v, w => v = w

mutual

/-- Equal in every field, literal numbers compared as numbers: one that is no number makes a type
differ from itself. -/
def same : Ty → Ty → Bool
  | .array a, .array b => same a b
  | .conditional a b c d, .conditional a' b' c' d' => same a a' && same b b' && same c c' && same d d'
  | .indexedAccess a b, .indexedAccess a' b' => same a a' && same b b'
  | .inferred n a, .inferred n' a' => n = n' && sameOption a a'
  | .intersection as, .intersection bs => sameList as bs
  | .intrinsic n, .intrinsic n' => n = n'
  | .literal v, .literal w => sameLiteral v w
  | .mapped p a b r o n, .mapped p' a' b' r' o' n' =>
    p = p' && same a a' && same b b' && r = r' && o = o' && sameOption n n'
  | .namedTupleMember n o a, .namedTupleMember n' o' a' => n = n' && o = o' && same a a'
  | .optional a, .optional b => same a b
  | .predicate n s a, .predicate n' s' a' => n = n' && s = s' && sameOption a a'
  | .query h as, .query h' bs => h = h' && sameArgs as bs
  | .reference h as, .reference h' bs => h = h' && sameArgs as bs
  | .reflection d, .reflection d' => d = d'
  | .rest a, .rest b => same a b
  | .templateLiteral h as, .templateLiteral h' bs => h = h' && sameTail as bs
  | .tuple as, .tuple bs => sameList as bs
  | .operator o a, .operator o' a' => o = o' && same a a'
  | .union as s, .union bs s' => sameList as bs && s = s'
  | .unknown n, .unknown n' => n = n'
  | _, _ => false

def sameOption : Option Ty → Option Ty → Bool
  | none, none => true
  | some a, some b => same a b
  | _, _ => false

def sameArgs : Option (List Ty) → Option (List Ty) → Bool
  | none, none => true
  | some as, some bs => sameList as bs
  | _, _ => false

def sameList : List Ty → List Ty → Bool
  | [], [] => true
  | a :: as, b :: bs => same a b && sameList as bs
  | _, _ => false

def sameTail : List (Ty × String) → List (Ty × String) → Bool
  | [], [] => true
  | (a, s) :: as, (b, t) :: bs => same a b && s = t && sameTail as bs
  | _, _ => false

end

end Ty

end DocTree
