import DocTree.Writer.Value

/-!
The standard form of types. A declaration that a type owns is written inside it, by a function that is
given. A reference is written as the number of the reflection that it leads to, else as its symbol,
else as the number of nothing.
-/

namespace DocTree.Writer

open Decimal (Double)

/-- The greatest number up to which every integer is a double. -/
def maxSafeInteger : Nat := Nat.pow 2 53 - 1

/-- A number: whole ones without a fraction, and `null` for what has no form in JSON. -/
def number (x : Double) : Json :=
  match x.toInt? with
  | some n => if n.natAbs ≤ maxSafeInteger then .ofInt n else .num (.float x)
  | none => if x.isFinite then .num (.float x) else .null

def literal : Literal → Json
  | .string s => .str s
  | .number x => number x
  | .bigInt negative digits => .obj [("negative", .bool negative), ("value", .str digits)]
  | .boolean b => .bool b
  | .null => .null

/-- Where a reference leads. -/
def refTarget (w : Writer) (target : RefTarget) : Json :=
  match w.project.resolveTarget? target with
  | some id => .ofNat id
  | none =>
    match target with
    | .symbol s => w.symbol s
    | _ => .ofInt ReflectionId.absent

/-- One type whose parts have been written. -/
def typeNode (w : Writer) (t : Ty) (fields : Fields) : Json :=
  Component.compose (w.serializer.components .type) w.context
    (fun _ => ("type", .str t.kind.tag) :: fields) t

/-- A reference whose type arguments have been written. -/
def refNode (w : Writer) (head : Ref) (args : Option (List Ty)) (written : List Json) : Json :=
  w.typeNode (.reference head args) <|
    [("target", w.refTarget head.target)] ++ listField "typeArguments" written ++
      [("name", .str head.name)] ++ textField "package" head.package ++
      textField "externalUrl" head.externalUrl ++
      flagField "refersToTypeParameter" head.toTypeParameter ++
      flagField "preferValues" head.preferValues ++ textField "qualifiedName" head.qualifiedName

mutual

/-- A type; `declaration` writes the declarations that it owns. -/
def type (w : Writer) (declaration : ReflectionId → Option Json) : Ty → Json
  | .array a => w.typeNode (.array a) [("elementType", w.type declaration a)]
  | .conditional check extend yes no => w.typeNode (.conditional check extend yes no)
      [("checkType", w.type declaration check), ("extendsType", w.type declaration extend),
       ("trueType", w.type declaration yes), ("falseType", w.type declaration no)]
  | .indexedAccess object index => w.typeNode (.indexedAccess object index)
      [("indexType", w.type declaration index), ("objectType", w.type declaration object)]
  | .inferred name bound => w.typeNode (.inferred name bound)
      (("name", .str name) :: valueField "constraint" (w.typeOption declaration bound))
  | .intersection types =>
    w.typeNode (.intersection types) [("types", .arr (w.typeList declaration types))]
  | .intrinsic name => w.typeNode (.intrinsic name) [("name", .str name)]
  | .literal value => w.typeNode (.literal value) [("value", literal value)]
  | .mapped parameter source template fixed missing nameType =>
    w.typeNode (.mapped parameter source template fixed missing nameType) <|
      [("parameter", .str parameter), ("parameterType", w.type declaration source),
       ("templateType", w.type declaration template)] ++
        textField "readonlyModifier" (fixed.map (·.sign)) ++
        textField "optionalModifier" (missing.map (·.sign)) ++
        valueField "nameType" (w.typeOption declaration nameType)
  | .namedTupleMember name isOptional element => w.typeNode (.namedTupleMember name isOptional element)
      [("name", .str name), ("isOptional", .bool isOptional), ("element", w.type declaration element)]
  | .optional a => w.typeNode (.optional a) [("elementType", w.type declaration a)]
  | .predicate name asserts target => w.typeNode (.predicate name asserts target) <|
      [("name", .str name), ("asserts", .bool asserts)] ++
        valueField "targetType" (w.typeOption declaration target)
  | .query head args =>
    w.typeNode (.query head args) [("queryType", w.refNode head args (w.typeArgs declaration args))]
  | .reference head args => w.refNode head args (w.typeArgs declaration args)
  | .reflection id => w.typeNode (.reflection id) (valueField "declaration" (declaration id))
  | .rest a => w.typeNode (.rest a) [("elementType", w.type declaration a)]
  | .templateLiteral head tail => w.typeNode (.templateLiteral head tail)
      [("head", .str head), ("tail", .arr (w.typeTail declaration tail))]
  | .tuple elements =>
    w.typeNode (.tuple elements) (listField "elements" (w.typeList declaration elements))
  | .operator op target => w.typeNode (.operator op target)
      [("operator", .str op.word), ("target", w.type declaration target)]
  | .union types summaries => w.typeNode (.union types summaries) <|
      [("types", .arr (w.typeList declaration types))] ++
        valueField "elementSummaries" (summaries.map fun lists => .arr (lists.map w.parts))
  | .unknown name => w.typeNode (.unknown name) [("name", .str name)]

def typeOption (w : Writer) (declaration : ReflectionId → Option Json) : Option Ty → Option Json
  | none => none
  | some a => some (w.type declaration a)

def typeArgs (w : Writer) (declaration : ReflectionId → Option Json) : Option (List Ty) → List Json
  | none => []
  | some as => w.typeList declaration as

def typeList (w : Writer) (declaration : ReflectionId → Option Json) : List Ty → List Json
  | [] => []
  | a :: as => w.type declaration a :: w.typeList declaration as

def typeTail (w : Writer) (declaration : ReflectionId → Option Json) : List (Ty × String) → List Json
  | [] => []
  | (a, text) :: tail => .arr [w.type declaration a, .str text] :: w.typeTail declaration tail

end

end DocTree.Writer
