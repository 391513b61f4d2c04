import DocTree.Reader.Deserializer

/-!
Making types. A type that lacks a part it cannot be without is dropped, and the parts behind the
missing one are not read. Optional parts and items of lists are simply left out.
-/

namespace DocTree.Reader

/-- The value of a literal; an array is none, and neither is a big integer without digits. -/
def literal? : Option Json → Option Literal
  | some (.str s) => some (.string s)
  | some (.num (.int n)) => some (.number (.ofInt n))
  | some (.num (.float x)) => some (.number x)
  | some (.bool b) => some (.boolean b)
  | some (.obj big) => (Fields.text? big "value").map (.bigInt (Fields.flag big "negative"))
  | some .null | none => some .null
  | some (.arr _) => none

/-- The target of a named type: a number is a reflection, an object a symbol. -/
def refTarget : Option Json → ReadM RefTarget
  | some (.num (.int (.ofNat n))) =>
    if n < Json.wordBound then do
      ReadM.change fun r => { r with pendingCount := r.pendingCount + 1 }
      return .pending n
    else return .broken
  | some (.obj symbol) => return (((← ReadM.revival).symbol? symbol).map .symbol).getD .broken
  | _ => return .broken

/-- A named type. -/
def reference : TypeBuilder := fun c fields => do
  let target ← refTarget (fields.value? "target")
  let args ← if fields.has "typeArguments" then some <$> c.typesAt fields "typeArguments" else pure none
  let head : Ref := ⟨fields.text "name", target, fields.text? "qualifiedName", fields.text? "package",
    fields.text? "externalUrl", fields.flag "refersToTypeParameter", fields.flag "preferValues"⟩
  return some (.reference head args)

/-- A span of a template: a type and the text behind it. -/
def span (c : Constructors) : Json → ReadM (Option (Ty × String))
  | .arr [.obj type, text] => do
    let t ← c.type type
    return t.map fun t => (t, text.asString?.getD "")
  | _ => return none

/-- The texts of a union's members. -/
def summaries (fields : Fields) : ReadM (Option (List (List Part))) :=
  match (fields.value? "elementSummaries").bind (·.asArray?) with
  | none => return none
  | some lists => return some (← ReadM.collect (fun list => return some (← parts (some list))) lists)

/-- A type around another. -/
def around (key : String) (make : Ty → Ty) : TypeBuilder := fun c fields => do
  return (← c.typeAt fields key).map make

/-- The standard builder of a kind of types. -/
def typeBuilder : TypeKind → TypeBuilder
  | .array => around "elementType" .array
  | .conditional => fun c fields => do
    let some check ← c.typeAt fields "checkType" | return none
    let some extend ← c.typeAt fields "extendsType" | return none
    let some yes ← c.typeAt fields "trueType" | return none
    let some no ← c.typeAt fields "falseType" | return none
    return some (.conditional check extend yes no)
  | .indexedAccess => fun c fields => do
    let some object ← c.typeAt fields "objectType" | return none
    let some index ← c.typeAt fields "indexType" | return none
    return some (.indexedAccess object index)
  | .inferred => fun c fields => do
    return some (.inferred (fields.text "name") (← c.typeAt fields "constraint"))
  | .intersection => fun c fields => do
    return some (.intersection (← c.typesAt fields "types"))
  | .intrinsic => fun _ fields => return some (.intrinsic (fields.text "name"))
  | .literal => fun _ fields => return (literal? (fields.value? "value")).map .literal
  | .mapped => fun c fields => do
    let some source ← c.typeAt fields "parameterType" | return none
    let some template ← c.typeAt fields "templateType" | return none
    let modifier (key : String) := (fields.text? key).bind Modifier.ofSign?
    let nameType ← c.typeAt fields "nameType"
    return some (.mapped (fields.text "parameter") source template (modifier "readonlyModifier")
      (modifier "optionalModifier") nameType)
  | .namedTupleMember => fun c fields =>
    around "element" (.namedTupleMember (fields.text "name") (fields.flag "isOptional")) c fields
  | .optional => around "elementType" .optional
  | .predicate => fun c fields => do
    return some (.predicate (fields.text "name") (fields.flag "asserts") (← c.typeAt fields "targetType"))
  | .query => fun c fields => do
    match ← c.typeAt fields "queryType" with
    | some (.reference head args) => return some (.query head args)
    | _ => return none
  | .reference => reference
  | .reflection => fun c fields => do
    let some declaration := fields.object? "declaration" | return none
    return (← c.reflection declaration .typeLiteral).map .reflection
  | .rest => around "elementType" .rest
  | .templateLiteral => fun c fields => do
    return some (.templateLiteral (fields.text "head") (← ReadM.collect (span c) (fields.items "tail")))
  | .tuple => fun c fields => do
    return some (.tuple (← c.typesAt fields "elements"))
  | .typeOperator => fun c fields => do
    let some operator := (fields.text? "operator").bind Operator.ofWord? | return none
    around "target" (.operator operator) c fields
  | .union => fun c fields => do
    let types ← c.typesAt fields "types"
    return some (.union types (← summaries fields))
  | .unknown => fun _ fields => return some (.unknown (fields.text "name"))

end DocTree.Reader
