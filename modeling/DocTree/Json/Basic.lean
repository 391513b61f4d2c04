import DocTree.Assoc
import DocTree.Decimal.Double

/-!
JSON values. Objects keep the order of their keys; a number is an integer or a double, and the two
are told apart: `1.0` is no integer.
-/

namespace DocTree

open Decimal (Double)

/-- A JSON number. Integers read from a text lie between `-2 ^ 63` and `2 ^ 64`. -/
inductive Number where
  | int (n : Int)
  | float (x : Double)
  deriving DecidableEq, Repr

/-- A JSON value. -/
inductive Json where
  | null
  | bool (b : Bool)
  | num (n : Number)
  | str (s : String)
  | arr (items : List Json)
  | obj (fields : List (String × Json))
  deriving Repr, Inhabited

/-- The fields of a JSON object, in order. -/
abbrev Fields := List (String × Json)

namespace Json

def ofNat (n : Nat) : Json := .num (.int n)

def ofInt (n : Int) : Json := .num (.int n)

/-- A text or `null`. -/
def ofString? (s : Option String) : Json := s.elim .null .str

/-- A number or `null`. -/
def ofNat? (n : Option Nat) : Json := n.elim .null ofNat

/-- The value of a key, if this is an object that has it. -/
def field? (key : String) : Json → Option Json
  | .obj fields => fields.lookup key
  | _ => none

def asBool? : Json → Option Bool
  | .bool b => some b
  | _ => none

def asString? : Json → Option String
  | .str s => some s
  | _ => none

def asArray? : Json → Option (List Json)
  | .arr items => some items
  | _ => none

def asObject? : Json → Option Fields
  | .obj fields => some fields
  | _ => none

/-- A natural number written as an integer. -/
def asNat? : Json → Option Nat
  | .num (.int (.ofNat n)) => some n
  | _ => none

/-- Natural numbers of 32 bits lie below it. -/
def wordBound : Nat := Nat.pow 2 32

/-- A natural number of 32 bits written as an integer. -/
def asWord? (j : Json) : Option Nat :=
  j.asNat?.filter (· < wordBound)

/-- The double of a number, rounded when the integer has more than 53 bits. -/
def asDouble? : Json → Option Double
  | .num (.int n) => some (.ofInt n)
  | .num (.float x) => some x
  | _ => none

/-- What sort of value this is, for a message. -/
def describe : Json → String
  | .null => "null"
  | .bool _ => "a boolean"
  | .num _ => "a number"
  | .str _ => "a string"
  | .arr _ => "an array"
  | .obj _ => "an object"

mutual

/-- How many arrays and objects lie inside one another. -/
def depth : Json → Nat
  | .arr items => depthItems items + 1
  | .obj fields => depthFields fields + 1
  | .null | .bool _ | .num _ | .str _ => 0

def depthItems : List Json → Nat
  | [] => 0
  | item :: rest => max item.depth (depthItems rest)

def depthFields : List (String × Json) → Nat
  | [] => 0
  | (_, value) :: rest => max value.depth (depthFields rest)

end

end Json

namespace Fields

/-- Set a key, in place if it is present. -/
def set (fields : Fields) (key : String) (value : Json) : Fields :=
  Assoc.insert key value fields

/-- Set a key if there is a value. -/
def set? (fields : Fields) (key : String) (value : Option Json) : Fields :=
  value.elim fields (fields.set key)

/-- Set several keys in turn. -/
def setAll (fields : Fields) (more : Fields) : Fields :=
  more.foldl (fun fields (key, value) => fields.set key value) fields

/-! ### Reading

A key whose value is not of the sort that is asked for counts as absent. -/

/-- The value of a key, whatever it is. -/
def value? (fields : Fields) (key : String) : Option Json := fields.lookup key

def has (fields : Fields) (key : String) : Bool := (fields.value? key).isSome

def text? (fields : Fields) (key : String) : Option String := (fields.value? key).bind (·.asString?)

/-- A text, empty when it is absent. -/
def text (fields : Fields) (key : String) : String := (fields.text? key).getD ""

/-- A number of 32 bits. -/
def word? (fields : Fields) (key : String) : Option Nat := (fields.value? key).bind (·.asWord?)

/-- A truth value, false when it is absent. -/
def flag (fields : Fields) (key : String) : Bool :=
  ((fields.value? key).bind (·.asBool?)).getD false

def object? (fields : Fields) (key : String) : Option Fields :=
  (fields.value? key).bind (·.asObject?)

/-- The items of an array, none when it is absent. -/
def items (fields : Fields) (key : String) : List Json :=
  ((fields.value? key).bind (·.asArray?)).getD []

/-- The items of an array that are objects. -/
def objects (fields : Fields) (key : String) : List Fields :=
  (fields.items key).filterMap (·.asObject?)

/-- The items of an array that are numbers of 32 bits. -/
def words (fields : Fields) (key : String) : List Nat :=
  (fields.items key).filterMap (·.asWord?)

end Fields

end DocTree
