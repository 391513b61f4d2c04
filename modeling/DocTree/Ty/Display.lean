import DocTree.Decimal.Shortest
import DocTree.Json.Printer
import DocTree.Ty.Basic

/-!
Types as they are shown to readers, with as few parentheses as possible. Every type binds with some
strength and every place asks for one; a type is put into parentheses where it binds weaker than its
place asks.
-/

namespace DocTree

open Decimal (Double Layout shortest)

namespace Literal

/-- A number in a type: never an exponent, no fraction for whole numbers, and of two equally near
decimals the greater one. -/
def layout : Layout := ⟨.up, none, false⟩

/-- A number as it is shown; both zeros are `0`. -/
def numberText (x : Double) : String :=
  match x.value with
  | .nan => "NaN"
  | .infinite negative => if negative then "-Infinity" else "Infinity"
  | .finite negative m q =>
    if m = 0 then "0"
    else (if negative then "-" else "") ++ layout.text (shortest layout.tie m q)

def text : Literal → String
  | .string s => Json.quoted s
  | .number x => numberText x
  | .bigInt negative digits => (if negative then "-" else "") ++ digits ++ "n"
  | .boolean b => if b then "true" else "false"
  | .null => "null"

end Literal

namespace Ty

/-- How strongly a type binds. -/
abbrev Strength := Nat

namespace Strength

/-- What a place asks that takes every type. -/
def anything : Strength := 0
def unknown : Strength := 1
def conditional : Strength := 2
/-- What a place asks that takes no conditional type. -/
def aboveConditional : Strength := 3
def union : Strength := 4
def intersection : Strength := 5
def operator : Strength := 6
def primary : Strength := 7

end Strength

/-- How strongly a type binds. -/
def strength : Ty → Strength
  | .unknown .. => .unknown
  | .conditional .. | .predicate .. => .conditional
  | .union .. => .union
  | .intersection .. => .intersection
  | .operator .. | .query .. | .inferred .. => .operator
  | _ => .primary

/-- The text of a type at a place that asks for a strength. -/
def wrapped (asked : Strength) (t : Ty) (text : String) : String :=
  if t.strength < asked then "(" ++ text ++ ")" else text

/-- What a modifier of a mapped type puts in front of a word. -/
def modifierText (word : String) : Option Modifier → String
  | none => ""
  | some .add => word
  | some .remove => "-" ++ word

mutual

/-- The text of a type that stands alone. -/
def display : Ty → String
  | .array a => wrapped .primary a a.display ++ "[]"
  | .conditional check extend yes no =>
    wrapped .aboveConditional check check.display ++ " extends " ++
      wrapped .aboveConditional extend extend.display ++ " ? " ++ yes.display ++ " : " ++ no.display
  | .indexedAccess object index => wrapped .primary object object.display ++ "[" ++ index.display ++ "]"
  | .inferred name bound => "infer " ++ name ++ displayAfter " extends " .operator bound
  | .intersection types => displayList " & " .intersection types
  | .intrinsic name => name
  | .literal value => value.text
  | .mapped parameter source template fixed missing nameType =>
    "\x7b " ++ modifierText "readonly " fixed ++ "[" ++ parameter ++ " in " ++ source.display ++
      displayAfter " as " .anything nameType ++ "]" ++ modifierText "?" missing ++ ": " ++
      template.display ++ " \x7d"
  | .namedTupleMember name isOptional element =>
    name ++ (if isOptional then "?" else "") ++ ": " ++ element.display
  | .optional a => wrapped .primary a a.display ++ "?"
  | .predicate name asserts target =>
    (if asserts then "asserts " else "") ++ name ++ displayAfter " is " .anything target
  | .query head args => "typeof " ++ head.name ++ displayArgs args
  | .reference head args => head.name ++ displayArgs args
  | .reflection _ => "Object"
  | .rest a => "..." ++ wrapped .primary a a.display
  | .templateLiteral head tail => "`" ++ head ++ displayTail tail ++ "`"
  | .tuple elements => "[" ++ displayList ", " .anything elements ++ "]"
  | .operator op target => op.word ++ " " ++ wrapped .operator target target.display
  | .union types _ => displayList " | " .union types
  | .unknown name => name

/-- A part that may be missing, behind a word. -/
def displayAfter (word : String) (asked : Strength) : Option Ty → String
  | none => ""
  | some a => word ++ wrapped asked a a.display

/-- Type arguments; an empty list is not shown. -/
def displayArgs : Option (List Ty) → String
  | none | some [] => ""
  | some (a :: as) => "<" ++ a.display ++ displayMore ", " .anything as ++ ">"

/-- Types with a separator between them. -/
def displayList (separator : String) (asked : Strength) : List Ty → String
  | [] => ""
  | a :: as => wrapped asked a a.display ++ displayMore separator asked as

/-- Types with a separator before each. -/
def displayMore (separator : String) (asked : Strength) : List Ty → String
  | [] => ""
  | a :: as => separator ++ wrapped asked a a.display ++ displayMore separator asked as

def displayTail : List (Ty × String) → String
  | [] => ""
  | (a, text) :: tail => "$\x7b" ++ a.display ++ "\x7d" ++ text ++ displayTail tail

end

/-- The text of a reference. -/
def displayRef (r : Ref × Option (List Ty)) : String := r.1.name ++ displayArgs r.2

end Ty

end DocTree
