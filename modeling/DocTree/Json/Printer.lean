import DocTree.Decimal.Shortest
import DocTree.Json.Basic

/-!
Writing JSON, either compact or indented by two spaces a level. A text is quoted with only `"`, `\`
and the control characters escaped; a double has the shortest digits that read back to it.
-/

namespace DocTree

open Decimal (Double Layout Tie shortest)

namespace Number

/-- A double in JSON: positional from 0.00001 up to and without 10 ^ 16, whole numbers with `.0`,
and of two equally near decimals the even one. -/
def layout : Layout := ⟨.toEven, some (-5, 16), true⟩

/-- A double in JSON. There is no text for infinity; it is written like a value that is absent. -/
def floatText (x : Double) : String :=
  match x.value with
  | .finite negative m q =>
    (if negative then "-" else "") ++
      (if m = 0 then "0.0" else layout.text (shortest layout.tie m q))
  | _ => "null"

def text : Number → String
  | .int n => toString n
  | .float x => floatText x

end Number

namespace Json

/-- The hexadecimal digit of a number below 16. -/
def hexDigit (n : Nat) : Char :=
  if n < 10 then Char.ofNat ('0'.toNat + n) else Char.ofNat ('a'.toNat + (n - 10))

/-- A character inside quotes. -/
def escaped (c : Char) : List Char :=
  if c = '"' then ['\\', '"']
  else if c = '\\' then ['\\', '\\']
  else if c = '\x08' then ['\\', 'b']
  else if c = '\t' then ['\\', 't']
  else if c = '\n' then ['\\', 'n']
  else if c = '\x0c' then ['\\', 'f']
  else if c = '\r' then ['\\', 'r']
  else if c.toNat < 0x20 then ['\\', 'u', '0', '0', hexDigit (c.toNat / 16), hexDigit (c.toNat % 16)]
  else [c]

/-- A text in quotes. -/
def quoted (s : String) : String :=
  String.ofList ('"' :: s.toList.flatMap escaped ++ ['"'])

/-! ### Compact -/

mutual

/-- On one line, without blanks. -/
def compact : Json → String
  | .null => "null"
  | .bool b => if b then "true" else "false"
  | .num n => n.text
  | .str s => quoted s
  | .arr items => "[" ++ compactItems items ++ "]"
  | .obj fields => "\x7b" ++ compactFields fields ++ "\x7d"

def compactItems : List Json → String
  | [] => ""
  | [item] => item.compact
  | item :: rest => item.compact ++ "," ++ compactItems rest

def compactFields : List (String × Json) → String
  | [] => ""
  | [(key, value)] => quoted key ++ ":" ++ value.compact
  | (key, value) :: rest => quoted key ++ ":" ++ value.compact ++ "," ++ compactFields rest

end

/-! ### Indented -/

/-- A new line at a depth, two spaces a level. -/
def newLine (depth : Nat) : String :=
  "\n" ++ String.ofList (List.replicate (2 * depth) ' ')

mutual

/-- One item a line; empty arrays and objects stay on their line. -/
def indented (depth : Nat) : Json → String
  | .arr [] => "[]"
  | .arr (item :: rest) =>
    "[" ++ newLine (depth + 1) ++ indented (depth + 1) item ++ indentedItems (depth + 1) rest ++
      newLine depth ++ "]"
  | .obj [] => "\x7b\x7d"
  | .obj ((key, value) :: rest) =>
    "\x7b" ++ newLine (depth + 1) ++ quoted key ++ ": " ++ indented (depth + 1) value ++
      indentedFields (depth + 1) rest ++ newLine depth ++ "\x7d"
  | .null => "null"
  | .bool b => if b then "true" else "false"
  | .num n => n.text
  | .str s => quoted s

def indentedItems (depth : Nat) : List Json → String
  | [] => ""
  | item :: rest => "," ++ newLine depth ++ indented depth item ++ indentedItems depth rest

def indentedFields (depth : Nat) : List (String × Json) → String
  | [] => ""
  | (key, value) :: rest =>
    "," ++ newLine depth ++ quoted key ++ ": " ++ indented depth value ++ indentedFields depth rest

end

/-- The text of a value, compact or indented. -/
def render (pretty : Bool) (j : Json) : String :=
  if pretty then j.indented 0 else j.compact

end Json

end DocTree
