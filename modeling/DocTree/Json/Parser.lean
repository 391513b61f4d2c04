import DocTree.Decimal.Scaled
import DocTree.Json.Basic

/-!
Reading JSON. The grammar is strict: no raw control characters and no lone surrogates in a text, no
number beyond the doubles, no nesting deeper than a given bound, nothing after the value. Each reader
takes characters and gives what it read with the rest.

Beside the reader stands a skipper, which finds where a value ends without building it. It follows
the grammar only: it accepts every nesting, every number and every `\u` escape.
-/

namespace DocTree.Json

open Decimal (Scaled)

/-- The blank characters of the grammar dropped. -/
def skipBlanks (s : List Char) : List Char :=
  s.dropWhile fun c => c = ' ' || c = '\n' || c = '\t' || c = '\r'

/-- Drop a given beginning. -/
def expect : List Char → List Char → Option (List Char)
  | [], s => some s
  | c :: word, d :: s => if c = d then expect word s else none
  | _ :: _, [] => none

/-! ### Texts -/

def hexValue? (c : Char) : Option Nat :=
  if '0' ≤ c ∧ c ≤ '9' then some (c.toNat - '0'.toNat)
  else if 'a' ≤ c ∧ c ≤ 'f' then some (c.toNat - 'a'.toNat + 10)
  else if 'A' ≤ c ∧ c ≤ 'F' then some (c.toNat - 'A'.toNat + 10)
  else none

/-- Four hexadecimal digits. -/
def hexQuad? (a b c d : Char) : Option Nat := do
  let a ← hexValue? a
  let b ← hexValue? b
  let c ← hexValue? c
  let d ← hexValue? d
  return ((a * 16 + b) * 16 + c) * 16 + d

/-- The character of an escape of one letter. -/
def escape? (c : Char) : Option Char :=
  if c = '"' ∨ c = '\\' ∨ c = '/' then some c
  else if c = 'b' then some '\x08'
  else if c = 'f' then some '\x0c'
  else if c = 'n' then some '\n'
  else if c = 'r' then some '\r'
  else if c = 't' then some '\t'
  else none

/-- A code unit that begins a pair. -/
def isLeading (n : Nat) : Bool := 0xD800 ≤ n && n < 0xDC00

/-- A code unit that ends a pair. -/
def isTrailing (n : Nat) : Bool := 0xDC00 ≤ n && n < 0xE000

/-- The inside of a text, up to and with the closing quote. -/
def readText : List Char → Option (List Char × List Char)
  | [] => none
  | '"' :: rest => some ([], rest)
  | '\\' :: 'u' :: a :: b :: c :: d :: rest => do
    let n ← hexQuad? a b c d
    if isTrailing n then none
    else if isLeading n then
      match rest with
      | '\\' :: 'u' :: a :: b :: c :: d :: rest => do
        let m ← hexQuad? a b c d
        if isTrailing m then
          let (text, rest) ← readText rest
          return (Char.ofNat (0x10000 + (n - 0xD800) * 0x400 + (m - 0xDC00)) :: text, rest)
        else none
      | _ => none
    else
      let (text, rest) ← readText rest
      return (Char.ofNat n :: text, rest)
  | '\\' :: c :: rest => do
    let c ← escape? c
    let (text, rest) ← readText rest
    return (c :: text, rest)
  | c :: rest =>
    if c.toNat < 0x20 then none
    else do
      let (text, rest) ← readText rest
      return (c :: text, rest)

/-! ### Numbers -/

/-- The number of a decimal digit. -/
def digitValue (c : Char) : Nat := c.toNat - '0'.toNat

/-- The number whose decimal digits these are. -/
def natOfDigits (digits : List Char) : Nat :=
  digits.foldl (fun n c => n * 10 + digitValue c) 0

/-- The parts of a number in the text. -/
structure Numeral where
  negative : Bool
  whole : List Char
  /-- The digits after the point, if there is one. -/
  fraction : Option (List Char)
  /-- The exponent, if there is one. -/
  exponent : Option Int
  deriving Repr

/-- One digit or more. -/
def readDigits (s : List Char) : Option (List Char × List Char) :=
  let digits := s.takeWhile Char.isDigit
  if digits.isEmpty then none else some (digits, s.dropWhile Char.isDigit)

/-- A whole part: `0`, or digits that do not begin with it. -/
def readWhole : List Char → Option (List Char × List Char)
  | '0' :: rest => some (['0'], rest)
  | s => readDigits s

/-- An optional fraction. -/
def readFraction : List Char → Option (Option (List Char) × List Char)
  | '.' :: rest => (readDigits rest).map fun (digits, rest) => (some digits, rest)
  | s => some (none, s)

/-- The digits of an exponent after its sign. -/
def readPower (negative : Bool) (s : List Char) : Option (Option Int × List Char) :=
  (readDigits s).map fun (digits, rest) =>
    let n : Int := natOfDigits digits
    (some (if negative then -n else n), rest)

/-- An optional exponent. -/
def readExponent : List Char → Option (Option Int × List Char)
  | c :: rest =>
    if c = 'e' ∨ c = 'E' then
      match rest with
      | '+' :: rest => readPower false rest
      | '-' :: rest => readPower true rest
      | rest => readPower false rest
    else some (none, c :: rest)
  | [] => some (none, [])

/-- A number as it stands in the text. -/
def readNumeral (s : List Char) : Option (Numeral × List Char) := do
  let (negative, s) := match s with
    | '-' :: rest => (true, rest)
    | s => (false, s)
  let (whole, s) ← readWhole s
  let (fraction, s) ← readFraction s
  let (exponent, s) ← readExponent s
  return (⟨negative, whole, fraction, exponent⟩, s)

/-- The double as which the decimal is read, unless it is infinite. -/
def Numeral.float? (n : Numeral) : Option Number :=
  let fraction := n.fraction.getD []
  let decimal := Scaled.ofDigits (n.whole.map digitValue) (fraction.map digitValue) (n.exponent.getD 0)
  let x := decimal.toDouble n.negative
  if x.isFinite then some (.float x) else none

/-- The number of a numeral. Without fraction and exponent it is an integer if it fits 64 bits and is
not `-0`; otherwise it is a double. -/
def Numeral.number? (n : Numeral) : Option Number :=
  let whole := natOfDigits n.whole
  if n.fraction.isSome || n.exponent.isSome then n.float?
  else if n.negative then
    if 0 < whole ∧ whole ≤ Nat.pow 2 63 then some (.int (-whole)) else n.float?
  else if whole < Nat.pow 2 64 then some (.int whole) else n.float?

/-! ### Values -/

mutual

/-- A value, with at most `depth` arrays and objects inside one another. -/
def readValue (fuel depth : Nat) (s : List Char) : Option (Json × List Char) :=
  match fuel with
  | 0 => none
  | fuel + 1 =>
    match skipBlanks s with
    | 'n' :: rest => (expect ['u', 'l', 'l'] rest).map fun rest => (.null, rest)
    | 't' :: rest => (expect ['r', 'u', 'e'] rest).map fun rest => (.bool true, rest)
    | 'f' :: rest => (expect ['a', 'l', 's', 'e'] rest).map fun rest => (.bool false, rest)
    | '"' :: rest => (readText rest).map fun (text, rest) => (.str (String.ofList text), rest)
    | '[' :: rest =>
      match depth with
      | 0 => none
      | depth + 1 =>
        match skipBlanks rest with
        | ']' :: rest => some (.arr [], rest)
        | rest => (readItems fuel depth rest).map fun (items, rest) => (.arr items, rest)
    | '\x7b' :: rest =>
      match depth with
      | 0 => none
      | depth + 1 =>
        match skipBlanks rest with
        | '\x7d' :: rest => some (.obj [], rest)
        | rest => (readFields fuel depth rest).map fun (fields, rest) =>
          (.obj (Assoc.ofList fields), rest)
    | s => do
      let (numeral, rest) ← readNumeral s
      let number ← numeral.number?
      return (.num number, rest)

/-- The items of an array from the first on, up to and with the closing bracket. -/
def readItems (fuel depth : Nat) (s : List Char) : Option (List Json × List Char) :=
  match fuel with
  | 0 => none
  | fuel + 1 => do
    let (item, s) ← readValue fuel depth s
    match skipBlanks s with
    | ',' :: s => do
      let (items, s) ← readItems fuel depth s
      return (item :: items, s)
    | ']' :: s => return ([item], s)
    | _ => none

/-- The fields of an object from the first on, up to and with the closing brace. -/
def readFields (fuel depth : Nat) (s : List Char) : Option (Fields × List Char) :=
  match fuel with
  | 0 => none
  | fuel + 1 => do
    let (key, s) ← readKey s
    let (value, s) ← readValue fuel depth s
    match skipBlanks s with
    | ',' :: s => do
      let (fields, s) ← readFields fuel depth s
      return ((key, value) :: fields, s)
    | '\x7d' :: s => return ([(key, value)], s)
    | _ => none

/-- A key and its colon. -/
def readKey (s : List Char) : Option (String × List Char) :=
  match skipBlanks s with
  | '"' :: rest => do
    let (key, rest) ← readText rest
    match skipBlanks rest with
    | ':' :: rest => return (String.ofList key, rest)
    | _ => none
  | _ => none

end

/-- The whole text as one value, with at most `depth` arrays and objects inside one another. -/
def parseWithin? (depth : Nat) (text : String) : Option Json := do
  let s := text.toList
  let (value, rest) ← readValue (s.length + 1) depth s
  if (skipBlanks rest).isEmpty then some value else none

/-- How many arrays and objects may lie inside one another in a text that is handed over. -/
def maxDepth : Nat := 127

/-- The whole text as one value. -/
def parse? (text : String) : Option Json :=
  parseWithin? maxDepth text

/-! ### Skipping -/

/-- The inside of a text, skipped up to and with the closing quote. -/
def skipText : List Char → Option (List Char)
  | [] => none
  | '"' :: rest => some rest
  | '\\' :: 'u' :: a :: b :: c :: d :: rest =>
    if (hexQuad? a b c d).isSome then skipText rest else none
  | '\\' :: c :: rest => if (escape? c).isSome then skipText rest else none
  | c :: rest => if c.toNat < 0x20 then none else skipText rest

mutual

/-- A value, skipped. -/
def skipValue (fuel : Nat) (s : List Char) : Option (List Char) :=
  match fuel with
  | 0 => none
  | fuel + 1 =>
    match skipBlanks s with
    | 'n' :: rest => expect ['u', 'l', 'l'] rest
    | 't' :: rest => expect ['r', 'u', 'e'] rest
    | 'f' :: rest => expect ['a', 'l', 's', 'e'] rest
    | '"' :: rest => skipText rest
    | '[' :: rest =>
      match skipBlanks rest with
      | ']' :: rest => some rest
      | rest => skipItems fuel rest
    | '\x7b' :: rest =>
      match skipBlanks rest with
      | '\x7d' :: rest => some rest
      | rest => skipFields fuel rest
    | s => (readNumeral s).map (·.2)

def skipItems (fuel : Nat) (s : List Char) : Option (List Char) :=
  match fuel with
  | 0 => none
  | fuel + 1 => do
    let s ← skipValue fuel s
    match skipBlanks s with
    | ',' :: s => skipItems fuel s
    | ']' :: s => some s
    | _ => none

def skipFields (fuel : Nat) (s : List Char) : Option (List Char) :=
  match fuel with
  | 0 => none
  | fuel + 1 =>
    match skipBlanks s with
    | '"' :: s => do
      let s ← skipText s
      match skipBlanks s with
      | ':' :: s => do
        let s ← skipValue fuel s
        match skipBlanks s with
        | ',' :: s => skipFields fuel s
        | '\x7d' :: s => some s
        | _ => none
      | _ => none
    | _ => none

end

end DocTree.Json
