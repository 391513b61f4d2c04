import DocTree.Json.Parser
import DocTree.Options.Basic
import DocTree.Text.Blank

/-!
Reading options from a text. The text is an object with the keys of the options, or an array with
their values in order. It is read from the front to the first mistake: keys that are no option are
skipped, a key that comes twice is a mistake, and a value is checked as soon as it has been read.
-/

namespace DocTree.Options

/-- Why options could not be read. -/
inductive Mistake where
  /-- A text that stands for a truth value and says neither. -/
  | badBoolean (word : String)
  /-- Anything else. -/
  | malformed
  deriving DecidableEq, Repr

/-- What is wrong with a truth value; other mistakes have no words of their own. -/
def Mistake.cause? : Mistake → Option String
  | .badBoolean word =>
    some ("invalid boolean value: '" ++ word ++ "'. Expected true, false, 'true', or 'false'")
  | .malformed => .none

/-- What is said of options that could not be read. -/
def Mistake.summary : String := "failed to parse tsz-docs options JSON"

/-! ### Keys -/

/-- An option. -/
inductive Key where
  | name | projectRoot | pretty | inputs | out
  deriving DecidableEq, Repr

/-- Every option, in the order in which an array gives them. -/
def Key.all : List Key := [.name, .projectRoot, .pretty, .inputs, .out]

def Key.word : Key → String
  | .name => "name"
  | .projectRoot => "projectRoot"
  | .pretty => "pretty"
  | .inputs => "inputs"
  | .out => "out"

def Key.ofWord? (word : String) : Option Key := all.find? (·.word = word)

/-! ### Values -/

/-- A truth value in words, blanks around it and capital letters aside. -/
def truth? (word : String) : Option Bool :=
  let plain := Text.lower (Text.trim word)
  if plain ∈ ["true", "1", "yes", "on"] then some true
  else if plain ∈ ["false", "0", "no", "off"] then some false
  else .none

/-- A text or nothing. -/
def textValue : Json → Except Mistake (Option String)
  | .null => .ok .none
  | .str s => .ok (some s)
  | _ => .error .malformed

/-- A truth value, as such or in words, or nothing. -/
def truthValue : Json → Except Mistake (Option Bool)
  | .null => .ok .none
  | .bool b => .ok (some b)
  | .str s =>
    match truth? s with
    | some b => .ok (some b)
    | .none => .error (.badBoolean s)
  | _ => .error .malformed

/-- An array of texts. -/
def placesValue : Json → Except Mistake (List String)
  | .arr items =>
    match items.mapM Json.asString? with
    | some places => .ok places
    | .none => .error .malformed
  | _ => .error .malformed

/-- Set the option of a key. -/
def set (o : Options) (value : Json) : Key → Except Mistake Options
  | .name => return { o with name := ← textValue value }
  | .projectRoot => return { o with projectRoot := ← textValue value }
  | .pretty => return { o with pretty := ← truthValue value }
  | .inputs => return { o with inputs := ← placesValue value }
  | .out => return { o with out := ← textValue value }

/-! ### Texts -/

/-- A step of reading without which there are no options. -/
def required {α : Type} (x : Option α) : Except Mistake α := x.elim (.error .malformed) .ok

/-- How many arrays and objects may lie inside one another in the value of an option. -/
def valueDepth : Nat := Json.maxDepth - 1

/-- One value, entered under its key. -/
def readEntry (o : Options) (key : Key) (s : List Char) : Except Mistake (Options × List Char) := do
  let (value, s) ← required (Json.readValue (s.length + 1) valueDepth s)
  return (← o.set value key, s)

/-- The fields of an object from the first on, up to and with the closing brace. Each field takes at
least one character, so as many steps as there are characters are enough. -/
def readFields : Nat → List Key → Options → List Char → Except Mistake (Options × List Char)
  | 0, _, _, _ => .error .malformed
  | steps + 1, seen, o, s => do
    let (word, s) ← required (Json.readKey s)
    let (seen, o, s) ← match Key.ofWord? word with
      | .none => pure (seen, o, ← required (Json.skipValue (s.length + 1) s))
      | some key =>
        if key ∈ seen then .error .malformed
        else
          let (o, s) ← readEntry o key s
          pure (key :: seen, o, s)
    match Json.skipBlanks s with
    | ',' :: s => readFields steps seen o s
    | '\x7d' :: s => .ok (o, s)
    | _ => .error .malformed

/-- The values of an array for the keys that are left, up to and with the closing bracket. -/
def readItems : List Key → Options → List Char → Except Mistake (Options × List Char)
  | [], _, _ => .error .malformed
  | key :: keys, o, s => do
    let (o, s) ← readEntry o key s
    match Json.skipBlanks s with
    | ',' :: s => readItems keys o s
    | ']' :: s => .ok (o, s)
    | _ => .error .malformed

/-- Options and what stands behind them. -/
def read (s : List Char) : Except Mistake (Options × List Char) :=
  match Json.skipBlanks s with
  | '\x7b' :: s =>
    match Json.skipBlanks s with
    | '\x7d' :: s => .ok (none, s)
    | s => readFields (s.length + 1) [] none s
  | '[' :: s =>
    match Json.skipBlanks s with
    | ']' :: s => .ok (none, s)
    | s => readItems Key.all none s
  | _ => .error .malformed

/-- The options in a text. -/
def parse (text : String) : Except Mistake Options := do
  let (o, rest) ← read text.toList
  if (Json.skipBlanks rest).isEmpty then return o else throw .malformed

end DocTree.Options
