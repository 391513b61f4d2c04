import DocTree.CommandLine.Basic
import DocTree.Text.Split

/-!
Reading a command line. The words are read from left to right on two levels, before and after the
name of the command; each level knows options, which take a value, and switches, which take none. The
value of an option stands in the same word or is the next one. A value in a word of its own is taken
when the next option, switch or input comes or the level ends, so a mistake in it is noticed then, and
a call for help that comes first is answered.
-/

namespace DocTree.CommandLine

/-- Why a command line is no invocation. -/
inductive Stop where
  | usage
  | help
  | version
  deriving DecidableEq, Repr

/-! ### Levels -/

/-- Where in the command line a word stands. -/
inductive Level where
  | top
  | revive
  | check
  deriving DecidableEq, Repr

namespace Level

/-- The level behind the name of a command. -/
def ofCommand? (word : String) : Option Level :=
  if word = "revive" then some .revive else if word = "check" then some .check else none

end Level

/-- What takes a value. -/
inductive Slot where
  | config | projectRoot | name | out
  /-- A word that belongs to no option. -/
  | input
  deriving DecidableEq, Repr

namespace Slot

/-- Options that a level knows. -/
def isKnown : Slot → Level → Bool
  | .config, _ | .projectRoot, _ => true
  | .name, level | .out, level => level = .revive
  | .input, _ => false

/-- The option of a long name. -/
def ofName? (name : String) (level : Level) : Option Slot :=
  ([("config", .config), ("projectRoot", .projectRoot), ("project-root", .projectRoot),
    ("name", .name), ("out", .out)].lookup name).filter (·.isKnown level)

/-- The option of a letter. -/
def ofLetter? (letter : Char) (level : Level) : Option Slot :=
  ([('c', .config), ('o', .out)].lookup letter).filter (·.isKnown level)

/-- The value names a place, which cannot be empty. -/
def isPlace : Slot → Bool
  | .config | .out | .input => true
  | .projectRoot | .name => false

end Slot

/-- What takes no value. -/
inductive Switch where
  | pretty
  | help
  | version
  deriving DecidableEq, Repr

namespace Switch

/-- Switches that a level knows. -/
def isKnown : Switch → Level → Bool
  | .pretty, level => level = .revive
  | .help, _ => true
  | .version, level => level = .top

/-- The switch of a long name. -/
def ofName? (name : String) (level : Level) : Option Switch :=
  ([("pretty", .pretty), ("help", .help), ("version", .version)].lookup name).filter (·.isKnown level)

/-- The switch of a letter. -/
def ofLetter? (letter : Char) (level : Level) : Option Switch :=
  ([('h', .help), ('V', .version)].lookup letter).filter (·.isKnown level)

end Switch

/-! ### What a level has read -/

/-- The values of a level. -/
structure Values where
  config : Option String
  projectRoot : Option String
  name : Option String
  out : Option String
  inputs : List String
  pretty : Bool
  /-- An option that was named and the value that came after it, or an input, not yet taken. -/
  waiting : Option (Slot × Option String)
  deriving DecidableEq, Repr

namespace Values

def none : Values := ⟨.none, .none, .none, .none, [], false, .none⟩

/-- Fill a place that can be filled once. -/
def once {α : Type} (old : Option α) (value : α) : Except Stop (Option α) :=
  match old with
  | some _ => .error .usage
  | .none => .ok (some value)

/-- Take a value. -/
def take (v : Values) (slot : Slot) (value : String) : Except Stop Values := do
  if slot.isPlace && value.isEmpty then throw .usage
  match slot with
  | .config => return { v with config := ← once v.config value }
  | .projectRoot => return { v with projectRoot := ← once v.projectRoot value }
  | .name => return { v with name := ← once v.name value }
  | .out => return { v with out := ← once v.out value }
  | .input => return { v with inputs := v.inputs ++ [value] }

/-- Take what waits. An option without a value is a mistake. -/
def settle (v : Values) : Except Stop Values :=
  match v.waiting with
  | .none => .ok v
  | some (slot, some value) => { v with waiting := .none }.take slot value
  | some (_, .none) => .error .usage

/-- Throw a switch. -/
def throwSwitch (v : Values) (switch : Switch) : Except Stop Values := do
  let v ← v.settle
  match switch with
  | .help => throw .help
  | .version => throw .version
  | .pretty => if v.pretty then throw .usage else return { v with pretty := true }

/-- An option with the value in the same word, if there is one. -/
def option (v : Values) (slot : Slot) (attached : Option String) : Except Stop Values := do
  let v ← v.settle
  match attached with
  | some value => v.take slot value
  | .none => return { v with waiting := some (slot, .none) }

/-- An option has been named and its value has not come. -/
def isWaiting (v : Values) : Bool :=
  match v.waiting with
  | some (_, .none) => true
  | _ => false

/-- A word that is no option: the value that is waited for, or an input. `many` tells whether the
level takes more than one input. -/
def plain (v : Values) (many : Bool) (word : String) : Except Stop Values :=
  match v.waiting with
  | some (slot, .none) => .ok { v with waiting := some (slot, some word) }
  | _ => do
    let v ← v.settle
    if many || v.inputs.isEmpty then return { v with waiting := some (.input, some word) }
    else throw .usage

end Values

/-! ### Words -/

/-- A word that begins with two hyphens: a long name, and a value behind an equals sign. -/
def long (level : Level) (v : Values) (text : List Char) : Except Stop Values :=
  let (name, value) := match Text.cutFirst '=' text with
    | some (name, value) => (String.ofList name, some (String.ofList value))
    | none => (String.ofList text, none)
  match Slot.ofName? name level, Switch.ofName? name level, value with
  | some slot, _, _ => v.option slot value
  | none, some switch, none => v.throwSwitch switch
  | none, _, _ => .error .usage

/-- What stands behind the letter of an option, without an equals sign in front. -/
def attached : List Char → Option String
  | [] => none
  | '=' :: value => some (String.ofList value)
  | value => some (String.ofList value)

/-- Letters behind one hyphen: switches up to the first option, which takes the rest. -/
def letters (level : Level) (v : Values) : List Char → Except Stop Values
  | [] => .ok v
  | letter :: rest =>
    match Slot.ofLetter? letter level, Switch.ofLetter? letter level with
    | some slot, _ => v.option slot (attached rest)
    | none, some switch => do letters level (← v.throwSwitch switch) rest
    | none, none => .error .usage

/-- A word that is no option. Before the name of the command there are no inputs. -/
def word (level : Level) (v : Values) (text : String) : Except Stop Values :=
  if level = .top && !v.isWaiting then .error .usage
  else v.plain (level = .revive) text

/-- A word that belongs to no option, whatever it looks like. -/
def input (level : Level) (v : Values) (text : String) : Except Stop Values :=
  if v.isWaiting then .error .usage else word level v text

/-- The values of one level, and the name of the command with all words behind it, if it comes. -/
def readLevel (level : Level) (v : Values) :
    List String → Except Stop (Values × Option (Level × List String))
  | [] => .ok (v, none)
  | text :: rest =>
    let names := level = .top && !v.isWaiting
    match Level.ofCommand? text with
    | some command =>
      if names then .ok (v, some (command, rest))
      else do readLevel level (← word level v text) rest
    | none =>
      if names && text = "help" then
        match rest with
        | [] => .error .help
        | [topic] => .error (if topic ∈ ["revive", "check", "help"] then .help else .usage)
        | _ => .error .usage
      else match text.toList with
        | ['-', '-'] => do return (← rest.foldlM (input level) v, none)
        | '-' :: '-' :: name => do readLevel level (← long level v name) rest
        | '-' :: letter :: more => do readLevel level (← letters level v (letter :: more)) rest
        | _ => do readLevel level (← word level v text) rest

/-! ### Command lines -/

/-- The command of a level, which wants what it needs. -/
def command (v : Values) : Level → Except Stop Command
  | .revive => .ok (.revive ⟨v.inputs, v.name, v.out, v.pretty⟩)
  | .check =>
    match v.inputs with
    | [input] => .ok (.check input)
    | _ => .error .usage
  | .top => .error .usage

/-- The invocation that a command line asks for. What is given behind the name of the command stands
for what is given before it. -/
def parse (words : List String) : Except Stop Invocation := do
  match ← readLevel .top .none words with
  | (_, none) => throw .usage
  | (outer, some (level, rest)) =>
    let (inner, _) ← readLevel level .none rest
    let inner ← inner.settle
    let command ← command inner level
    let outer ← outer.settle
    return ⟨inner.config.or outer.config, inner.projectRoot.or outer.projectRoot, command⟩

end DocTree.CommandLine
