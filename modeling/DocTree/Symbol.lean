import DocTree.Path

/-!
Symbols of the documented program. A symbol is identified by the file that declares it and its
qualified name; a position and a transient number tell apart symbols that share both. Neither of the
two is written to a serialized project.
-/

namespace DocTree

/-- The identity of a symbol. -/
structure Symbol where
  file : Path
  name : String
  pos : Option Nat
  transient : Option Nat
  deriving DecidableEq, Repr

namespace Symbol

/-- The symbol of a name in a file. -/
def ofName (file name : String) : Symbol :=
  ⟨.ofText file, name, none, none⟩

/-- The symbol of a serialized name, whose file is seen from the project's directory. -/
def ofSerialized (projectRoot file name : String) : Symbol :=
  ⟨.resolve projectRoot file, name, none, none⟩

/-- The file as it is written: seen from the project's directory where that is possible. -/
def serializedFile (s : Symbol) (projectRoot : String) : String :=
  if s.file.isAbsolute then s.file.relativeTo projectRoot else s.file.text

/-- An absent number counts as `-1`. -/
def numberText (n : Option Nat) : String :=
  n.elim "-1" toString

/-- A text that stands for the symbol in tables kept elsewhere: its parts, separated by a character
that names do not hold. -/
def stableKey (s : Symbol) : String :=
  let named := s.file.text ++ "\x00" ++ s.name
  match s.pos, s.transient with
  | none, none => named
  | pos, transient => named ++ "\x00" ++ numberText pos ++ "\x00" ++ numberText transient

/-- The symbol with its sort, for people. -/
def describe (s : Symbol) : String :=
  "ReflectionSymbolId(" ++ s.file.text ++ ":" ++ s.name ++
    s.pos.elim "" (fun pos => "@" ++ toString pos) ++ ")"

/-! ### Order -/

/-- An absent number comes before every number. -/
def compareNumber : Option Nat → Option Nat → Ordering
  | none, none => .eq
  | none, some _ => .lt
  | some _, none => .gt
  | some m, some n => compare m n

/-- By file, then name, then position, then transient number. -/
def order (a b : Symbol) : Ordering :=
  (compare a.file.text b.file.text).then <| (compare a.name b.name).then <|
    (compareNumber a.pos b.pos).then <| compareNumber a.transient b.transient

/-- In ascending order. -/
def sorted (symbols : List Symbol) : List Symbol :=
  symbols.mergeSort fun a b => (order a b).isLE

end Symbol

/-- A symbol as the program's analysis hands it over: with the symbol of the class or interface that
declares it, when it is a member. -/
structure DeclaredSymbol where
  symbol : Symbol
  parent : Option Symbol
  deriving DecidableEq, Repr

namespace DeclaredSymbol

/-- A symbol that is no member. -/
def ofSymbol (s : Symbol) : DeclaredSymbol := ⟨s, none⟩

/-- The files that declare the symbol. -/
def files (d : DeclaredSymbol) : List Path := [d.symbol.file]

end DeclaredSymbol

end DocTree
