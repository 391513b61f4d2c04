import DocTree.Project.Basic

/-!
The index of symbols. A symbol may document several reflections, a reflection has one symbol at a
time. Members that a class inherits share their symbol with the member of the class that declares
them; so that the index does not fill with inherited copies, registering such a member drops those
entries that do not belong to the declaring class.
-/

namespace DocTree.Project

/-- The numbers indexed under a symbol. -/
def indexed (p : Project) (s : Symbol) : List ReflectionId := (p.symbolIndex.lookup s).getD []

/-- Enter a reflection under a symbol, as it is. -/
def registerSymbolId (p : Project) (id : ReflectionId) (s : Symbol) : Project :=
  let ids := p.indexed s
  { p with
    symbolIndex := Assoc.insert s (if id ∈ ids then ids else ids ++ [id]) p.symbolIndex
    symbols := Assoc.insert id s p.symbols
    graph := none }

/-- The entries that belong to reflections of the declaring symbol. -/
def declaredEntries (p : Project) (declaring entries : List ReflectionId) : List ReflectionId :=
  entries.filter fun id => (p.parent? id).any (· ∈ declaring)

/-- The index before a member is entered: the entries of its symbol are narrowed when one of them has
another parent and the declaring symbol is known. -/
def narrowed (p : Project) (r : Reflection) (declared : DeclaredSymbol) :
    List (Symbol × List ReflectionId) :=
  match p.symbolIndex.lookup declared.symbol, declared.parent.bind (p.symbolIndex.lookup ·) with
  | some entries, some declaring =>
    if r.kind.isIn .classMember && entries.any fun other => p.parent? other ≠ r.parent then
      Assoc.insert declared.symbol (p.declaredEntries declaring entries) p.symbolIndex
    else p.symbolIndex
  | _, _ => p.symbolIndex

/-- Enter a registered reflection under a symbol, inherited members narrowed. -/
def registerSymbol (p : Project) (id : ReflectionId) (declared : DeclaredSymbol) : Project :=
  match p.get? id with
  | none => p
  | some r => { p with symbolIndex := p.narrowed r declared }.registerSymbolId id declared.symbol

/-- Forget the symbol of a reflection; a symbol without reflections leaves the index. -/
def purgeSymbol (p : Project) (id : ReflectionId) : Project :=
  match p.symbols.lookup id with
  | none => p
  | some s =>
    let index := match p.symbolIndex.lookup s with
      | none => p.symbolIndex
      | some ids =>
        let left := ids.filter (· ≠ id)
        if left.isEmpty then Assoc.erase s p.symbolIndex else Assoc.insert s left p.symbolIndex
    { p with symbolIndex := index, symbols := Assoc.erase id p.symbols }

/-! ### Looking up -/

/-- The reflections of a symbol. -/
def allOfSymbol (p : Project) (s : Symbol) : List Reflection := (p.indexed s).filterMap p.get?

/-- The first reflection of a symbol, anything rather than a reference. -/
def ofSymbol? (p : Project) (s : Symbol) : Option Reflection :=
  let found := p.allOfSymbol s
  (found.find? fun r => !r.isReference).or found.head?

/-- The reflection of a symbol under one parent. Members dropped from the index are still found among
the children of the parent. -/
def ofSymbolIn? (p : Project) (s : Symbol) (parent : ReflectionId) : Option ReflectionId :=
  ((p.indexed s).find? fun id => p.parent? id = some parent).or <|
    (p.registeredChildren parent).find? fun id => p.symbols.lookup id = some s

/-- The symbol of a reflection. -/
def symbolOf? (p : Project) (id : ReflectionId) : Option Symbol := p.symbols.lookup id

/-- Every reflection that has a symbol with it, in the order of the numbers. -/
def symbolMap (p : Project) : List (ReflectionId × Symbol) :=
  p.symbols.mergeSort fun a b => a.1 ≤ b.1

end DocTree.Project
