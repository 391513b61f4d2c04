import DocTree.Writer.Component

/-!
The standard form of symbols, texts, comments, groupings, sources and files. A field that would say
nothing, an absent text or an empty list, is left out.
-/

namespace DocTree

/-- A serializer at work. -/
structure Writer where
  serializer : Serializer
  context : WriteContext

namespace Writer

/-- The project that is written. -/
def project (w : Writer) : Project := w.context.project

/-- The directory from which paths are seen. -/
def root (w : Writer) : String := w.context.root

/-! ### Fields that may be left out -/

/-- A text, if there is one. -/
def textField (key : String) : Option String → Fields
  | some s => [(key, .str s)]
  | none => []

/-- A list, if it has items. -/
def listField (key : String) (items : List Json) : Fields :=
  if items.isEmpty then [] else [(key, .arr items)]

/-- A flag, if it is set. -/
def flagField (key : String) (value : Bool) : Fields :=
  if value then [(key, .bool true)] else []

/-- A value, if there is one. -/
def valueField (key : String) : Option Json → Fields
  | some value => [(key, value)]
  | none => []

/-! ### Values -/

def symbol (w : Writer) (s : Symbol) : Json :=
  Component.compose (w.serializer.components .symbol) w.context
    (fun _ => [("sourceFileName", .str (s.serializedFile w.root)), ("qualifiedName", .str s.name)]) s

/-- Where an inline tag leads; nothing that is not there is written. -/
def linkTarget? (w : Writer) : Option LinkTarget → Option Json
  | some (.reflection id) => if w.project.contains id then some (.ofNat id) else none
  | some (.symbol s) => some (w.symbol s)
  | some (.url address) => some (.str address)
  | some (.pending _) | none => none

def partFields (w : Writer) : Part → Fields
  | .text s | .code s => [("text", .str s)]
  | .inlineTag tag s target linkText =>
    [("tag", .str tag), ("text", .str s)] ++ valueField "target" (w.linkTarget? target) ++
      textField "tsLinkText" linkText
  | .relativeLink s target anchor =>
    [("text", .str s)] ++ valueField "target" (target.map .ofNat) ++ textField "targetAnchor" anchor

def part (w : Writer) (p : Part) : Json :=
  Component.compose (w.serializer.components .part) w.context
    (fun _ => ("kind", .str p.kind) :: w.partFields p) p

def parts (w : Writer) (ps : List Part) : Json := .arr (ps.map w.part)

def blockTag (w : Writer) (t : BlockTag) : Json :=
  Component.compose (w.serializer.components .blockTag) w.context
    (fun _ => [("tag", .str t.tag)] ++ textField "name" t.name ++ [("content", w.parts t.content)]) t

def comment (w : Writer) (c : Comment) : Json :=
  Component.compose (w.serializer.components .comment) w.context
    (fun _ => [("summary", w.parts c.summary)] ++ listField "blockTags" (c.blockTags.map w.blockTag) ++
      listField "modifierTags" (c.modifierTags.map .str) ++ textField "label" c.label) c

/-- The numbers that are registered. -/
def liveIds (w : Writer) (ids : List ReflectionId) : List Json :=
  (ids.filter w.project.contains).map .ofNat

def category (w : Writer) (c : Category) : Json :=
  Component.compose (w.serializer.components .category) w.context
    (fun _ => [("title", .str c.title)] ++ valueField "description" (c.description.map w.parts) ++
      listField "children" (w.liveIds c.children)) c

def group (w : Writer) (g : Group) : Json :=
  Component.compose (w.serializer.components .group) w.context
    (fun _ => [("title", .str g.title)] ++ valueField "description" (g.description.map w.parts) ++
      listField "children" (w.liveIds g.children) ++
      listField "categories" ((g.categories.getD []).map w.category)) g

def source (w : Writer) (s : Source) : Json :=
  Component.compose (w.serializer.components .source) w.context
    (fun _ => [("fileName", .str s.fileName), ("line", .ofNat s.line), ("character", .ofNat s.column)] ++
      textField "url" s.url) ⟨s⟩

/-- A path as it is written: seen from the project's directory where that is possible. -/
def path (w : Writer) (p : Path) : String :=
  if p.isAbsolute then p.relativeTo w.root else p.text

def files (w : Writer) (t : FileTable) : Json :=
  let owners := t.owners.filter fun (_, id) => w.project.contains id
  Component.compose (w.serializer.components .files) w.context
    (fun _ => [("entries", .obj (t.entries.map fun (id, p) => (toString id, .str (w.path p)))),
      ("reflections", .obj (owners.map fun (file, id) => (toString file, .ofNat id)))]) t

end Writer

end DocTree
