import DocTree.Reader.Revival

/-!
Reading texts and comments. Parts of an unknown kind are left out. A link to a reflection is kept by
its old number for now; a link to a file gets its new number at once, since files are read first.
-/

namespace DocTree.Reader

/-- The target of an inline tag: a number is a reflection, an object a symbol, a text an address. -/
def linkTarget : Option Json → ReadM (Option LinkTarget)
  | some (.num (.int (.ofNat n))) =>
    if n < Json.wordBound then do
      ReadM.change fun r => { r with pendingCount := r.pendingCount + 1 }
      return some (.pending n)
    else return none
  | some (.obj symbol) => return ((← ReadM.revival).symbol? symbol).map .symbol
  | some (.str address) => return some (.url address)
  | _ => return none

/-- The file of a relative link; one that is not listed is amiss. -/
def linkedFile : Option Nat → ReadM (Option FileId)
  | none => return none
  | some old => do
    let file := (← ReadM.revival).fileId? old
    if file.isNone then ReadM.report (.missingFile old)
    return file

/-- A piece of text. -/
def part (fields : Fields) : ReadM (Option Part) := do
  let words := fields.text "text"
  match fields.text? "kind" with
  | some "text" => return some (.text words)
  | some "code" => return some (.code words)
  | some "inline-tag" =>
    let target ← linkTarget (fields.value? "target")
    return some (.inlineTag (fields.text "tag") words target (fields.text? "tsLinkText"))
  | some "relative-link" =>
    let file ← linkedFile (fields.word? "target")
    return some (.relativeLink words file (fields.text? "targetAnchor"))
  | _ => return none

/-- The parts in an array; anything else holds none. -/
def parts (value : Option Json) : ReadM (List Part) :=
  ReadM.collect part (((value.bind (·.asArray?)).getD []).filterMap (·.asObject?))

/-- The parts under a key, if it is there. -/
def parts? (fields : Fields) (key : String) : ReadM (Option (List Part)) :=
  match fields.value? key with
  | none => return none
  | some value => return some (← parts (some value))

def blockTag (fields : Fields) : ReadM (Option BlockTag) := do
  let content ← parts (fields.value? "content")
  return some ⟨fields.text "tag", fields.text? "name", content⟩

def comment (fields : Fields) : ReadM Comment := do
  let summary ← parts (fields.value? "summary")
  let blockTags ← ReadM.collect blockTag (fields.objects "blockTags")
  let modifiers := (fields.items "modifierTags").filterMap (·.asString?)
  let bare : Comment := ⟨summary, blockTags, [], fields.text? "label"⟩
  return modifiers.foldl Comment.addModifier bare

/-- A category with the old numbers of its members. -/
def category (fields : Fields) : ReadM (Option Category) := do
  let description ← parts? fields "description"
  return some ⟨fields.text "title", description, fields.words "children"⟩

/-- The categories under a key, if it is there. -/
def categories? (fields : Fields) : ReadM (Option (List Category)) := do
  if fields.has "categories" then
    return some (← ReadM.collect category (fields.objects "categories"))
  else return none

/-- A group with the old numbers of its members. -/
def group (fields : Fields) : ReadM (Option Group) := do
  let description ← parts? fields "description"
  let categories ← categories? fields
  return some ⟨fields.text "title", description, fields.words "children", categories⟩

/-- The groups under a key, if it is there. -/
def groups? (fields : Fields) : ReadM (Option (List Group)) := do
  if fields.has "groups" then
    return some (← ReadM.collect group (fields.objects "groups"))
  else return none

/-- A place in a source file, whose full path follows from the name shown. -/
def source (root : String) (fields : Fields) : Source :=
  let fileName := fields.text "fileName"
  ⟨fileName, .resolve root fileName, (fields.word? "line").getD 0, (fields.word? "character").getD 0,
    fields.text? "url"⟩

def sources (fields : Fields) : ReadM (List Source) := do
  return (fields.objects "sources").map (source (← ReadM.revival).root)

end DocTree.Reader
