import DocTree.Id
import DocTree.Symbol
import DocTree.Text.Blank

/-!
Documentation comments, already taken apart: a summary, block tags with their content, modifier tags
and a label. Text is a list of parts, some of which link to a reflection, a symbol, an address or a
file.
-/

namespace DocTree

/-- Where an inline tag leads. -/
inductive LinkTarget where
  | reflection (id : ReflectionId)
  | symbol (s : Symbol)
  | url (address : String)
  /-- The number of a reflection in a serialized project, before it is known in the new one. -/
  | pending (old : Nat)
  deriving DecidableEq, Repr

/-- A piece of documentation text. -/
inductive Part where
  | text (text : String)
  | code (text : String)
  | inlineTag (tag text : String) (target : Option LinkTarget) (linkText : Option String)
  | relativeLink (text : String) (target : Option FileId) (anchor : Option String)
  deriving DecidableEq, Repr

namespace Part

/-- The serialized name of the sort of part. -/
def kind : Part → String
  | .text .. => "text"
  | .code .. => "code"
  | .inlineTag .. => "inline-tag"
  | .relativeLink .. => "relative-link"

/-- The words of a part. -/
def words : Part → String
  | .text s | .code s | .inlineTag _ s _ _ | .relativeLink s _ _ => s

/-- Where an inline tag leads, if this is one that leads anywhere. -/
def target? : Part → Option LinkTarget
  | .inlineTag _ _ target _ => target
  | _ => none

/-- An inline tag with another target; other parts stay. -/
def mapTarget (f : LinkTarget → Option LinkTarget) : Part → Part
  | .inlineTag tag s target linkText => .inlineTag tag s (target.bind f) linkText
  | part => part

/-- The words of all parts, joined. -/
def allWords (parts : List Part) : String :=
  String.join (parts.map words)

end Part

/-- A tag with content, such as the description of a parameter. -/
structure BlockTag where
  tag : String
  name : Option String
  content : List Part
  deriving DecidableEq, Repr

/-- A documentation comment. The modifier tags are a set, in the order in which they came. -/
structure Comment where
  summary : List Part
  blockTags : List BlockTag
  modifierTags : List String
  label : Option String
  deriving DecidableEq, Repr

namespace Comment

def ofSummary (summary : List Part) : Comment := ⟨summary, [], [], none⟩

def hasModifier (c : Comment) (tag : String) : Bool := tag ∈ c.modifierTags

/-- Add a modifier tag at the end, unless it is there. -/
def addModifier (c : Comment) (tag : String) : Comment :=
  if c.hasModifier tag then c else { c with modifierTags := c.modifierTags ++ [tag] }

/-- The first block tag of a name. -/
def tag? (c : Comment) (tag : String) : Option BlockTag := c.blockTags.find? (·.tag = tag)

/-- The block tags of a name. -/
def tagsNamed (c : Comment) (tag : String) : List BlockTag := c.blockTags.filter (·.tag = tag)

/-- Drop the block tags of a name. -/
def removeTags (c : Comment) (tag : String) : Comment :=
  { c with blockTags := c.blockTags.filter (·.tag ≠ tag) }

/-- Says nothing: a blank summary and no tags. A label alone says nothing. -/
def isEmpty (c : Comment) : Bool :=
  c.summary.all (fun part => Text.allBlank part.words) && c.blockTags.isEmpty &&
    c.modifierTags.isEmpty

/-- All parts: the summary, then the content of each block tag. -/
def parts (c : Comment) : List Part :=
  c.summary ++ c.blockTags.flatMap (·.content)

/-- Every part replaced. -/
def mapParts (f : Part → Part) (c : Comment) : Comment :=
  { c with
    summary := c.summary.map f
    blockTags := c.blockTags.map fun tag => { tag with content := tag.content.map f } }

/-- Equal, where the order of modifier tags does not count. -/
def same (a b : Comment) : Bool :=
  a.summary = b.summary && a.blockTags = b.blockTags && a.label = b.label &&
    a.modifierTags.length = b.modifierTags.length && a.modifierTags.all b.hasModifier

end Comment

end DocTree
