/-!
What can be amiss in a serialized project that can be read nevertheless. The value concerned stays
unset or leads nowhere, and reading goes on.
-/

namespace DocTree

/-- What named a reflection. -/
inductive Mention where
  | group
  | inlineTag
  | referenceReflection
  | referenceType
  | symbolMap
  | fileTable
  | extension (name : String)
  deriving DecidableEq, Repr

def Mention.phrase : Mention → String
  | .group => "group"
  | .inlineTag => "inline tag"
  | .referenceReflection => "reference reflection"
  | .referenceType => "reference type"
  | .symbolMap => "symbol id map"
  | .fileTable => "file registry"
  | .extension name => name

/-- Something amiss. -/
inductive Issue where
  /-- A reflection is named that is not in the serialized project. -/
  | missingReflection (old : Nat) (mention : Mention)
  | missingFile (old : Nat)
  | unknownVariant (variant : String)
  | unknownTypeKind (kind : String)
  /-- A reflection stands where one of its sort cannot. -/
  | misplacedVariant (variant : String)
  deriving DecidableEq, Repr

def Issue.message : Issue → String
  | .missingReflection old mention =>
    mention.phrase ++ " refers to reflection " ++ toString old ++
      ", which is not part of the serialized project"
  | .missingFile old => "file " ++ toString old ++ " is not listed in the serialized file registry"
  | .unknownVariant variant => "unknown reflection variant `" ++ variant ++ "`"
  | .unknownTypeKind kind => "unknown type kind `" ++ kind ++ "`"
  | .misplacedVariant variant =>
    "a `" ++ variant ++ "` reflection cannot be nested inside another reflection"

end DocTree
