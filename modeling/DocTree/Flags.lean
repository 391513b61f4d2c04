import DocTree.Json.Basic

/-!
Modifiers of a reflection, as a set of bits. Of the three visibilities at most one is set by setting
flags one at a time; bits taken over as they are may say otherwise. In serialized form the set is an
object that holds `true` under the key of each flag.
-/

namespace DocTree

/-- A modifier. -/
inductive Flag where
  | isPrivate | isProtected | isPublic | isStatic | isExternal | isOptional | isRest | isAbstract
  | isConst | isReadonly | isInherited
  deriving DecidableEq, Repr

namespace Flag

/-- Every flag, in the order of the bits. -/
def all : List Flag :=
  [.isPrivate, .isProtected, .isPublic, .isStatic, .isExternal, .isOptional, .isRest, .isAbstract,
   .isConst, .isReadonly, .isInherited]

/-- The serialized key of a flag. -/
def key : Flag → String
  | .isPrivate => "isPrivate"
  | .isProtected => "isProtected"
  | .isPublic => "isPublic"
  | .isStatic => "isStatic"
  | .isExternal => "isExternal"
  | .isOptional => "isOptional"
  | .isRest => "isRest"
  | .isAbstract => "isAbstract"
  | .isConst => "isConst"
  | .isReadonly => "isReadonly"
  | .isInherited => "isInherited"

/-- The bit of a flag. -/
def bit : Flag → UInt32
  | .isPrivate => 0x1
  | .isProtected => 0x2
  | .isPublic => 0x4
  | .isStatic => 0x8
  | .isExternal => 0x10
  | .isOptional => 0x20
  | .isRest => 0x40
  | .isAbstract => 0x80
  | .isConst => 0x100
  | .isReadonly => 0x200
  | .isInherited => 0x400

/-- The flag of a serialized key. -/
def ofKey? (key : String) : Option Flag :=
  all.find? (·.key = key)

/-- One of the three visibilities. -/
def isVisibility : Flag → Bool
  | .isPrivate | .isProtected | .isPublic => true
  | _ => false

end Flag

/-- A set of modifiers. -/
structure Flags where
  bits : UInt32
  deriving DecidableEq, Repr, Inhabited

namespace Flags

def none : Flags := ⟨0⟩

/-- The bits of the three visibilities. -/
def visibilityBits : UInt32 := 0x7

def has (flags : Flags) (flag : Flag) : Bool :=
  flags.bits &&& flag.bit ≠ 0

/-- Set or clear one flag; setting a visibility clears the other two. -/
def set (flags : Flags) (flag : Flag) (value : Bool) : Flags :=
  if value then
    let kept := if flag.isVisibility then flags.bits &&& ~~~visibilityBits else flags.bits
    ⟨kept ||| flag.bit⟩
  else ⟨flags.bits &&& ~~~flag.bit⟩

/-- The flags that are set, in the order of the bits. -/
def toList (flags : Flags) : List Flag :=
  Flag.all.filter flags.has

/-- The flag that alone makes up the set. -/
def single? (flags : Flags) : Option Flag :=
  Flag.all.find? fun flag => flags.bits = flag.bit

/-- The serialized form. -/
def toFields (flags : Flags) : Fields :=
  flags.toList.map fun flag => (flag.key, .bool true)

/-- Read from a serialized object: keys that are no flag and values other than `true` are left out,
and of several visibilities the last one stays. -/
def ofFields (fields : Fields) : Flags :=
  fields.foldl (fun flags (key, value) =>
    match Flag.ofKey? key, value with
    | some flag, .bool true => flags.set flag true
    | _, _ => flags) none

end Flags

end DocTree
