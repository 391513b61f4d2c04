import DocTree.Ty.Basic

/-!
Walking through types. `subterms` lists a type and all types inside it, each before its parts; what
a type refers to and owns is read off that list. `adjust` changes names, references and summaries
everywhere and leaves the shape as it is.
-/

namespace DocTree

namespace Ty

/-- The types directly inside a type, in the order of its parts. -/
def children : Ty → List Ty
  | .array a | .optional a | .rest a | .namedTupleMember _ _ a | .operator _ a => [a]
  | .conditional a b c d => [a, b, c, d]
  | .indexedAccess a b => [a, b]
  | .inferred _ a | .predicate _ _ a => a.toList
  | .intersection as | .tuple as | .union as _ => as
  | .mapped _ a b _ _ n => a :: b :: n.toList
  | .query _ args | .reference _ args => args.getD []
  | .templateLiteral _ tail => tail.map (·.1)
  | .intrinsic _ | .literal _ | .reflection _ | .unknown _ => []

/-- Every type directly inside replaced. -/
def mapChildren (f : Ty → Ty) : Ty → Ty
  | .array a => .array (f a)
  | .conditional a b c d => .conditional (f a) (f b) (f c) (f d)
  | .indexedAccess a b => .indexedAccess (f a) (f b)
  | .inferred n a => .inferred n (a.map f)
  | .intersection as => .intersection (as.map f)
  | .mapped p a b r o n => .mapped p (f a) (f b) r o (n.map f)
  | .namedTupleMember n o a => .namedTupleMember n o (f a)
  | .optional a => .optional (f a)
  | .predicate n s a => .predicate n s (a.map f)
  | .query h args => .query h (args.map (·.map f))
  | .reference h args => .reference h (args.map (·.map f))
  | .rest a => .rest (f a)
  | .templateLiteral h tail => .templateLiteral h (tail.map fun (a, s) => (f a, s))
  | .tuple as => .tuple (as.map f)
  | .operator o a => .operator o (f a)
  | .union as s => .union (as.map f) s
  | .intrinsic n => .intrinsic n
  | .literal v => .literal v
  | .reflection d => .reflection d
  | .unknown n => .unknown n

/-! ### Reading -/

mutual

/-- The type and all types inside it, each before its parts. -/
def subterms : Ty → List Ty
  | .array a => .array a :: subterms a
  | .conditional a b c d =>
    .conditional a b c d :: (subterms a ++ subterms b ++ subterms c ++ subterms d)
  | .indexedAccess a b => .indexedAccess a b :: (subterms a ++ subterms b)
  | .inferred n a => .inferred n a :: subtermsOption a
  | .intersection as => .intersection as :: subtermsList as
  | .intrinsic n => [.intrinsic n]
  | .literal v => [.literal v]
  | .mapped p a b r o n =>
    .mapped p a b r o n :: (subterms a ++ subterms b ++ subtermsOption n)
  | .namedTupleMember n o a => .namedTupleMember n o a :: subterms a
  | .optional a => .optional a :: subterms a
  | .predicate n s a => .predicate n s a :: subtermsOption a
  | .query h args => .query h args :: subtermsArgs args
  | .reference h args => .reference h args :: subtermsArgs args
  | .reflection d => [.reflection d]
  | .rest a => .rest a :: subterms a
  | .templateLiteral h tail => .templateLiteral h tail :: subtermsTail tail
  | .tuple as => .tuple as :: subtermsList as
  | .operator o a => .operator o a :: subterms a
  | .union as s => .union as s :: subtermsList as
  | .unknown n => [.unknown n]

def subtermsOption : Option Ty → List Ty
  | none => []
  | some a => subterms a

def subtermsArgs : Option (List Ty) → List Ty
  | none => []
  | some as => subtermsList as

def subtermsList : List Ty → List Ty
  | [] => []
  | a :: as => subterms a ++ subtermsList as

def subtermsTail : List (Ty × String) → List Ty
  | [] => []
  | (a, _) :: tail => subterms a ++ subtermsTail tail

end

/-- Some type in it has the property. -/
def contains (p : Ty → Bool) (t : Ty) : Bool := t.subterms.any p

/-- The reference at the root of a type: a named one, or the one that is queried. -/
def ref? : Ty → Option (Ref × Option (List Ty))
  | .reference head args | .query head args => some (head, args)
  | _ => none

/-- The references in a type, those queried included. -/
def references (t : Ty) : List (Ref × Option (List Ty)) := t.subterms.filterMap ref?

/-- The declaration that is owned at the root of a type. -/
def declaration? : Ty → Option ReflectionId
  | .reflection id => some id
  | _ => none

/-- The declarations that a type owns. -/
def declarations (t : Ty) : List ReflectionId := t.subterms.filterMap declaration?

/-- The summaries at the root of a type. -/
def summaries? : Ty → Option (List (List Part))
  | .union _ summaries => summaries
  | _ => none

/-- The documentation of the members of all unions in a type. -/
def parts (t : Ty) : List Part := (t.subterms.filterMap summaries?).flatten.flatten

/-! ### Adjusting -/

/-- What is changed everywhere in a type. -/
structure Change where
  /-- A reference. -/
  ref : Ref → Ref
  /-- The name of an intrinsic type. -/
  intrinsic : String → String
  /-- A piece of documentation. -/
  part : Part → Part
  /-- Queries are changed too; otherwise they stay whole, type arguments included. -/
  inQueries : Bool

/-- Nothing is changed. -/
def Change.none : Change := ⟨id, id, id, true⟩

mutual

/-- A change made everywhere; the shape stays. -/
def adjust (c : Change) : Ty → Ty
  | .array a => .array (adjust c a)
  | .conditional x y z w => .conditional (adjust c x) (adjust c y) (adjust c z) (adjust c w)
  | .indexedAccess x y => .indexedAccess (adjust c x) (adjust c y)
  | .inferred n a => .inferred n (adjustOption c a)
  | .intersection as => .intersection (adjustList c as)
  | .intrinsic n => .intrinsic (c.intrinsic n)
  | .literal v => .literal v
  | .mapped p x y r o n => .mapped p (adjust c x) (adjust c y) r o (adjustOption c n)
  | .namedTupleMember n o a => .namedTupleMember n o (adjust c a)
  | .optional a => .optional (adjust c a)
  | .predicate n s a => .predicate n s (adjustOption c a)
  | .query h args => if c.inQueries then .query (c.ref h) (adjustArgs c args) else .query h args
  | .reference h args => .reference (c.ref h) (adjustArgs c args)
  | .reflection d => .reflection d
  | .rest a => .rest (adjust c a)
  | .templateLiteral h tail => .templateLiteral h (adjustTail c tail)
  | .tuple as => .tuple (adjustList c as)
  | .operator o a => .operator o (adjust c a)
  | .union as s => .union (adjustList c as) (s.map (·.map (·.map c.part)))
  | .unknown n => .unknown n

def adjustOption (c : Change) : Option Ty → Option Ty
  | none => none
  | some a => some (adjust c a)

def adjustArgs (c : Change) : Option (List Ty) → Option (List Ty)
  | none => none
  | some as => some (adjustList c as)

def adjustList (c : Change) : List Ty → List Ty
  | [] => []
  | a :: as => adjust c a :: adjustList c as

def adjustTail (c : Change) : List (Ty × String) → List (Ty × String)
  | [] => []
  | (a, s) :: tail => (adjust c a, s) :: adjustTail c tail

end

/-- Every reference gets the target that the function gives for its old one. -/
def mapTargets (f : RefTarget → RefTarget) (t : Ty) : Ty :=
  t.adjust { Change.none with ref := fun r => { r with target := f r.target } }

/-- Every intrinsic type of one name gets another. -/
def renameIntrinsic (source target : String) (t : Ty) : Ty :=
  t.adjust { Change.none with intrinsic := fun n => if n = source then target else n }

end Ty

end DocTree
