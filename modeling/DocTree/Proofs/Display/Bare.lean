import DocTree.Proofs.Reading.Walk
import DocTree.Ty.Display

/-!
What is not shown of a type: the documentation of the members of its unions, and where its references
lead. A type and the type without all that have the same text.
-/

namespace DocTree.Ty

mutual

/-- The type without the documentation of the members of unions; of a reference only the name and the
type arguments are left. -/
def bare : Ty → Ty
  | .array a => .array (bare a)
  | .conditional check extend yes no => .conditional (bare check) (bare extend) (bare yes) (bare no)
  | .indexedAccess object index => .indexedAccess (bare object) (bare index)
  | .inferred name bound => .inferred name (bareOption bound)
  | .intersection types => .intersection (bareList types)
  | .intrinsic name => .intrinsic name
  | .literal value => .literal value
  | .mapped parameter source template fixed missing nameType =>
    .mapped parameter (bare source) (bare template) fixed missing (bareOption nameType)
  | .namedTupleMember name isOptional a => .namedTupleMember name isOptional (bare a)
  | .optional a => .optional (bare a)
  | .predicate name asserts target => .predicate name asserts (bareOption target)
  | .query head args => .query (.broken head.name) (bareArgs args)
  | .reference head args => .reference (.broken head.name) (bareArgs args)
  | .reflection id => .reflection id
  | .rest a => .rest (bare a)
  | .templateLiteral head tail => .templateLiteral head (bareTail tail)
  | .tuple elements => .tuple (bareList elements)
  | .operator op target => .operator op (bare target)
  | .union types _ => .union (bareList types) none
  | .unknown name => .unknown name

def bareOption : Option Ty → Option Ty
  | none => none
  | some a => some (bare a)

def bareArgs : Option (List Ty) → Option (List Ty)
  | none => none
  | some as => some (bareList as)

def bareList : List Ty → List Ty
  | [] => []
  | a :: as => bare a :: bareList as

def bareTail : List (Ty × String) → List (Ty × String)
  | [] => []
  | (a, text) :: tail => (bare a, text) :: bareTail tail

end

theorem bare_strength (t : Ty) : t.bare.strength = t.strength := by
  cases t <;> rfl

theorem bare_wrapped (k : Strength) (t : Ty) (text : String) :
    t.bare.wrapped k text = t.wrapped k text := by
  rw [wrapped, wrapped, bare_strength]

section Lists

variable {separator : String} {k : Strength} {types : List Ty}

theorem displayMore_bareList (h : ∀ a ∈ types, a.bare.display = a.display) :
    displayMore separator k (bareList types) = displayMore separator k types := by
  induction types with
  | nil => rfl
  | cons a as ih =>
    rw [bareList, displayMore, displayMore, bare_wrapped, h a List.mem_cons_self,
      ih fun b hb => h b (List.mem_cons_of_mem a hb)]

theorem displayList_bareList (h : ∀ a ∈ types, a.bare.display = a.display) :
    displayList separator k (bareList types) = displayList separator k types := by
  cases types with
  | nil => rfl
  | cons a as =>
    rw [bareList, displayList, displayList, bare_wrapped, h a List.mem_cons_self,
      displayMore_bareList fun b hb => h b (List.mem_cons_of_mem a hb)]

theorem displayArgs_bareArgs {args : Option (List Ty)}
    (h : ∀ a ∈ args.getD [], a.bare.display = a.display) :
    displayArgs (bareArgs args) = displayArgs args := by
  match args with
  | none | some [] => rfl
  | some (a :: as) =>
    have hmore : ∀ b ∈ as, b.bare.display = b.display := fun b hb => h b (List.mem_cons_of_mem a hb)
    rw [bareArgs, bareList, displayArgs, displayArgs, h a List.mem_cons_self,
      displayMore_bareList hmore]

theorem displayAfter_bareOption {word : String} {o : Option Ty}
    (h : ∀ a ∈ o, a.bare.display = a.display) :
    displayAfter word k (bareOption o) = displayAfter word k o := by
  cases o with
  | none => rfl
  | some a => rw [bareOption, displayAfter, displayAfter, bare_wrapped, h a rfl]

theorem displayTail_bareTail {tail : List (Ty × String)}
    (h : ∀ a ∈ tail.map (·.1), a.bare.display = a.display) :
    displayTail (bareTail tail) = displayTail tail := by
  induction tail with
  | nil => rfl
  | cons entry tail ih =>
    obtain ⟨a, text⟩ := entry
    rw [bareTail, displayTail, displayTail, h a List.mem_cons_self,
      ih fun b hb => h b (List.mem_cons_of_mem a hb)]

end Lists

/-- What a type says besides is not shown. -/
theorem display_bare (t : Ty) : t.bare.display = t.display := by
  induction t using induct with
  | h t ih =>
    cases t with
    | intrinsic name | literal value | reflection id | unknown name => rfl
    | array a | optional a | rest a | namedTupleMember name isOptional a | operator op a =>
      simp only [bare, display, bare_wrapped, ih a (by simp [children])]
    | indexedAccess x y =>
      simp only [bare, display, bare_wrapped, ih x (by simp [children]), ih y (by simp [children])]
    | conditional x y z w =>
      simp only [bare, display, bare_wrapped, ih x (by simp [children]), ih y (by simp [children]),
        ih z (by simp [children]), ih w (by simp [children])]
    | inferred name bound | predicate name asserts bound =>
      have hbound : ∀ a ∈ bound, a.bare.display = a.display := fun a ha =>
        ih a (by simpa [children] using ha)
      rw [bare, display, display, displayAfter_bareOption hbound]
    | mapped parameter x y fixed missing nameType =>
      have hname : ∀ a ∈ nameType, a.bare.display = a.display := by
        rintro a rfl
        exact ih a (by simp [children])
      rw [bare, display, display, ih x (by simp [children]), ih y (by simp [children]),
        displayAfter_bareOption hname]
    | intersection ts | tuple ts | union ts summaries =>
      rw [bare, display, display, displayList_bareList fun a (ha : a ∈ ts) => ih a ha]
    | templateLiteral head tail => rw [bare, display, display, displayTail_bareTail ih]
    | query head args | reference head args =>
      rw [bare, display, display, displayArgs_bareArgs ih]
      rfl

end DocTree.Ty
