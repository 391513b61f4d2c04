import DocTree.Reader.Type

/-!
What stands inside an object. A value inside another one is less deep, so the depth of a serialized
project is enough to read all of it. A type is whole when every part that it cannot be without can be
made; only of a type that is not whole may something be left behind.
-/

namespace DocTree

/-! ### Depth -/

namespace Json

variable {fields : Fields} {key : String} {value : Json}

theorem mem_of_value? (h : fields.value? key = some value) : (key, value) ∈ fields := by
  induction fields with
  | nil => cases h
  | cons entry rest ih =>
    obtain ⟨k, v⟩ := entry
    rw [Fields.value?, List.lookup_cons] at h
    cases hk : key == k with
    | true =>
      simp only [hk, Option.some.injEq] at h
      rw [eq_of_beq hk, h]
      exact List.mem_cons_self ..
    | false =>
      simp only [hk] at h
      exact List.mem_cons_of_mem _ (ih h)

theorem depth_le_depthFields (h : (key, value) ∈ fields) : value.depth ≤ depthFields fields := by
  induction fields with
  | nil => cases h
  | cons entry rest ih =>
    rw [depthFields]
    rcases List.mem_cons.mp h with rfl | h
    · exact Nat.le_max_left ..
    · exact Nat.le_trans (ih h) (Nat.le_max_right ..)

/-- What stands under a key is less deep than the object. -/
theorem depth_lt_of_value? (h : fields.value? key = some value) :
    value.depth < (Json.obj fields).depth := by
  rw [depth]
  exact Nat.lt_succ_of_le (depth_le_depthFields (mem_of_value? h))

/-- An item is less deep than the array. -/
theorem depth_lt_of_mem {items : List Json} (h : value ∈ items) :
    value.depth < (Json.arr items).depth := by
  rw [depth, Nat.lt_succ_iff]
  induction items with
  | nil => cases h
  | cons item rest ih =>
    rw [depthItems]
    rcases List.mem_cons.mp h with rfl | h
    · exact Nat.le_max_left ..
    · exact Nat.le_trans (ih h) (Nat.le_max_right ..)

end Json

/-- Everything in an object is at most so deep. -/
def Shallow (fields : Fields) (depth : Nat) : Prop :=
  ∀ key value, fields.value? key = some value → value.depth ≤ depth

theorem shallow_of_le {fields : Fields} {depth : Nat} (h : (Json.obj fields).depth ≤ depth + 1) :
    Shallow fields depth := fun _ _ hvalue =>
  Nat.le_of_lt_succ (Nat.lt_of_lt_of_le (Json.depth_lt_of_value? hvalue) h)

theorem Shallow.items {fields : Fields} {depth : Nat} (h : Shallow fields depth) {key : String} :
    ∀ item ∈ fields.items key, item.depth ≤ depth := by
  intro item hitem
  rw [Fields.items] at hitem
  cases hvalue : fields.value? key with
  | none => rw [hvalue] at hitem; cases hitem
  | some value =>
    rw [hvalue, Option.bind_some] at hitem
    cases value with
    | arr items =>
      exact Nat.le_trans (Nat.le_of_lt (Json.depth_lt_of_mem hitem)) (h key _ hvalue)
    | _ => cases hitem

/-! ### Whole types -/

/-- The value stands somewhere in another one, or is that one. -/
inductive Json.Holds : Json → Json → Prop
  | self (j : Json) : Holds j j
  | item {items : List Json} {k j : Json} : k ∈ items → Holds k j → Holds (.arr items) j
  | field {fields : Fields} {key : String} {k j : Json} :
    (key, k) ∈ fields → Holds k j → Holds (.obj fields) j

/-- The keys of the parts without which a type of some kind is dropped. -/
def TypeKind.needs : TypeKind → List String
  | .array | .optional | .rest => ["elementType"]
  | .conditional => ["checkType", "extendsType", "trueType", "falseType"]
  | .indexedAccess => ["objectType", "indexType"]
  | .mapped => ["parameterType", "templateType"]
  | .namedTupleMember => ["element"]
  | .query => ["queryType"]
  | .typeOperator => ["target"]
  | _ => []

namespace Fields

/-- The kind of the type that an object describes. -/
def typeKind? (fields : Fields) : Option TypeKind := TypeKind.ofTag? (fields.text "type")

/-- The variant of the reflection that an object describes. -/
def variantTag? (fields : Fields) : Option VariantTag := VariantTag.ofName? (fields.text "variant")

/-- What a type of some kind cannot be without, its nested types apart. -/
def Complete (fields : Fields) : TypeKind → Prop
  | .literal => (Reader.literal? (fields.value? "value")).isSome = true
  | .query => ∃ inner, fields.object? "queryType" = some inner ∧ inner.typeKind? = some .reference
  | .reflection => ∃ inner tag, fields.object? "declaration" = some inner ∧
      inner.variantTag? = some tag ∧ tag ≠ .project
  | .typeOperator => ((fields.text? "operator").bind Operator.ofWord?).isSome = true
  | _ => True

/-- If the object describes a type, this type lacks nothing that it cannot be without. -/
def WholeType (fields : Fields) : Prop :=
  ∀ kind, fields.typeKind? = some kind → fields.Complete kind ∧
    ∀ key ∈ kind.needs, ∃ inner, fields.object? key = some inner ∧ inner.typeKind?.isSome = true

end Fields

/-- No type that is described somewhere in the value lacks a part that it cannot be without. -/
def Json.Whole (j : Json) : Prop := ∀ fields : Fields, j.Holds (.obj fields) → fields.WholeType

/-- An object at most so deep, in which no type lacks a part if `W` holds. -/
structure Fields.Within (fields : Fields) (depth : Nat) (W : Prop) : Prop where
  depth : (Json.obj fields).depth ≤ depth
  whole : W → (Json.obj fields).Whole

namespace Fields.Within

variable {fields inner : Fields} {depth : Nat} {W : Prop} {key : String} {value : Json}

/-- What stands under a key is within one level less. -/
theorem under (h : fields.Within (depth + 1) W) (hvalue : fields.value? key = some value) :
    value.depth ≤ depth ∧ (W → value.Whole) := by
  refine ⟨shallow_of_le h.depth key value hvalue, ?_⟩
  intro hW fields' hholds
  exact h.whole hW fields' (.field (Json.mem_of_value? hvalue) hholds)

theorem object? (h : fields.Within (depth + 1) W) (hinner : fields.object? key = some inner) :
    inner.Within depth W := by
  obtain ⟨value, hvalue, hobject⟩ := Option.bind_eq_some_iff.mp hinner
  cases value with
  | obj fields' =>
    obtain rfl : fields' = inner := Option.some.inj hobject
    exact ⟨(h.under hvalue).1, (h.under hvalue).2⟩
  | _ => cases hobject

theorem item (h : fields.Within (depth + 1) W) (hitem : value ∈ fields.items key) :
    value.depth ≤ depth ∧ (W → value.Whole) := by
  refine ⟨(shallow_of_le h.depth).items value hitem, ?_⟩
  intro hW fields' hholds
  rw [items] at hitem
  cases hvalue : fields.value? key with
  | none => rw [hvalue] at hitem; cases hitem
  | some array =>
    rw [hvalue, Option.bind_some] at hitem
    cases array with
    | arr items => exact (h.under hvalue).2 hW fields' (.item hitem hholds)
    | _ => cases hitem

theorem objects (h : fields.Within (depth + 1) W) (hinner : inner ∈ fields.objects key) :
    inner.Within depth W := by
  obtain ⟨value, hvalue, hobject⟩ := List.mem_filterMap.mp hinner
  cases value with
  | obj fields' =>
    obtain rfl : fields' = inner := Option.some.inj hobject
    exact ⟨(h.item hvalue).1, (h.item hvalue).2⟩
  | _ => cases hobject

theorem wholeType (h : fields.Within depth W) (hW : W) : fields.WholeType :=
  h.whole hW fields (.self _)

end Fields.Within

end DocTree
