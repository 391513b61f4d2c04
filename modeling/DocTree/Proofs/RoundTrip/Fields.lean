import DocTree.Writer.Reflection

/-!
What a reader finds under the keys of an object that was written. The standard components write
every key once, so an object is the list of its fields as it stands, and the value of a key is found
by going through that list.
-/

namespace DocTree

namespace Fields

variable {fields more : Fields} {key other : String} {value : Json}

@[simp] theorem value?_nil (key : String) : value? [] key = none := rfl

@[simp] theorem value?_append (fields more : Fields) (key : String) :
    value? (fields ++ more) key = (fields.value? key).or (more.value? key) :=
  List.lookup_append

@[simp] theorem value?_cons (other : String) (value : Json) (more : Fields) (key : String) :
    value? ((other, value) :: more) key = if key = other then some value else more.value? key := by
  rw [value?, List.lookup_cons]
  by_cases h : key = other
  · simp [h]
  · rw [beq_eq_false_iff_ne.mpr h, if_neg h, value?]

@[simp] theorem value?_textField (other : String) (s : Option String) (key : String) :
    value? (Writer.textField other s) key = if key = other then s.map .str else none := by
  cases s <;> simp [Writer.textField]

@[simp] theorem value?_listField (other : String) (items : List Json) (key : String) :
    value? (Writer.listField other items) key =
      if key = other ∧ items ≠ [] then some (.arr items) else none := by
  cases items <;> simp [Writer.listField]

@[simp] theorem value?_flagField (other : String) (b : Bool) (key : String) :
    value? (Writer.flagField other b) key =
      if key = other ∧ b = true then some (.bool true) else none := by
  cases b <;> simp [Writer.flagField]

@[simp] theorem value?_valueField (other : String) (v : Option Json) (key : String) :
    value? (Writer.valueField other v) key = if key = other then v else none := by
  cases v <;> simp [Writer.valueField]

/-- The items of an array that is left out when it has none. -/
theorem items_of_listField {items : List Json}
    (h : fields.value? key = if items = [] then none else some (.arr items)) :
    fields.items key = items := by
  rw [Fields.items, h]
  by_cases hnil : items = []
  · rw [if_pos hnil, hnil]
    rfl
  · rw [if_neg hnil]
    rfl

/-- A flag that is left out when it is not set. -/
theorem flag_of_flagField {b : Bool}
    (h : fields.value? key = if b = true then some (.bool true) else none) : fields.flag key = b := by
  rw [flag, h]
  cases b <;> rfl

/-! ### Keys that are written once -/

/-- The keys are among these, in this order and each once. -/
def Keyed (keys : List String) (fields : Fields) : Prop := (fields.map (·.1)).Sublist keys

theorem Keyed.append {keys keys' : List String} (h : Keyed keys fields) (h' : Keyed keys' more) :
    Keyed (keys ++ keys') (fields ++ more) := by
  rw [Keyed, List.map_append]
  exact List.Sublist.append h h'

theorem Keyed.cons {keys : List String} (h : Keyed keys fields) (key : String) (value : Json) :
    Keyed (key :: keys) ((key, value) :: fields) := by
  rw [Keyed, List.map_cons]
  exact List.Sublist.cons_cons key h

theorem keyed_nil : Keyed [] [] := List.Sublist.refl []

theorem keyed_textField (key : String) (s : Option String) : Keyed [key] (Writer.textField key s) := by
  cases s <;> simp [Keyed, Writer.textField]

theorem keyed_listField (key : String) (items : List Json) :
    Keyed [key] (Writer.listField key items) := by
  cases items <;> simp [Keyed, Writer.listField]

theorem keyed_flagField (key : String) (b : Bool) : Keyed [key] (Writer.flagField key b) := by
  cases b <;> simp [Keyed, Writer.flagField]

theorem keyed_valueField (key : String) (v : Option Json) :
    Keyed [key] (Writer.valueField key v) := by
  cases v <;> simp [Keyed, Writer.valueField]

/-- Keys that are new and differ are written one after the other. -/
theorem setAll_of_nodup (h : ((fields ++ more).map (·.1)).Nodup) :
    fields.setAll more = fields ++ more := Assoc.foldl_insert_of_nodup h

end Fields

namespace Component

variable {Item : Type} {context : WriteContext} {item : Item}

/-- One component that writes the whole format writes its fields as they stand. -/
theorem compose_whole {own : Fields} {keys : List String} {number : Nat} (h : Fields.Keyed keys own)
    (hkeys : keys.Nodup) : compose (Serializer.whole number) context (fun _ => own) item = .obj own :=
  have hnodup : ((([] : Fields) ++ own).map (·.1)).Nodup := hkeys.sublist h
  congrArg Json.obj (Fields.setAll_of_nodup hnodup)

/-- Of the components of the variants the one of the variant at hand writes its fields, and no other
writes anything. -/
theorem foldl_variantParts {own : ReflectionPart → Fields} {tag : VariantTag}
    (h : ∀ other, other ≠ tag → own (.variant other) = []) (r : Reflection) (written : Fields) :
    (Serializer.variantParts.map (·.item)).foldl (apply context own r) written =
      written.setAll (own (.variant tag)) := by
  cases tag <;> simp [Serializer.variantParts, VariantTag.all, apply, h, Fields.setAll]

/-- The components of reflections write the fields that every reflection has, those of a container and
those of the variant one after the other. -/
theorem compose_reflectionParts {own : ReflectionPart → Fields} {tag : VariantTag} {r : Reflection}
    {keys : List String} (hothers : ∀ other, other ≠ tag → own (.variant other) = [])
    (h : Fields.Keyed keys (own .shared ++ own .container ++ own (.variant tag)))
    (hkeys : keys.Nodup) : compose Serializer.reflectionParts context own r =
      .obj (own .shared ++ own .container ++ own (.variant tag)) := by
  have hall := hkeys.sublist h
  have hfront : ((own .shared ++ own .container).map (·.1)).Nodup := by
    rw [List.map_append, List.nodup_append] at hall
    exact hall.1
  have hshared : ((([] : Fields) ++ own .shared).map (·.1)).Nodup := by
    rw [List.map_append, List.nodup_append] at hfront
    exact hfront.1
  calc compose Serializer.reflectionParts context own r
      = .obj ((Serializer.variantParts.map (·.item)).foldl (apply context own r)
          ((Fields.setAll [] (own .shared)).setAll (own .container))) := rfl
    _ = .obj (own .shared ++ own .container ++ own (.variant tag)) := by
      rw [foldl_variantParts hothers, Fields.setAll_of_nodup hshared, List.nil_append,
        Fields.setAll_of_nodup hfront, Fields.setAll_of_nodup hall]

end Component

namespace Json

/-! ### Values that are read back -/

@[simp] theorem asString?_str (s : String) : asString? (.str s) = some s := rfl
@[simp] theorem asBool?_bool (b : Bool) : asBool? (.bool b) = some b := rfl
@[simp] theorem asArray?_arr (items : List Json) : asArray? (.arr items) = some items := rfl
@[simp] theorem asObject?_obj (fields : Fields) : asObject? (.obj fields) = some fields := rfl
@[simp] theorem asNat?_ofNat (n : Nat) : asNat? (.ofNat n) = some n := rfl

theorem asWord?_ofNat (n : Nat) :
    asWord? (.ofNat n) = if n < wordBound then some n else none := by
  by_cases h : n < wordBound
  · simp [asWord?, h]
  · simpa [asWord?, h] using Nat.le_of_not_lt h

theorem filterMap_asObject? {α : Type} {f : α → Json} {g : α → Fields} (h : ∀ x, f x = .obj (g x))
    (xs : List α) : (xs.map f).filterMap asObject? = xs.map g := by
  induction xs with
  | nil => rfl
  | cons x rest ih =>
    rw [List.map_cons, h, List.filterMap_cons, ih]
    rfl

theorem filterMap_asString? (xs : List String) : (xs.map Json.str).filterMap asString? = xs := by
  rw [List.filterMap_map]
  exact List.filterMap_some

@[simp] theorem bind_asString? (s : Option String) : (s.map Json.str).bind asString? = s := by
  cases s <;> rfl

end Json

end DocTree
