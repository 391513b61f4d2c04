import Mathlib.Data.List.Forall2
import DocTree.Proofs.Reading.Nested

/-!
The format as the reader sees it. `Place` tells apart the objects of a serialized project, and for each
of them `Place.keys` lists the keys that are looked up in it, with the shape that the value is to have.
A value of another shape counts as absent, and a key that is not listed is not looked at.

`Pruned` relates a value to what is left of it when fields are left out, anywhere in it.
-/

namespace DocTree

/-! ### Places and shapes -/

/-- What an object, or an array of objects, describes. -/
inductive Place where
  | reflection | flags | comment | blockTag | part | group | category | source
  /-- A type that is no reference. -/
  | type
  | reference | symbol
  /-- A big integer. -/
  | digits
  | files
  /-- A table whose keys are data. -/
  | table
  /-- Data that is kept as it is. -/
  | data
  /-- Nothing that is looked into. -/
  | other
  deriving DecidableEq, Repr

/-- What the value of a key is to be. -/
inductive Shape where
  | text | word | flag
  | object (inside : Place)
  | array (items : Place)
  /-- The target of a named type: a number or a symbol. -/
  | target
  /-- The target of an inline tag: a number, a symbol or an address. -/
  | link
  /-- The value of a literal type, which may be anything. -/
  | literal
  deriving DecidableEq, Repr

namespace Shape

/-- The value is what it is to be. -/
def accepts : Shape → Json → Bool
  | .text, v => v.asString?.isSome
  | .word, v => v.asWord?.isSome
  | .flag, v => v.asBool?.isSome
  | .object _, v => v.asObject?.isSome
  | .array _, v => v.asArray?.isSome
  | .target, v => v.asWord?.isSome || v.asObject?.isSome
  | .link, v => v.asWord?.isSome || v.asObject?.isSome || v.asString?.isSome
  | .literal, _ => true

/-- What stands inside the value. -/
def inside : Shape → Place
  | .object place | .array place => place
  | .target | .link => .symbol
  | .literal => .digits
  | .text | .word | .flag => .other

end Shape

namespace Place

/-- The keys that are looked up in an object. -/
def keys : Place → List (String × Shape)
  | .reflection =>
    [("id", .word), ("variant", .text), ("name", .text), ("kind", .word), ("flags", .object .flags),
     ("comment", .object .comment), ("type", .object .type), ("children", .array .reflection),
     ("documents", .array .reflection), ("groups", .array .group), ("categories", .array .category),
     ("sources", .array .source), ("typeParameters", .array .reflection),
     ("parameters", .array .reflection), ("signatures", .array .reflection),
     ("indexSignatures", .array .reflection), ("getSignature", .object .reflection),
     ("setSignature", .object .reflection), ("overwrites", .object .type),
     ("inheritedFrom", .object .type), ("implementationOf", .object .type),
     ("extendedTypes", .array .type), ("extendedBy", .array .type),
     ("implementedTypes", .array .type), ("implementedBy", .array .type), ("defaultValue", .text),
     ("default", .object .type), ("varianceModifier", .text), ("packageName", .text),
     ("packageVersion", .text), ("readme", .array .part), ("content", .array .part),
     ("frontmatter", .object .data), ("target", .word), ("symbolIdMap", .object .table),
     ("files", .object .files)]
  | .flags =>
    [("isPrivate", .flag), ("isProtected", .flag), ("isPublic", .flag), ("isStatic", .flag),
     ("isExternal", .flag), ("isOptional", .flag), ("isRest", .flag), ("isAbstract", .flag),
     ("isConst", .flag), ("isReadonly", .flag), ("isInherited", .flag)]
  | .comment =>
    [("summary", .array .part), ("blockTags", .array .blockTag), ("modifierTags", .array .other),
     ("label", .text)]
  | .blockTag => [("tag", .text), ("name", .text), ("content", .array .part)]
  | .part =>
    [("kind", .text), ("text", .text), ("tag", .text), ("target", .link), ("tsLinkText", .text),
     ("targetAnchor", .text)]
  | .group =>
    [("title", .text), ("description", .array .part), ("children", .array .other),
     ("categories", .array .category)]
  | .category => [("title", .text), ("description", .array .part), ("children", .array .other)]
  | .source => [("fileName", .text), ("line", .word), ("character", .word), ("url", .text)]
  | .type =>
    [("type", .text), ("name", .text), ("elementType", .object .type), ("checkType", .object .type),
     ("extendsType", .object .type), ("trueType", .object .type), ("falseType", .object .type),
     ("objectType", .object .type), ("indexType", .object .type), ("constraint", .object .type),
     ("types", .array .type), ("value", .literal), ("parameter", .text),
     ("parameterType", .object .type), ("templateType", .object .type), ("nameType", .object .type),
     ("readonlyModifier", .text), ("optionalModifier", .text), ("element", .object .type),
     ("isOptional", .flag), ("asserts", .flag), ("targetType", .object .type),
     ("queryType", .object .type), ("declaration", .object .reflection), ("head", .text),
     ("tail", .array .type), ("elements", .array .type), ("operator", .text),
     ("target", .object .type), ("elementSummaries", .array .part)]
  | .reference =>
    [("type", .text), ("name", .text), ("target", .target), ("typeArguments", .array .type),
     ("qualifiedName", .text), ("package", .text), ("externalUrl", .text),
     ("refersToTypeParameter", .flag), ("preferValues", .flag)]
  | .symbol => [("sourceFileName", .text), ("qualifiedName", .text)]
  | .digits => [("value", .text), ("negative", .flag)]
  | .files => [("entries", .object .table), ("reflections", .object .table)]
  | .table | .data | .other => []

def all : List Place :=
  [.reflection, .flags, .comment, .blockTag, .part, .group, .category, .source, .type, .reference,
   .symbol, .digits, .files, .table, .data, .other]

/-- The shape of a key that is looked up. -/
def shape? (place : Place) (key : String) : Option Shape := place.keys.lookup key

/-- What stands under a key. The entries of a table may be symbols, and data stays data. -/
def inside (place : Place) (key : String) : Place :=
  match place with
  | .table => .symbol
  | .data => .data
  | place => (place.shape? key).elim .other Shape.inside

/-- Fields may be left out here. -/
def isOpen : Place → Bool
  | .table | .data => false
  | _ => true

/-- The place of an object among types is told by the object. -/
def «at» (place : Place) (fields : Fields) : Place :=
  match place with
  | .type => if fields.text "type" = TypeKind.reference.tag then .reference else .type
  | place => place

end Place

/-- Every key that is looked up anywhere. -/
def knownKeys : List String := Place.all.flatMap fun place => place.keys.map (·.1)

theorem Place.shape?_eq_none {place : Place} {key : String} (h : key ∉ knownKeys) :
    place.shape? key = none := by
  have hall : place ∈ Place.all := by cases place <;> decide
  rw [shape?, List.lookup_eq_none_iff]
  rintro ⟨k, shape⟩ hk
  rw [bne_iff_ne]
  rintro rfl
  exact h (List.mem_flatMap.mpr ⟨place, hall, List.mem_map.mpr ⟨_, hk, rfl⟩⟩)

/-! ### Leaving out fields -/

mutual

/-- The second value is the first one with fields left out, each of which may be left out where it
stands. No key stands twice in an object. -/
inductive Pruned (may : Place → String → Json → Prop) : Place → Json → Json → Prop
  | refl (place : Place) (v : Json) : Pruned may place v v
  | arr {place : Place} {items items' : List Json} :
    PrunedItems may place items items' → Pruned may place (.arr items) (.arr items')
  | obj {place : Place} {fields fields' : Fields} :
    PrunedFields may (place.at fields) fields fields' → Pruned may place (.obj fields) (.obj fields')

inductive PrunedItems (may : Place → String → Json → Prop) : Place → List Json → List Json → Prop
  | nil {place : Place} : PrunedItems may place [] []
  | cons {place : Place} {v v' : Json} {rest rest' : List Json} :
    Pruned may place v v' → PrunedItems may place rest rest' →
    PrunedItems may place (v :: rest) (v' :: rest')

inductive PrunedFields (may : Place → String → Json → Prop) : Place → Fields → Fields → Prop
  | nil {place : Place} : PrunedFields may place [] []
  | keep {place : Place} {key : String} {v v' : Json} {rest rest' : Fields} :
    Pruned may (place.inside key) v v' → PrunedFields may place rest rest' →
    PrunedFields may place ((key, v) :: rest) ((key, v') :: rest')
  | drop {place : Place} {key : String} {v : Json} {rest rest' : Fields} :
    place.isOpen = true → may place key v → key ∉ rest.map Prod.fst →
    PrunedFields may place rest rest' → PrunedFields may place ((key, v) :: rest) rest'

end

variable {may may' : Place → String → Json → Prop} {place : Place} {v v' : Json}
  {items items' : List Json} {fields fields' : Fields} {key : String}

mutual

theorem Pruned.mono (h : ∀ place key v, may place key v → may' place key v) :
    ∀ {place v v'}, Pruned may place v v' → Pruned may' place v v'
  | _, _, _, .refl place v => .refl place v
  | _, _, _, .arr hitems => .arr (PrunedItems.mono h hitems)
  | _, _, _, .obj hfields => .obj (PrunedFields.mono h hfields)

theorem PrunedItems.mono (h : ∀ place key v, may place key v → may' place key v) :
    ∀ {place items items'}, PrunedItems may place items items' → PrunedItems may' place items items'
  | _, _, _, .nil => .nil
  | _, _, _, .cons hv hrest => .cons (Pruned.mono h hv) (PrunedItems.mono h hrest)

theorem PrunedFields.mono (h : ∀ place key v, may place key v → may' place key v) :
    ∀ {place fields fields'}, PrunedFields may place fields fields' →
      PrunedFields may' place fields fields'
  | _, _, _, .nil => .nil
  | _, _, _, .keep hv hrest => .keep (Pruned.mono h hv) (PrunedFields.mono h hrest)
  | _, _, _, .drop hopen hmay hkey hrest =>
    .drop hopen (h _ _ _ hmay) hkey (PrunedFields.mono h hrest)

end

mutual

/-- Nothing is left out of data. -/
theorem Pruned.eq_of_data : ∀ {v v'}, Pruned may .data v v' → v' = v
  | _, _, .refl .. => rfl
  | _, _, .arr hitems => congrArg Json.arr (PrunedItems.eq_of_data hitems)
  | _, _, .obj hfields => congrArg Json.obj (PrunedFields.eq_of_data hfields)

theorem PrunedItems.eq_of_data : ∀ {items items'}, PrunedItems may .data items items' → items' = items
  | _, _, .nil => rfl
  | _, _, .cons hv hrest => by rw [Pruned.eq_of_data hv, PrunedItems.eq_of_data hrest]

theorem PrunedFields.eq_of_data : ∀ {fields fields'}, PrunedFields may .data fields fields' →
    fields' = fields
  | _, _, .nil => rfl
  | _, _, .keep hv hrest => by rw [Pruned.eq_of_data hv, PrunedFields.eq_of_data hrest]

end

theorem PrunedFields.refl (place : Place) (fields : Fields) : PrunedFields may place fields fields := by
  induction fields with
  | nil => exact .nil
  | cons entry rest ih => exact .keep (.refl ..) ih

theorem PrunedItems.refl (place : Place) (items : List Json) : PrunedItems may place items items := by
  induction items with
  | nil => exact .nil
  | cons v rest ih => exact .cons (.refl ..) ih

namespace Pruned

theorem asString? (h : Pruned may place v v') : v'.asString? = v.asString? := by cases h <;> rfl

theorem asBool? (h : Pruned may place v v') : v'.asBool? = v.asBool? := by cases h <;> rfl

theorem asWord? (h : Pruned may place v v') : v'.asWord? = v.asWord? := by cases h <;> rfl

/-- An object stays one. -/
theorem asObject? (h : Pruned may place v v') : (v.asObject? = none ∧ v'.asObject? = none) ∨
    ∃ g g', v.asObject? = some g ∧ v'.asObject? = some g' ∧ PrunedFields may (place.at g) g g' := by
  cases h with
  | refl =>
    cases v with
    | obj g => exact .inr ⟨g, g, rfl, rfl, .refl ..⟩
    | _ => exact .inl ⟨rfl, rfl⟩
  | arr hitems => exact .inl ⟨rfl, rfl⟩
  | obj hfields => exact .inr ⟨_, _, rfl, rfl, hfields⟩

/-- An array stays one, with as many items. -/
theorem asArray? (h : Pruned may place v v') : (v.asArray? = none ∧ v'.asArray? = none) ∨
    ∃ items items', v.asArray? = some items ∧ v'.asArray? = some items' ∧
      PrunedItems may place items items' := by
  cases h with
  | refl =>
    cases v with
    | arr items => exact .inr ⟨items, items, rfl, rfl, .refl ..⟩
    | _ => exact .inl ⟨rfl, rfl⟩
  | arr hitems => exact .inr ⟨_, _, rfl, rfl, hitems⟩
  | obj hfields => exact .inl ⟨rfl, rfl⟩

end Pruned

theorem PrunedItems.forall₂ : ∀ {items items' : List Json}, PrunedItems may place items items' →
    List.Forall₂ (Pruned may place) items items'
  | _, _, .nil => .nil
  | _, _, .cons hv hrest => .cons hv hrest.forall₂

/-- The objects among the items. -/
theorem PrunedItems.objects : ∀ {items items' : List Json}, PrunedItems may place items items' →
    List.Forall₂ (fun g g' => PrunedFields may (place.at g) g g') (items.filterMap (·.asObject?))
      (items'.filterMap (·.asObject?))
  | _, _, .nil => .nil
  | _, _, .cons hv hrest => by
    rcases hv.asObject? with ⟨hnone, hnone'⟩ | ⟨g, g', hg, hg', hfields⟩
    · rw [List.filterMap_cons_none hnone, List.filterMap_cons_none hnone']
      exact hrest.objects
    · rw [List.filterMap_cons_some hg, List.filterMap_cons_some hg']
      exact .cons hfields hrest.objects

/-- What a reading of single values gives for the items, when it does not see what was left out. -/
theorem PrunedItems.filterMap {α : Type} {g : Json → Option α}
    (hg : ∀ v v', Pruned may place v v' → g v' = g v) :
    ∀ {items items' : List Json}, PrunedItems may place items items' →
      items'.filterMap g = items.filterMap g
  | _, _, .nil => rfl
  | _, _, .cons hv hrest => by
    rw [List.filterMap_cons, List.filterMap_cons, hg _ _ hv, hrest.filterMap hg]

/-- In a table every entry stays. -/
theorem PrunedFields.entries (hclosed : place.isOpen = false) :
    ∀ {fields fields' : Fields}, PrunedFields may place fields fields' →
      List.Forall₂ (fun e e' => e'.1 = e.1 ∧ Pruned may (place.inside e.1) e.2 e'.2) fields fields'
  | _, _, .nil => .nil
  | _, _, .keep hv hrest => .cons ⟨rfl, hv⟩ (hrest.entries hclosed)
  | _, _, .drop hopen _ _ _ => by
    rw [hclosed] at hopen
    cases hopen

theorem PrunedFields.sub : ∀ {fields fields' : Fields}, PrunedFields may place fields fields' →
    ∀ key, key ∉ fields.map Prod.fst → key ∉ fields'.map Prod.fst
  | _, _, .nil, _, h => h
  | _, _, .keep _ hrest, key, h => by
    rw [List.map_cons, List.mem_cons, not_or] at h ⊢
    exact ⟨h.1, hrest.sub key h.2⟩
  | _, _, .drop _ _ _ hrest, key, h => by
    rw [List.map_cons, List.mem_cons, not_or] at h
    exact hrest.sub key h.2

theorem Fields.value?_of_not_mem {fields : Fields} (h : key ∉ fields.map Prod.fst) :
    fields.value? key = none := by
  rw [value?, List.lookup_eq_none_iff]
  rintro ⟨k, v⟩ hk
  rw [bne_iff_ne]
  rintro rfl
  exact h (List.mem_map.mpr ⟨_, hk, rfl⟩)

/-- A key stands in both objects or in none, or it is one that may be left out. -/
theorem PrunedFields.value? {fields fields' : Fields} (h : PrunedFields may place fields fields')
    (key : String) : (fields.value? key = none ∧ fields'.value? key = none) ∨
      (∃ v v', fields.value? key = some v ∧ fields'.value? key = some v' ∧
        Pruned may (place.inside key) v v') ∨
      ∃ v, fields.value? key = some v ∧ fields'.value? key = none ∧ may place key v := by
  induction fields generalizing fields' with
  | nil =>
    cases h
    exact .inl ⟨rfl, rfl⟩
  | cons entry rest ih =>
    obtain ⟨k, v⟩ := entry
    by_cases hk : key = k
    · subst hk
      cases h with
      | keep hv hrest =>
        refine .inr (.inl ⟨_, _, ?_, ?_, hv⟩) <;> exact List.lookup_cons_self
      | drop _ hmay hkey hrest =>
        refine .inr (.inr ⟨_, List.lookup_cons_self, ?_, hmay⟩)
        exact Fields.value?_of_not_mem (hrest.sub _ hkey)
    · have hskip : ∀ (w : Json) (others : Fields),
          Fields.value? ((k, w) :: others) key = others.value? key := fun w others => by
        rw [Fields.value?, List.lookup_cons, beq_eq_false_iff_ne.mpr hk, Fields.value?]
      rw [hskip]
      cases h with
      | keep hv hrest =>
        rw [hskip]
        exact ih hrest
      | drop _ hmay hkey hrest => exact ih hrest

end DocTree
