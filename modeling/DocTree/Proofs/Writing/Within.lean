import DocTree.Proofs.RoundTrip.Whole
import DocTree.Proofs.Writing.Target
import DocTree.Text.Number

/-!
What stands within a value that was written: the reflections whose objects are nested in it, and the
numbers by which its objects mention reflections. Texts, comments, groupings and the tables of a project
hold no reflections, and they mention none that is not registered.
-/

namespace DocTree

/-! ### Objects within a value -/

namespace Json

mutual

/-- The objects within a value, itself included, in the order of the text. What a document has under
`frontmatter` is data, which is not looked into. -/
def within : Json → List Fields
  | .arr items => withinItems items
  | .obj fields => fields :: withinFields fields
  | .null | .bool _ | .num _ | .str _ => []

def withinItems : List Json → List Fields
  | [] => []
  | v :: rest => v.within ++ withinItems rest

def withinFields : List (String × Json) → List Fields
  | [] => []
  | (key, v) :: rest => (if key = "frontmatter" then [] else v.within) ++ withinFields rest

end

@[simp] theorem withinFields_flagField (key : String) (b : Bool) :
    withinFields (Writer.flagField key b) = [] := by
  cases b <;> simp [Writer.flagField, withinFields, within]

end Json

/-- The number of a reflection, if the object is one. -/
def Fields.reflectionId? (fields : Fields) : Option ReflectionId :=
  (fields.text? "variant").bind fun _ => (fields.value? "id").bind (·.asNat?)

/-- The numbers of the reflections whose objects are within a value. -/
def Json.reflectionIds (v : Json) : List ReflectionId := v.within.filterMap Fields.reflectionId?

/-- What an object mentions by number, beside what is nested in it, is among these reflections: the
target of a reference or a link, the members of a group or a category, those that have symbols and
those that own files. The target of a relative link is the number of a file. -/
structure Fields.Mentions (among : ReflectionId → Prop) (fields : Fields) : Prop where
  target : ∀ i, fields.value? "target" = some (.ofNat i) →
    fields.text? "kind" ≠ some "relative-link" → among i
  members : ∀ i, .ofNat i ∈ fields.items "children" → among i
  symbols : ∀ key ∈ ((fields.object? "symbolIdMap").getD []).map Prod.fst,
    ∃ i, among i ∧ key = ReflectionId.text i
  owners : ∀ v ∈ ((fields.object? "reflections").getD []).map Prod.snd, ∃ i, among i ∧ v = .ofNat i

/-- The objects show these reflections and mention no others than those among which they are. -/
structure Shows (among : ReflectionId → Prop) (objects : List Fields) (ids : List ReflectionId) :
    Prop where
  ids : (objects.filterMap Fields.reflectionId?).Perm ids
  mentions : ∀ fields ∈ objects, fields.Mentions among

namespace Shows

variable {among : ReflectionId → Prop} {objects objects' : List Fields} {ids ids' : List ReflectionId}
  {fields : Fields}

theorem nil : Shows among [] [] := ⟨.refl _, fun _ h => absurd h List.not_mem_nil⟩

theorem perm (h : Shows among objects ids) (hids : ids.Perm ids') : Shows among objects ids' :=
  ⟨h.ids.trans hids, h.mentions⟩

theorem append (h : Shows among objects ids) (h' : Shows among objects' ids') :
    Shows among (objects ++ objects') (ids ++ ids') where
  ids := by
    rw [List.filterMap_append]
    exact h.ids.append h'.ids
  mentions f hf := (List.mem_append.mp hf).elim (h.mentions f) (h'.mentions f)

/-- Objects that show no reflections may follow. -/
theorem append_nil (h : Shows among objects ids) (h' : Shows among objects' []) :
    Shows among (objects ++ objects') ids := by
  have hall := h.append h'
  rwa [List.append_nil] at hall

theorem flatMap {α : Type} {f : α → List Fields} {g : α → List ReflectionId} {xs : List α}
    (h : ∀ x ∈ xs, Shows among (f x) (g x)) : Shows among (xs.flatMap f) (xs.flatMap g) := by
  induction xs with
  | nil => exact .nil
  | cons x rest ih =>
    rw [List.flatMap_cons, List.flatMap_cons]
    exact (h x (List.mem_cons_self ..)).append (ih fun y hy => h y (List.mem_cons_of_mem _ hy))

/-- Of values that show no reflections none is shown. -/
theorem flatMap_nil {α : Type} {f : α → List Fields} {xs : List α}
    (h : ∀ x ∈ xs, Shows among (f x) []) : Shows among (xs.flatMap f) [] := by
  have hall := flatMap h
  rwa [List.flatMap_eq_nil_iff.mpr fun _ _ => rfl] at hall

/-- An object that is no reflection shows what is inside it. -/
theorem object (hid : fields.reflectionId? = none) (hmentions : fields.Mentions among)
    (h : Shows among (Json.withinFields fields) ids) : Shows among (Json.obj fields).within ids where
  ids := by
    rw [Json.within, List.filterMap_cons_none hid]
    exact h.ids
  mentions := List.forall_mem_cons.mpr ⟨hmentions, h.mentions⟩

/-- The object of a reflection shows it and what is inside it. -/
theorem reflection {i : ReflectionId} (hid : fields.reflectionId? = some i)
    (hmentions : fields.Mentions among) (h : Shows among (Json.withinFields fields) ids) :
    Shows among (Json.obj fields).within (i :: ids) where
  ids := by
    rw [Json.within, List.filterMap_cons_some hid]
    exact h.ids.cons i
  mentions := List.forall_mem_cons.mpr ⟨hmentions, h.mentions⟩

end Shows

theorem Fields.reflectionId?_eq_none {fields : Fields} (h : fields.value? "variant" = none) :
    fields.reflectionId? = none := by
  rw [Fields.reflectionId?, Fields.text?, h]
  rfl

section Keyed

variable {among : ReflectionId → Prop} {fields : Fields} {keys : List String}

/-- The keys by which an object says what it is and what it mentions. -/
def Fields.nameKeys : List String := ["variant", "target", "children", "symbolIdMap", "reflections"]

/-- An object without these keys shows what is inside it. -/
theorem Shows.unnamed {ids : List ReflectionId} (h : ∀ key ∈ Fields.nameKeys, fields.value? key = none)
    (hinside : Shows among (Json.withinFields fields) ids) :
    Shows among (Json.obj fields).within ids := by
  have htarget := h "target" (by decide)
  have hmembers := h "children" (by decide)
  have hsymbols := h "symbolIdMap" (by decide)
  have howners := h "reflections" (by decide)
  refine .object (Fields.reflectionId?_eq_none (h "variant" (by decide))) ⟨?_, ?_, ?_, ?_⟩ hinside
  all_goals simp [htarget, hmembers, hsymbols, howners, Fields.items, Fields.object?]

theorem Shows.keyed {ids : List ReflectionId} (h : Fields.Keyed keys fields)
    (hkeys : ∀ key ∈ Fields.nameKeys, key ∉ keys)
    (hinside : Shows among (Json.withinFields fields) ids) :
    Shows among (Json.obj fields).within ids :=
  .unnamed (fun key hkey => Copying.value?_eq_none h (hkeys key hkey)) hinside

end Keyed

/-! ### Texts and groupings -/

namespace Copying

open Json (within withinFields)

variable {c : Copying} {among : ReflectionId → Prop}

section Live

variable (hlive : ∀ i, c.project.contains i = true → among i)

include hlive

end Live

end Copying

/-! ### Tables -/

section Table

variable {among : ReflectionId → Prop} {fields : Fields}

/-- Under numbers there is nothing that is looked up by a word. -/
theorem Fields.value?_of_numbers (h : ∀ e ∈ fields, ∃ n : Nat, e.1 = toString n) {key : String}
    (hkey : key.toList.all Char.isDigit = false) : fields.value? key = none := by
  rw [value?, List.lookup_eq_none_iff]
  rintro e he
  obtain ⟨n, hn⟩ := h e he
  rw [bne_iff_ne]
  rintro rfl
  rw [hn, List.all_eq_false] at hkey
  obtain ⟨ch, hch, hdigit⟩ := hkey
  exact hdigit (Text.isDigit_of_mem_toString hch)

theorem Shows.entries (h : ∀ e ∈ fields, Shows among e.2.within []) :
    Shows among (Json.withinFields fields) [] := by
  induction fields with
  | nil => exact .nil
  | cons e rest ih =>
    have hrest := ih fun e he => h e (List.mem_cons_of_mem _ he)
    rw [Json.withinFields]
    split
    · exact hrest
    · exact (h e (List.mem_cons_self ..)).append hrest

/-- A table whose values show no reflections shows none. -/
theorem Shows.table {α : Type} {f : α → Json} (hf : ∀ x, Shows among (f x).within [])
    (entries : List (Nat × α)) :
    Shows among (Json.obj (entries.map fun e => (toString e.1, f e.2))).within [] := by
  have hwords : ∀ key ∈ Fields.nameKeys, key.toList.all Char.isDigit = false := by decide
  refine .unnamed (fun key hkey => Fields.value?_of_numbers (fun e he => ?_) (hwords key hkey))
    (.entries fun e he => ?_)
  · obtain ⟨entry, -, rfl⟩ := List.mem_map.mp he
    exact ⟨entry.1, rfl⟩
  · obtain ⟨entry, -, rfl⟩ := List.mem_map.mp he
    exact hf entry.2

end Table

namespace Copying

open Json (within withinFields)

variable {c : Copying} {among : ReflectionId → Prop}

end Copying

end DocTree
