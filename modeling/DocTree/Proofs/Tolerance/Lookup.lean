import DocTree.Proofs.Tolerance.Format

/-!
What a look-up finds when harmless fields are left out. A field is harmless when its key is not looked
up or its value counts as absent. For some lists the reader tells an absent key from one that counts as
absent: the first gives no list, the second an empty one. A `Blur` says for which of these lists the
difference is passed over; only then may their keys be left out.
-/

namespace DocTree

/-- For which lists it is passed over whether they are absent or empty. -/
structure Blur where
  /-- Groups, categories and type arguments. -/
  lists : Bool
  /-- Readmes and descriptions. -/
  texts : Bool
  deriving DecidableEq, Repr

namespace Blur

/-- Nothing is passed over. -/
def exact : Blur := ⟨false, false⟩

/-- What is not written is passed over. -/
def unwritten : Blur := ⟨true, false⟩

/-- Everything is passed over. -/
def all : Blur := ⟨true, true⟩

/-- The key may be left out, as far as it matters whether it is there. -/
def allows (b : Blur) (key : String) : Bool :=
  if key ∈ ["readme", "description"] then b.texts
  else if key ∈ ["groups", "categories", "typeArguments"] then b.lists
  else true

end Blur

theorem eq_none_of_isSome_eq_false {α : Type} {o : Option α} (h : o.isSome = false) : o = none :=
  Option.isNone_iff_eq_none.mp (Option.isSome_eq_false_iff.mp h)

/-- The reader does not miss the field. -/
def Harmless (b : Blur) (place : Place) (key : String) (v : Json) : Prop :=
  ∀ shape, place.shape? key = some shape → shape.accepts v = false ∧ b.allows key = true

/-- The second object is the first one with harmless fields left out. -/
abbrev Leaner (b : Blur) (place : Place) (fields fields' : Fields) : Prop :=
  PrunedFields (Harmless b) place fields fields'

theorem Place.inside_of_shape? {place : Place} {key : String} {shape : Shape}
    (h : place.shape? key = some shape) : place.inside key = shape.inside := by
  rw [inside.eq_def]
  split
  · cases h
  · cases h
  · rw [h]
    rfl

namespace Leaner

variable {b : Blur} {place q : Place} {f f' : Fields} {key : String} {shape : Shape}

/-- A reading of the value does not see what was left out. -/
theorem bind {α : Type} {g : Json → Option α} (h : Leaner b place f f')
    (hk : place.shape? key = some shape)
    (hg : ∀ v v', Pruned (Harmless b) shape.inside v v' → g v' = g v)
    (hn : ∀ v, shape.accepts v = false → g v = none) :
    (f'.value? key).bind g = (f.value? key).bind g := by
  rcases h.value? key with ⟨hv, hv'⟩ | ⟨v, v', hv, hv', hpruned⟩ | ⟨v, hv, hv', hmay⟩
  · rw [hv, hv']
  · rw [hv, hv']
    exact hg v v' (Place.inside_of_shape? hk ▸ hpruned)
  · rw [hv, hv']
    exact (hn v (hmay shape hk).1).symm

theorem text? (h : Leaner b place f f') (hk : place.shape? key = some .text) :
    f'.text? key = f.text? key :=
  h.bind hk (fun _ _ => Pruned.asString?) fun _ => eq_none_of_isSome_eq_false

theorem text (h : Leaner b place f f') (hk : place.shape? key = some .text) :
    f'.text key = f.text key := by
  rw [Fields.text, Fields.text, h.text? hk]

theorem word? (h : Leaner b place f f') (hk : place.shape? key = some .word) :
    f'.word? key = f.word? key :=
  h.bind hk (fun _ _ => Pruned.asWord?) fun _ => eq_none_of_isSome_eq_false

theorem flag (h : Leaner b place f f') (hk : place.shape? key = some .flag) :
    f'.flag key = f.flag key := by
  have hbind : (f'.value? key).bind (·.asBool?) = (f.value? key).bind (·.asBool?) :=
    h.bind hk (fun _ _ => Pruned.asBool?) fun _ => eq_none_of_isSome_eq_false
  rw [Fields.flag, Fields.flag, hbind]

/-- Both objects or none. -/
theorem object? (h : Leaner b place f f') (hk : place.shape? key = some (.object q)) :
    (f.object? key = none ∧ f'.object? key = none) ∨
      ∃ g g', f.object? key = some g ∧ f'.object? key = some g' ∧ Leaner b (q.at g) g g' := by
  rw [Fields.object?, Fields.object?]
  rcases h.value? key with ⟨hv, hv'⟩ | ⟨v, v', hv, hv', hpruned⟩ | ⟨v, hv, hv', hmay⟩
  · rw [hv, hv']
    exact .inl ⟨rfl, rfl⟩
  · rw [hv, hv']
    exact (Place.inside_of_shape? hk ▸ hpruned).asObject?
  · rw [hv, hv']
    exact .inl ⟨eq_none_of_isSome_eq_false (hmay _ hk).1, rfl⟩

/-- Both arrays or none. -/
theorem array? (h : Leaner b place f f') (hk : place.shape? key = some (.array q)) :
    ((f.value? key).bind (·.asArray?) = none ∧ (f'.value? key).bind (·.asArray?) = none) ∨
      ∃ items items', (f.value? key).bind (·.asArray?) = some items ∧
        (f'.value? key).bind (·.asArray?) = some items' ∧
        PrunedItems (Harmless b) q items items' := by
  rcases h.value? key with ⟨hv, hv'⟩ | ⟨v, v', hv, hv', hpruned⟩ | ⟨v, hv, hv', hmay⟩
  · rw [hv, hv']
    exact .inl ⟨rfl, rfl⟩
  · rw [hv, hv']
    exact (Place.inside_of_shape? hk ▸ hpruned).asArray?
  · rw [hv, hv']
    exact .inl ⟨eq_none_of_isSome_eq_false (hmay _ hk).1, rfl⟩

theorem items (h : Leaner b place f f') (hk : place.shape? key = some (.array q)) :
    PrunedItems (Harmless b) q (f.items key) (f'.items key) := by
  rw [Fields.items, Fields.items]
  rcases h.array? hk with ⟨hnone, hnone'⟩ | ⟨items, items', hitems, hitems', hpruned⟩
  · rw [hnone, hnone']
    exact .nil
  · rw [hitems, hitems']
    exact hpruned

theorem objects (h : Leaner b place f f') (hk : place.shape? key = some (.array q)) :
    List.Forall₂ (fun g g' => Leaner b (q.at g) g g') (f.objects key) (f'.objects key) :=
  (h.items hk).objects

theorem words (h : Leaner b place f f') (hk : place.shape? key = some (.array q)) :
    f'.words key = f.words key :=
  (h.items hk).filterMap fun _ _ => Pruned.asWord?

/-- A key whose presence matters is there in both objects, or the value that was left out is none. -/
theorem has (h : Leaner b place f f') (hk : place.shape? key = some (.array q)) :
    f'.has key = f.has key ∨
      b.allows key = true ∧ f.has key = true ∧ f'.has key = false ∧ f.items key = [] := by
  rw [Fields.has, Fields.has, Fields.items]
  rcases h.value? key with ⟨hv, hv'⟩ | ⟨v, v', hv, hv', -⟩ | ⟨v, hv, hv', hmay⟩
  · exact .inl (by rw [hv, hv'])
  · exact .inl (by rw [hv, hv']; rfl)
  · obtain ⟨hnone, hallows⟩ := hmay _ hk
    have harray : v.asArray? = none := eq_none_of_isSome_eq_false hnone
    refine .inr ⟨hallows, by rw [hv]; rfl, by rw [hv']; rfl, ?_⟩
    rw [hv, Option.bind_some, harray]
    rfl

/-- A value of any shape. -/
theorem literal (h : Leaner b place f f') (hk : place.shape? key = some .literal) :
    (f.value? key = none ∧ f'.value? key = none) ∨
      ∃ v v', f.value? key = some v ∧ f'.value? key = some v' ∧
        Pruned (Harmless b) .digits v v' := by
  rcases h.value? key with hnone | ⟨v, v', hv, hv', hpruned⟩ | ⟨v, -, -, hmay⟩
  · exact .inl hnone
  · have hplace : place.inside key = .digits := Place.inside_of_shape? hk
    exact .inr ⟨v, v', hv, hv', hplace ▸ hpruned⟩
  · exact absurd (hmay _ hk).1 (by rw [Shape.accepts]; decide)

end Leaner

end DocTree
