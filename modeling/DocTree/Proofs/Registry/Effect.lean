import DocTree.Proofs.Registry.Structural

/-!
The exact effect of a removal: the least closed set goes, and what is left is the old project with
that set taken out of types, slots, groupings and tables. It is told for every registry that commands
and edits of stored types can reach, when no reflection stands in the slots of two others.
-/

namespace DocTree.Project

/-- Edits of stored types are allowed, and every other command. -/
def Ordinary (_ : Project) : Command → Prop
  | .edit _ f => ∀ r : Reflection, r.Retyped (f r)
  | _ => True

/-- What a removal leaves of a reflection. -/
structure Left (p q : Project) (i : ReflectionId) (r r' : Reflection) : Prop where
  /-- Nothing changes but what the variant holds. -/
  rest : r' = { r with variant := r'.variant }
  /-- A type that mentions something gone is given up, every other type stays. -/
  types : r'.types = r.types.map fun t =>
    if t.declarations.any (gone p q) then Ty.object else t
  /-- The slots lose what is gone and keep the order of the rest. -/
  slots : ∀ role, role ≠ .typeLiteral →
    r'.variant.slot role = (r.variant.slot role).filter fun c => !gone p q c
  /-- Beside types and slots, a variant changes in its groupings and in what is known of the target of
  a reference. -/
  frame : r'.variant.frame = (r.variant.prune (gone p q)).frame
  /-- Groups and categories lose the children that are gone. -/
  groupings : Reflection.Regrouped (goneFrom p q i) r r'
  target : q.settled? i = p.settled? i
  table : q.registeredChildren i = (p.registeredChildren i).filter fun c => !gone p q c

variable {p q : Project} {x : ReflectionId}

theorem Ordinary.keepsOutline {c : Command} (h : p.Ordinary c) : c.KeepsOutline := by
  cases c with
  | edit id f => exact fun r => (h r).outline
  | _ => trivial

/-- Slots read off the traversal. -/
theorem ownSlots_of_traversal (h : ∀ i r c role, p.get? i = some r →
    (c, role) ∈ r.structuralChildren → p.contains c = true →
    p.parent? c = some i ∧ ∀ other, (c, other) ∈ r.structuralChildren → other = role) :
    p.OwnSlots := by
  intro i r role c hr hc hcc
  obtain ⟨hparent, hrole⟩ := h i r c role hr (Variant.mem_structuralChildren.mpr hc) hcc
  exact ⟨hparent, fun other ho => hrole other (Variant.mem_structuralChildren.mpr ho)⟩

theorem Removed.left (h : Removed p x q) (hown : p.OwnSlots) {i : ReflectionId}
    {r r' : Reflection} (hr : p.get? i = some r) (hr' : q.get? i = some r') : Left p q i r r' where
  rest := by
    obtain ⟨s, hs, hout⟩ := h.held i r' hr'
    obtain rfl := Option.some.inj (hr.symm.trans hs)
    exact Reflection.eq_of_outline hout
  types := by
    rw [h.types hown hr hr']
    rfl
  slots role hrole := by
    rw [Variant.slot_of_frame (h.shape hown i r r' hr hr'), Variant.slot_prune hrole]
  frame := h.shape hown i r r' hr hr'
  groupings := h.grouped i r r' hr hr'
  target := h.target i (contains_of_get? hr')
  table := h.table i (by simp [gone, contains_of_get? hr'])

/-- In every registry that can be reached, in which whatever stands in a slot stands in no other
slot, removing a reflection succeeds. The reflections that go are the least closed set; no other is
touched but by what it loses with them. -/
theorem remove_effect {name : String} {ids : List ReflectionId}
    (hrun : Run Ordinary (ofName name) ids p)
    (hslots : ∀ i r c role, p.get? i = some r → (c, role) ∈ r.structuralChildren →
      p.contains c = true → p.parent? c = some i ∧
        ∀ other, (c, other) ∈ r.structuralChildren → other = role)
    (hx : p.contains x = true) (hroot : x ≠ ReflectionId.project) :
    ∃ q, p.remove x = .ok q ∧ p.Closed x (fun i => gone p q i = true) ∧
      (∀ S, p.Closed x S → ∀ i, gone p q i = true → S i) ∧
      (∀ i, q.contains i = true → p.contains i = true) ∧
      (∀ i r r', p.get? i = some r → q.get? i = some r' → Left p q i r r') ∧
      ∀ i, q.symbolOf? i = if gone p q i = true then none else p.symbolOf? i := by
  have hp : p.Sound := (sound_ofName name).run (fun _ _ => Ordinary.keepsOutline) hrun
  have hown := ownSlots_of_traversal hslots
  have h := removed_spec hp.numbered hp.graph hx hroot
  refine ⟨p.removed x, remove_eq p hroot, h.closed hown, fun S hS i hi => h.doomed i hi hown S hS,
    fun i hi => ?_, fun i r r' hr hr' => h.left hown hr hr', h.symbols⟩
  rw [h.contains, Bool.and_eq_true] at hi
  exact hi.1

/-- With a variable goes what refers to it. -/
theorem remove_effect_reference :
    let p := ((ofName "p").after (.add 0 .children (.declaration "v" .variable_))).after
      (.add 0 .children (.reference "r" (.toId 1)))
    p.contains 1 = true ∧ ∃ q, p.remove 1 = .ok q ∧ q.contains 0 = true ∧ gone p q 1 = true ∧
      gone p q 2 = true := by
  intro p
  have hv : Run Ordinary (ofName "p") _ _ := (Run.refl (ofName "p")).after
    (c := .add 0 .children (.declaration "v" .variable_)) trivial rfl
  have hrun : Run Ordinary (ofName "p") [1, 2] p :=
    hv.after (c := .add 0 .children (.reference "r" (.toId 1))) trivial rfl
  have hw : Run Proper (ofName "p") _ _ := (Run.refl (ofName "p")).after
    (c := .add 0 .children (.declaration "v" .variable_)) rfl rfl
  have hproper : Run Proper (ofName "p") [1, 2] p :=
    hw.after (c := .add 0 .children (.reference "r" (.toId 1))) rfl rfl
  have hlinked : p.Linked := (linked_ofName "p").run (sound_ofName "p") hproper
  obtain ⟨q, hq, hclosed, -⟩ := remove_effect hrun (x := 1) (fun i r c role hr hc _ =>
    (hlinked i r role c hr (Variant.mem_structuralChildren.mp hc)).imp_right fun hrole other ho =>
      hrole other (Variant.mem_structuralChildren.mp ho)) (by decide) (by decide)
  refine ⟨by decide, q, hq, ?_, hclosed.self, hclosed.references 2 1 (by decide) hclosed.self⟩
  have hremoved : q = p.removed 1 := Except.ok.inj (hq.symm.trans (remove_eq p (by decide)))
  rw [hremoved]
  decide

end DocTree.Project
