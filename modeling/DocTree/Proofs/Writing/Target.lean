import DocTree.Proofs.Writing.Settle

/-!
Where a named type leads when it is written. The first look-up that finds something is kept in the
named type, whatever happens to the registry afterwards; a look-up that finds nothing leaves no trace.
-/

namespace DocTree.Project

open Writer

variable {p q : Project} {name refName root : String} {s : Symbol} {r : Ref} {seen : List Project}
  {serializer : Serializer} {i : ReflectionId}

/-! ### Operations on a registry -/

/-- An operation on a registry: a command, an edit of the root, a question whose outcome is kept, or
the writing of the project. -/
inductive Moves : Project → Project → Prop where
  | command {p q : Project} {c : Command} {ids : List ReflectionId} : c.KeepsPlace →
      p.perform c = .ok (q, ids) → Moves p q
  | editRoot {p : Project} {f : Reflection → Reflection} : Reflection.KeepsPlace f →
      Moves p (p.editRoot f)
  | referenceTarget (p : Project) (i : ReflectionId) : Moves p (p.referenceTarget i).1
  | referencing (p : Project) (t : ReflectionId) : Moves p (p.referencing t).1
  | write (p : Project) (serializer : Serializer) (root : String) :
      Moves p (serializer.writeProject p root).project

theorem Sound.moves (h : p.Sound) (hmove : Moves p q) : q.Sound := by
  cases hmove with
  | command hc hq => exact h.perform_place hc hq
  | editRoot hf => exact ⟨h.numbered.update hf, h.graph.editRoot h.numbered hf⟩
  | referenceTarget i => exact h.referenceTarget
  | referencing t => exact h.referencing
  | write serializer root => exact sound_settle h _

/-- A registry with a named type that was made for a symbol, and the registries in which it was looked
up so far. -/
inductive Consulted (name refName : String) (s : Symbol) : Project → Ref → List Project → Prop where
  | new : Consulted name refName s (ofName name) (.ofSymbol refName s) []
  | step {p q : Project} {r : Ref} {seen : List Project} : Consulted name refName s p r seen →
      Moves p q → Consulted name refName s q r seen
  /-- The named type itself is looked up. -/
  | resolve {p : Project} {r : Ref} {seen : List Project} : Consulted name refName s p r seen →
      Consulted name refName s p (p.settleRef r) (seen ++ [p])
  /-- A project is written that holds the named type at a place where types are looked up; what is at
  this place afterwards is the named type. -/
  | write {p : Project} {r r' : Ref} {seen : List Project} {serializer : Serializer} (root : String)
      (place : Place) : Consulted name refName s p r seen → p.refAt? place = some r →
      settles serializer p place.holder = true →
      (serializer.writeProject p root).project.refAt? place = some r' →
      Consulted name refName s (serializer.writeProject p root).project r' (seen ++ [p])

/-- The reflection that the first successful one of several look-ups found. -/
def firstFound? (seen : List Project) (s : Symbol) : Option ReflectionId :=
  seen.findSome? fun p => (p.ofSymbol? s).map (·.id)

/-! ### What is kept -/

/-- Once something was found, it stays; until then the symbol stays. -/
theorem settleTarget_firstFound? (p : Project) (seen : List Project) (s : Symbol) :
    p.settleTarget ((firstFound? seen s).elim (.symbol s) .reflection) =
      (firstFound? (seen ++ [p]) s).elim (.symbol s) .reflection := by
  rw [firstFound?, firstFound?, List.findSome?_append]
  cases seen.findSome? fun p => (p.ofSymbol? s).map (·.id) with
  | some i => rfl
  | none =>
    rw [Option.elim_none, settleTarget]
    cases hs : p.ofSymbol? s with
    | none => simp [hs]
    | some f => simp [hs]

/-- What is at the place of a reference after it was written is the reference looked up. -/
theorem eq_settleRef_of_write {r' : Ref} {place : Place} (hr : p.refAt? place = some r)
    (hsettles : settles serializer p place.holder = true)
    (hr' : (serializer.writeProject p root).project.refAt? place = some r') : r' = p.settleRef r := by
  rw [refAt?_writeProject, hr, Option.map_some, if_pos hsettles] at hr'
  exact (Option.some.inj hr').symm

theorem Consulted.sound (h : Consulted name refName s p r seen) : p.Sound := by
  induction h with
  | new => exact sound_ofName name
  | step _ hmove ih => exact ih.moves hmove
  | resolve _ ih => exact ih
  | write root _ _ _ _ _ ih => exact ih.moves (.write _ _ root)

/-- Nothing but the target of a named type ever changes, and that is what was found first. -/
theorem Consulted.ref_eq (h : Consulted name refName s p r seen) :
    r = { Ref.ofSymbol refName s with
      target := (firstFound? seen s).elim (.symbol s) .reflection } := by
  have hlook : ∀ (q : Project) (seen : List Project),
      q.settleRef { Ref.ofSymbol refName s with
        target := (firstFound? seen s).elim (.symbol s) .reflection } =
      { Ref.ofSymbol refName s with
        target := (firstFound? (seen ++ [q]) s).elim (.symbol s) .reflection } := by
    intro q seen
    rw [settleRef, settleTarget_firstFound?]
  induction h with
  | new => rfl
  | step _ _ ih => exact ih
  | @resolve p r seen _ ih =>
    rw [ih]
    exact hlook p seen
  | @write p r r' seen serializer root place _ hr hsettles hr' ih =>
    rw [eq_settleRef_of_write hr hsettles hr', ih]
    exact hlook p seen

/-! ### What is written -/

theorem refTarget_symbol (serializer : Serializer) (p : Project) (root : String) (s : Symbol) :
    Writer.refTarget ⟨serializer, ⟨p, root⟩⟩ (.symbol s) =
      (p.ofSymbol? s).elim (Writer.symbol ⟨serializer, ⟨p, root⟩⟩ s) fun f => .ofNat f.id := by
  rw [Writer.refTarget, resolveTarget?, Writer.project]
  cases p.ofSymbol? s <;> rfl

theorem refTarget_reflection (serializer : Serializer) (p : Project) (root : String)
    (i : ReflectionId) : Writer.refTarget ⟨serializer, ⟨p, root⟩⟩ (.reflection i) =
      if p.contains i then .ofNat i else .ofInt ReflectionId.absent := by
  rw [Writer.refTarget.eq_def, resolveTarget?, Writer.project]
  cases p.contains i <;> rfl

theorem ofNat_inj {m n : Nat} (h : Json.ofNat m = Json.ofNat n) : m = n := by
  injection h with h
  injection h with h
  exact Int.ofNat.inj h

theorem ofNat_ne_absent (n : Nat) : Json.ofNat n ≠ .ofInt ReflectionId.absent := by
  intro h
  injection h with h
  injection h with h
  cases h

/-- What was found and kept is written as what the symbol leads to now exactly when the symbol leads to
it. -/
theorem refTarget_eq_iff (hp : p.Numbered) :
    Writer.refTarget ⟨serializer, ⟨p, root⟩⟩ (.reflection i) =
      Writer.refTarget ⟨serializer, ⟨p, root⟩⟩ (.symbol s) ↔
    (p.ofSymbol? s).map (·.id) = some i := by
  rw [refTarget_symbol, refTarget_reflection]
  cases hs : p.ofSymbol? s with
  | none =>
    simp only [Option.elim_none, Option.map_none, reduceCtorEq, iff_false]
    rw [Writer.symbol, Component.compose]
    split <;> exact nofun
  | some f =>
    simp only [Option.elim_some, Option.map_some, Option.some.injEq]
    constructor
    · intro heq
      split at heq
      · exact (ofNat_inj heq).symm
      · exact absurd heq.symm (ofNat_ne_absent f.id)
    · rintro rfl
      obtain ⟨j, -, hj⟩ := exists_of_ofSymbol? hs
      obtain rfl := hp.id j f hj
      rw [if_pos (contains_of_get? hj)]

/-- After every run of operations and look-ups a named type that was made for a symbol leads to what the
first successful look-up found, else to the symbol still. It is written as the number of what was found
if that is registered yet, else as that of nothing; and as long as nothing was found, as the number of a
registered reflection that is indexed under the symbol if there is one, else as the symbol. So earlier
look-ups are not seen in what is written exactly when none found anything, or the symbol leads to what
the first found. -/
theorem refTarget_run (h : Consulted name refName s p r seen) (serializer : Serializer)
    (root : String) :
    let w : Writer := ⟨serializer, ⟨p, root⟩⟩
    r = { Ref.ofSymbol refName s with
      target := (firstFound? seen s).elim (.symbol s) .reflection } ∧
    w.refTarget r.target = (match firstFound? seen s with
      | some i => if p.contains i then .ofNat i else .ofInt ReflectionId.absent
      | none => (p.ofSymbol? s).elim (w.symbol s) fun f => .ofNat f.id) ∧
    (w.refTarget r.target = w.refTarget (.symbol s) ↔
      ∀ i, firstFound? seen s = some i → (p.ofSymbol? s).map (·.id) = some i) ∧
    ((p.ofSymbol? s).isSome = true ↔ ∃ i ∈ p.indexed s, p.contains i = true) ∧
    ∀ f, p.ofSymbol? s = some f → f.id ∈ p.indexed s ∧ p.get? f.id = some f := by
  intro w
  have hp := h.sound.numbered
  have href := h.ref_eq
  have hfound : ∀ f, p.ofSymbol? s = some f → f.id ∈ p.indexed s ∧ p.get? f.id = some f := by
    intro f hf
    obtain ⟨j, hindexed, hj⟩ := exists_of_ofSymbol? hf
    obtain rfl := hp.id j f hj
    exact ⟨hindexed, hj⟩
  refine ⟨href, ?_, ?_, ⟨fun hsome => ?_, fun hindexed => ?_⟩, hfound⟩
  · rw [href]
    cases firstFound? seen s with
    | none => exact refTarget_symbol serializer p root s
    | some i => exact refTarget_reflection serializer p root i
  · rw [href]
    cases firstFound? seen s with
    | none => simp
    | some i => simpa using refTarget_eq_iff hp
  · obtain ⟨f, hf⟩ := Option.isSome_iff_exists.mp hsome
    exact ⟨f.id, (hfound f hf).1, contains_of_get? (hfound f hf).2⟩
  · obtain ⟨i, hi, hcontains⟩ := hindexed
    exact isSome_ofSymbol? hi hcontains

/-- A class with its symbol, looked up and then removed. -/
def withFoo : Project :=
  ((ofName "p").after (.add 0 .children (.declaration "Foo" .class_))).after
    (.registerSymbolId 1 (.ofName "/repo/a.ts" "Foo"))

theorem consulted_withFoo : Consulted "p" "Foo" (.ofName "/repo/a.ts" "Foo") (withFoo.after (.remove 1))
    (withFoo.settleRef (.ofSymbol "Foo" (.ofName "/repo/a.ts" "Foo"))) [withFoo] := by
  have hadd : Moves (ofName "p") ((ofName "p").after (.add 0 .children (.declaration "Foo" .class_))) :=
    .command (c := .add 0 .children (.declaration "Foo" .class_)) trivial (perform_after rfl)
  have hregister : Moves _ withFoo :=
    .command (c := .registerSymbolId 1 (.ofName "/repo/a.ts" "Foo")) trivial (perform_after rfl)
  have hremove : Moves withFoo (withFoo.after (.remove 1)) :=
    .command (c := .remove 1) trivial (perform_after rfl)
  exact .step (.resolve (.step (.step .new hadd) hregister)) hremove

/-- What was found and then removed is written as nothing. -/
theorem refTarget_run_removed :
    Writer.refTarget ⟨.standard, ⟨withFoo.after (.remove 1), "/repo"⟩⟩
      (withFoo.settleRef (.ofSymbol "Foo" (.ofName "/repo/a.ts" "Foo"))).target =
        .ofInt ReflectionId.absent := by
  have hrun := (refTarget_run consulted_withFoo .standard "/repo").2.1
  have hfound : firstFound? [withFoo] (.ofName "/repo/a.ts" "Foo") = some 1 := by decide +kernel
  have hgone : (withFoo.after (.remove 1)).contains 1 = false := by decide +kernel
  rw [hrun, hfound]
  simp only [hgone, Bool.false_eq_true, if_false]

/-- An earlier look-up may be seen in what is written. -/
theorem not_forall_refTarget_symbol : ¬ ∀ (name refName : String) (s : Symbol) (p : Project) (r : Ref)
    (seen : List Project), Consulted name refName s p r seen →
    ∀ (serializer : Serializer) (root : String),
      Writer.refTarget ⟨serializer, ⟨p, root⟩⟩ r.target =
        Writer.refTarget ⟨serializer, ⟨p, root⟩⟩ (.symbol s) := by
  intro h
  have hsame := h _ _ _ _ _ _ consulted_withFoo .standard "/repo"
  have htarget : (withFoo.settleRef (.ofSymbol "Foo" (.ofName "/repo/a.ts" "Foo"))).target =
      .reflection 1 := by decide +kernel
  have hnone : (withFoo.after (.remove 1)).ofSymbol? (.ofName "/repo/a.ts" "Foo") = none := rfl
  rw [htarget, refTarget_eq_iff consulted_withFoo.sound.numbered, hnone] at hsame
  cases hsame

end DocTree.Project
