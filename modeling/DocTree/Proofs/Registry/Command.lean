import DocTree.Proofs.Registry.Placement

/-!
Commands: the operations on a registry with what they are given. A run is a sequence of commands none
of which fails; it hands out numbers on the way. `Numbered` and the table of references hold after
every run, `Linked` after every run in which slots are left to the registry.
-/

namespace DocTree

theorem map_eq_ok {ε α β : Type} {f : α → β} {e : Except ε α} {b : β} (h : e.map f = .ok b) :
    ∃ a, e = .ok a ∧ f a = b := by
  cases e with
  | error e => cases h
  | ok a => exact ⟨a, rfl, Except.ok.inj h⟩

/-- Everything but the stored types. -/
def Variant.untyped : Variant → Variant
  | .declaration d => .declaration { d with
      type := none
      overwrites := none
      inheritedFrom := none
      implementationOf := none
      extendedTypes := []
      extendedBy := []
      implementedTypes := []
      implementedBy := [] }
  | .signature d => .signature { d with
      type := none
      overwrites := none
      inheritedFrom := none
      implementationOf := none }
  | .param d => .param { d with type := none }
  | .typeParam d => .typeParam { d with type := none, default := none }
  | v => v

/-- One reflection is another with other stored types. -/
structure Reflection.Retyped (r s : Reflection) : Prop where
  rest : s = { r with variant := s.variant }
  variant : s.variant.untyped = r.variant.untyped

theorem Variant.tag_untyped (v : Variant) : v.untyped.tag = v.tag := by
  cases v <;> rfl

theorem Reflection.Retyped.outline {r s : Reflection} (h : r.Retyped s) : s.outline = r.outline := by
  rw [h.rest]
  refine outline_mk _ ?_
  rw [← Variant.tag_untyped, h.variant, Variant.tag_untyped]
  rfl

namespace Project

/-- An operation on a registry. -/
inductive Command where
  | add (parent : ReflectionId) (role : Role) (r : Reflection)
  | setType (id : ReflectionId) (type : Option Ty)
  | reparent (id parent : ReflectionId) (role : Role)
  | remove (id : ReflectionId)
  | registerSymbol (id : ReflectionId) (declared : DeclaredSymbol)
  | registerSymbolId (id : ReflectionId) (s : Symbol)
  | setTarget (id : ReflectionId) (target : ReferenceTarget)
  | edit (id : ReflectionId) (f : Reflection → Reflection)

/-- The project after a command, with the number that it hands out, if it does. -/
def perform (p : Project) : Command → Except Fault (Project × List ReflectionId)
  | .add parent role r => (p.add parent role r).map fun (q, id) => (q, [id])
  | .setType id type => (p.setType id type).map (·, [])
  | .reparent id parent role => (p.reparent id parent role).map (·, [])
  | .remove id => (p.remove id).map (·, [])
  | .registerSymbol id declared => .ok (p.registerSymbol id declared, [])
  | .registerSymbolId id s => .ok (p.registerSymbolId id s, [])
  | .setTarget id target => .ok (p.setTarget id target, [])
  | .edit id f => .ok (p.edit id f, [])

/-- A run of commands, each allowed where it is performed, with the numbers handed out on the way. -/
inductive Run (allowed : Project → Command → Prop) :
    Project → List ReflectionId → Project → Prop where
  | refl (p : Project) : Run allowed p [] p
  | step {p q q' : Project} {ids new : List ReflectionId} {c : Command} :
      Run allowed p ids q → allowed q c → q.perform c = .ok (q', new) →
      Run allowed p (ids ++ new) q'

variable {p q : Project} {id : ReflectionId}

/-- The project after a command; one that fails leaves it as it is. -/
def after (p : Project) (c : Command) : Project := ((p.perform c).toOption.map (·.1)).getD p

/-- The numbers that a command hands out. -/
def issued (p : Project) (c : Command) : List ReflectionId :=
  ((p.perform c).toOption.map (·.2)).getD []

/-- A command that does not fail leads to the project after it. -/
theorem perform_after {c : Command} (hok : (p.perform c).isOk = true) :
    p.perform c = .ok (p.after c, p.issued c) := by
  cases hq : p.perform c with
  | error e =>
    rw [hq] at hok
    cases hok
  | ok result =>
    simp only [Project.issued, Project.after, hq, Except.toOption, Option.map_some, Option.getD_some]

theorem Run.after {allowed : Project → Command → Prop} {ids : List ReflectionId} {c : Command}
    (h : Run allowed p ids q) (hc : allowed q c) (hok : (q.perform c).isOk = true) :
    Run allowed p (ids ++ q.issued c) (q.after c) :=
  .step h hc (perform_after hok)

/-- What is allowed in a run may be described more broadly. -/
theorem Run.mono {allowed allowed' : Project → Command → Prop} {ids : List ReflectionId}
    (h : Run allowed p ids q) (hsub : ∀ p c, allowed p c → allowed' p c) : Run allowed' p ids q := by
  induction h with
  | refl => exact .refl _
  | step _ hc hq ih => exact .step ih (hsub _ _ hc) hq

/-! ### Setting a type -/

theorem setType_eq_ok {type : Option Ty} (h : p.setType id type = .ok q) : ∃ (r : Reflection) (v : Variant)
    (old : List ReflectionId), p.get? id = some r ∧ r.variant.setMainType? type = some v ∧
      q = (old.foldl (dropLiteral id) (p.put id (some { r with variant := v }))).forgetGraph := by
  rw [setType] at h
  cases hr : p.get? id with
  | none =>
    rw [hr] at h
    cases h
  | some r =>
    rw [hr] at h
    cases hv : r.variant.setMainType? type with
    | none =>
      simp only [hv] at h
      cases h
    | some v =>
      simp only [hv] at h
      cases h
      exact ⟨r, v, _, rfl, hv, rfl⟩

/-- What holds after the first step of setting a type and survives the removal of each child that the
type loses holds after setting the type. -/
theorem foldl_dropLiteral_of_mem {P : Project → Prop} (owner : ReflectionId) :
    ∀ (ds : List ReflectionId) (p : Project),
      (∀ p, ∀ d ∈ ds, P p → p.parent? d = some owner → P (p.removed d)) → P p →
      P (ds.foldl (dropLiteral owner) p)
  | [], _, _, h => h
  | d :: ds, p, hP, h => by
    refine foldl_dropLiteral_of_mem owner ds _ (fun t e he => hP t e (List.mem_cons_of_mem d he)) ?_
    rw [dropLiteral]
    split
    · rename_i hd
      exact hP p d List.mem_cons_self h hd
    · exact h

theorem foldl_dropLiteral {P : Project → Prop} (owner : ReflectionId)
    (hP : ∀ p d, P p → p.parent? d = some owner → P (p.removed d)) (ds : List ReflectionId)
    (p : Project) (h : P p) : P (ds.foldl (dropLiteral owner) p) :=
  foldl_dropLiteral_of_mem owner ds p (fun p d _ => hP p d) h

theorem outline_setVariant {r : Reflection} {v : Variant} (hr : p.get? id = some r)
    (htag : v.tag = r.variant.tag) :
    (p.put id (some { r with variant := v })).outline = p.outline := by
  refine outline_ext (size_put _) fun i => ?_
  rw [get?_put_of_lt (lt_size_of_get? hr)]
  split
  · rename_i hi
    rw [← hi, hr]
    exact congrArg some (Reflection.outline_mk v htag)
  · rfl

theorem target?_setMainType? {r : Reflection} {v : Variant} {type : Option Ty}
    (hv : r.variant.setMainType? type = some v) :
    ({ r with variant := v } : Reflection).target? = r.target? := by
  cases hr : r.variant <;> rw [hr] at hv <;> cases hv <;> simp only [Reflection.target?, hr]

theorem GraphFits.setVariant {r : Reflection} {v : Variant} {type : Option Ty} (h : p.GraphFits)
    (hr : p.get? id = some r) (hv : r.variant.setMainType? type = some v) :
    (p.put id (some { r with variant := v })).GraphFits := by
  refine h.of_outline (outline_setVariant hr (Variant.tag_setMainType? hv)) (fun i => ?_) rfl
  rw [get?_put_of_lt (lt_size_of_get? hr)]
  split
  · rename_i hi
    rw [← hi, hr]
    exact target?_setMainType? hv
  · rfl

/-! ### Symbols and targets -/

theorem arena_registerSymbol (p : Project) (id : ReflectionId) (declared : DeclaredSymbol) :
    (p.registerSymbol id declared).arena = p.arena := by
  rw [Project.registerSymbol]
  split <;> rfl

theorem outline_registerSymbol (p : Project) (id : ReflectionId) (declared : DeclaredSymbol) :
    (p.registerSymbol id declared).outline = p.outline := by
  rw [outline, outline, arena_registerSymbol]

theorem outline_setTarget (p : Project) (id : ReflectionId) (target : ReferenceTarget) :
    (p.setTarget id target).outline = p.outline := by
  rw [Project.setTarget]
  split
  · exact outline_update fun r => r.outline_mapTarget _
  · rfl

/-! ### What every command keeps -/

/-- The invariants of a registry that do not speak of slots. -/
structure Sound (p : Project) : Prop where
  numbered : p.Numbered
  graph : p.GraphFits

theorem sound_ofName (name : String) : (ofName name).Sound where
  numbered := by
    have hget (i : ReflectionId) (r : Reflection) (hr : (ofName name).get? i = some r) :
        i = ReflectionId.project ∧ r = .project name := by
      cases i with
      | zero => exact ⟨rfl, (Option.some.inj hr).symm⟩
      | succ i => cases hr
    have hchild (i : ReflectionId) : (ofName name).parent? i = none := by
      cases hr : (ofName name).get? i with
      | none => rw [parent?, hr]; rfl
      | some r => rw [parent?_of_get? hr, (hget i r hr).2]; rfl
    exact
      { id := fun i r hr => by rw [(hget i r hr).1, (hget i r hr).2]; rfl
        root := ⟨.project name, rfl, rfl, rfl⟩
        below := fun i r hr hi => absurd (hget i r hr).1 hi
        listed := fun q i => by
          rw [hchild]
          exact ⟨fun h => absurd h List.not_mem_nil, fun h => absurd h (by simp)⟩
        nodup := fun q => List.nodup_nil }
  graph := graphFits_of_none rfl

theorem Sound.removed {x : ReflectionId} (h : p.Sound) (hx : p.contains x = true)
    (hne : x ≠ ReflectionId.project) : (p.removed x).Sound :=
  have hr := removed_spec h.numbered h.graph hx hne
  ⟨hr.numbered h.numbered, hr.graph⟩

theorem Sound.forgetGraph (h : p.Sound) : p.forgetGraph.Sound :=
  ⟨h.numbered.of_outline rfl fun _ => rfl, graphFits_of_none rfl⟩

theorem Sound.setVariant {r : Reflection} {v : Variant} {type : Option Ty} (h : p.Sound)
    (hr : p.get? id = some r) (hv : r.variant.setMainType? type = some v) :
    (p.put id (some { r with variant := v })).Sound :=
  ⟨h.numbered.of_outline (outline_setVariant hr (Variant.tag_setMainType? hv)) fun _ => rfl,
    h.graph.setVariant hr hv⟩

theorem Sound.removed_child {d owner : ReflectionId} (h : p.Sound) (hd : p.parent? d = some owner) :
    Removed p d (p.removed d) :=
  removed_spec h.numbered h.graph (contains_of_parent? hd) (h.numbered.ne_root_of_parent? hd)

theorem Sound.removed_of_parent? {d owner : ReflectionId} (h : p.Sound)
    (hd : p.parent? d = some owner) : (p.removed d).Sound :=
  h.removed (contains_of_parent? hd) (h.numbered.ne_root_of_parent? hd)

theorem Sound.dropped {owner : ReflectionId} (h : p.Sound) (ds : List ReflectionId) :
    (ds.foldl (dropLiteral owner) p).Sound :=
  foldl_dropLiteral owner (fun _ _ ht hd => ht.removed_of_parent? hd) ds p h

theorem Sound.setType {type : Option Ty} (h : p.Sound) (hq : p.setType id type = .ok q) :
    q.Sound := by
  obtain ⟨r, v, old, hr, hv, rfl⟩ := setType_eq_ok hq
  exact ((h.setVariant hr hv).dropped old).forgetGraph

/-- Editing leaves the outline of a project as long as it leaves those of reflections. -/
theorem Sound.edit {f : Reflection → Reflection} (h : p.Sound)
    (hf : ∀ r, (f r).outline = r.outline) : (p.edit id f).Sound :=
  ⟨h.numbered.of_outline (outline_update hf) fun i => by
    simp only [Project.edit, registeredChildren, registered_forgetGraph, registered_update],
    graphFits_of_none rfl⟩

theorem Sound.setTarget {target : ReferenceTarget} (h : p.Sound) :
    (p.setTarget id target).Sound := by
  rw [Project.setTarget]
  split
  · exact h.edit fun r => r.outline_mapTarget _
  · exact h

theorem Sound.registerSymbolId {s : Symbol} (h : p.Sound) : (p.registerSymbolId id s).Sound :=
  ⟨h.numbered.of_outline rfl fun _ => rfl, graphFits_of_none rfl⟩

theorem Sound.registerSymbol {declared : DeclaredSymbol} (h : p.Sound) :
    (p.registerSymbol id declared).Sound := by
  rw [Project.registerSymbol]
  split
  · exact h
  · exact ⟨h.numbered.of_outline rfl fun _ => rfl, graphFits_of_none rfl⟩

/-- Edits that change nothing but stored types. -/
def Command.KeepsOutline : Command → Prop
  | .edit _ f => ∀ r, (f r).outline = r.outline
  | _ => True

theorem Sound.reparent {parent : ReflectionId} {role : Role} (h : p.Sound)
    (hq : p.reparent id parent role = .ok q) : q.Sound := by
  refine ⟨h.numbered.reparent hq, ?_⟩
  rcases graph_reparent hq with rfl | hnone
  · exact h.graph
  · exact graphFits_of_none hnone

/-- Removing a number that holds nothing changes nothing. -/
theorem removed_of_not_contains {x : ReflectionId} (hx : p.get? x = none) : p.removed x = p := by
  rw [Project.removed, removeWithin_of_not _ fun h => not_contains_iff.mpr hx h.1]

theorem remove_eq_ok {x : ReflectionId} (h : p.remove x = .ok q) :
    x ≠ ReflectionId.project ∧ q = p.removed x := by
  by_cases hx : x = ReflectionId.project
  · rw [remove, if_pos (by simp [ReflectionId.isProject, hx])] at h
    cases h
  · exact ⟨hx, Except.ok.inj (h.symm.trans (remove_eq p hx))⟩

theorem Sound.remove {x : ReflectionId} (h : p.Sound) (hq : p.remove x = .ok q) : q.Sound := by
  obtain ⟨hne, rfl⟩ := remove_eq_ok hq
  by_cases hx : p.contains x = true
  · exact h.removed hx hne
  · exact (removed_of_not_contains (not_contains_iff.mp hx)).symm ▸ h

theorem Sound.perform {c : Command} {new : List ReflectionId} (h : p.Sound) (hc : c.KeepsOutline)
    (hq : p.perform c = .ok (q, new)) : q.Sound := by
  cases c with
  | add parent role r =>
    obtain ⟨⟨q', id⟩, hadd, ⟨⟩⟩ := map_eq_ok hq
    exact ⟨h.numbered.add hadd, graphFits_of_none (graph_add hadd)⟩
  | setType id type =>
    obtain ⟨q', hset, ⟨⟩⟩ := map_eq_ok hq
    exact h.setType hset
  | reparent id parent role =>
    obtain ⟨q', hmove, ⟨⟩⟩ := map_eq_ok hq
    exact h.reparent hmove
  | remove id =>
    obtain ⟨q', hremove, ⟨⟩⟩ := map_eq_ok hq
    exact h.remove hremove
  | registerSymbol id declared =>
    cases hq
    exact h.registerSymbol
  | registerSymbolId id s =>
    cases hq
    exact h.registerSymbolId
  | setTarget id target =>
    cases hq
    exact h.setTarget
  | edit id f =>
    cases hq
    exact h.edit hc

theorem Sound.after {c : Command} (h : p.Sound) (hc : c.KeepsOutline)
    (hok : (p.perform c).isOk = true) : (p.after c).Sound :=
  h.perform hc (perform_after hok)

theorem Sound.run {allowed : Project → Command → Prop} {ids : List ReflectionId} (h : p.Sound)
    (hallowed : ∀ p c, allowed p c → c.KeepsOutline) (hrun : Run allowed p ids q) : q.Sound := by
  induction hrun with
  | refl => exact h
  | step hrun hc hq ih => exact ih.perform (hallowed _ _ hc) hq

/-! ### The numbers handed out -/

/-- From one project to a later one, with the numbers handed out on the way. -/
structure Later (p : Project) (ids : List ReflectionId) (q : Project) : Prop where
  size : p.arena.size ≤ q.arena.size
  increasing : ids.Pairwise (· < ·)
  fresh : ∀ i ∈ ids, p.arena.size ≤ i ∧ i < q.arena.size
  /-- What had a number before and is registered later was registered before. -/
  old : ∀ i, i < p.arena.size → q.contains i = true → p.contains i = true

namespace Later

theorem refl (p : Project) : Later p [] p :=
  ⟨Nat.le_refl _, .nil, fun _ h => absurd h List.not_mem_nil, fun _ _ h => h⟩

theorem trans {p q t : Project} {ids ids' : List ReflectionId} (h : Later p ids q)
    (k : Later q ids' t) : Later p (ids ++ ids') t where
  size := Nat.le_trans h.size k.size
  increasing := List.pairwise_append.mpr ⟨h.increasing, k.increasing, fun a ha b hb =>
    Nat.lt_of_lt_of_le (h.fresh a ha).2 (k.fresh b hb).1⟩
  fresh i hi := (List.mem_append.mp hi).elim
    (fun hi => ⟨(h.fresh i hi).1, Nat.lt_of_lt_of_le (h.fresh i hi).2 k.size⟩)
    (fun hi => ⟨Nat.le_trans h.size (k.fresh i hi).1, (k.fresh i hi).2⟩)
  old i hi ht := h.old i hi (k.old i (Nat.lt_of_lt_of_le hi h.size) ht)

/-- Nothing is registered anew. -/
theorem of_size (hsize : q.arena.size = p.arena.size)
    (hc : ∀ i, q.contains i = true → p.contains i = true) : Later p [] q :=
  ⟨Nat.le_of_eq hsize.symm, .nil, fun _ h => absurd h List.not_mem_nil, fun i _ => hc i⟩

theorem of_outline (h : q.outline = p.outline) : Later p [] q :=
  of_size (size_of_outline h) fun i hi => (contains_of_outline h i).symm.trans hi

end Later

theorem Removed.later {x : ReflectionId} (h : Removed p x q) : Later p [] q :=
  .of_size h.size fun _ => h.contains_of

end Project

end DocTree
