import DocTree.Proofs.Registry.Symbols

/-!
What was ever entered under a symbol. The index and its inverse hold nothing that was not entered, so
whatever a symbol leads to was once registered under it; and since a reflection is found through the
index or, when narrowing dropped it there, among the children of its parent, what has a symbol is
found under its parent as long as it is registered. Narrowing keeps the entries that belong to the
declaring symbol, and beside them those with the parent of the member that is entered.
-/

namespace DocTree.Project

variable {p q : Project} {id i a : ReflectionId} {s : Symbol} {name : String} {c : Command}
  {declared : DeclaredSymbol} {history : List (ReflectionId × Symbol)}

/-! ### Commands that enter nothing -/

theorem purged_add {parent : ReflectionId} {role : Role} {r : Reflection}
    (h : p.add parent role r = .ok (q, id)) : Purged p q :=
  .of_eq (tables_add h).1 (tables_add h).2.1

theorem purged_reparent {parent : ReflectionId} {role : Role}
    (h : p.reparent id parent role = .ok q) : Purged p q :=
  .of_eq (tables_reparent h).1 (tables_reparent h).2.1

theorem purged_setType {type : Option Ty} (h : p.setType id type = .ok q) : Purged p q := by
  obtain ⟨r, v, old, hr, hv, rfl⟩ := setType_eq_ok h
  have hput : Purged p (p.put id (some { r with variant := v })) := .of_eq rfl rfl
  have hfold := foldl_dropLiteral (P := Purged p) id
    (fun t d ht _ => ht.trans (purged_removed t d)) old _ hput
  exact hfold.trans (.of_eq rfl rfl)

theorem purged_remove (h : p.remove id = .ok q) : Purged p q := by
  obtain ⟨-, rfl⟩ := remove_eq_ok h
  exact purged_removed p id

theorem purged_update {f : Reflection → Reflection} : Purged p (p.update i f) :=
  .of_eq (symbolIndex_update f) (symbols_update f)

theorem purged_setTarget {target : ReferenceTarget} : Purged p (p.setTarget id target) := by
  rw [setTarget]
  split
  · exact purged_update.trans (.of_eq rfl rfl)
  · exact .refl p

/-! ### Runs -/

/-- What a command enters under symbols. -/
def enrolled (p : Project) : Command → List (ReflectionId × Symbol)
  | .registerSymbol id declared => if p.contains id then [(id, declared.symbol)] else []
  | .registerSymbolId id s => [(id, s)]
  | _ => []

/-- A run of commands with all that was entered under symbols on the way. -/
inductive EnrolledRun (name : String) : Project → List (ReflectionId × Symbol) → Prop where
  | new : EnrolledRun name (ofName name) []
  | step {p q : Project} {history : List (ReflectionId × Symbol)} {new : List ReflectionId}
      {c : Command} : EnrolledRun name p history → c.KeepsPlace → p.perform c = .ok (q, new) →
      EnrolledRun name q (p.enrolled c ++ history)

theorem EnrolledRun.after (h : EnrolledRun name p history) (hc : c.KeepsPlace)
    (hok : (p.perform c).isOk = true) : EnrolledRun name (p.after c) (p.enrolled c ++ history) :=
  .step h hc (perform_after hok)

/-- The index and its inverse hold what was entered, and under a symbol nothing twice. -/
structure Recorded (p : Project) (history : List (ReflectionId × Symbol)) : Prop where
  current : ∀ i s, p.symbolOf? i = some s → (i, s) ∈ history
  entered : ∀ s, ∀ i ∈ p.indexed s, (i, s) ∈ history
  nodup : ∀ s, (p.indexed s).Nodup

namespace Recorded

theorem new (name : String) : Recorded (ofName name) [] where
  current i s h := by cases h
  entered s i h := by cases h
  nodup s := List.nodup_nil

theorem mono {more : List (ReflectionId × Symbol)} (h : Recorded p history) :
    Recorded p (more ++ history) where
  current i s hs := List.mem_append_right more (h.current i s hs)
  entered s i hi := List.mem_append_right more (h.entered s i hi)
  nodup := h.nodup

theorem purged (h : Recorded p history) (k : Purged p q) : Recorded q history where
  current i s hs := h.current i s (k.symbolOf?_eq hs)
  entered s i hi := by
    rw [k.index] at hi
    exact h.entered s i (List.mem_filter.mp hi).1
  nodup s := by
    rw [k.index]
    exact (h.nodup s).filter _

theorem narrowed {r : Reflection} (h : Recorded p history) (hr : p.get? id = some r) :
    Recorded { p with symbolIndex := p.narrowed r declared } history where
  current := h.current
  entered s i hi := by
    rw [indexed_narrowed hr] at hi
    split at hi
    · exact h.entered s i (List.mem_filter.mp hi).1
    · exact h.entered s i hi
  nodup s := by
    rw [indexed_narrowed hr]
    split
    · exact (h.nodup s).filter _
    · exact h.nodup s

theorem registerSymbolId (h : Recorded p history) :
    Recorded (p.registerSymbolId id s) ((id, s) :: history) where
  current i t hi := by
    rw [symbolOf?_registerSymbolId] at hi
    split at hi
    · next heq =>
      obtain rfl := Option.some.inj hi
      exact heq ▸ List.mem_cons_self ..
    · exact List.mem_cons_of_mem _ (h.current i t hi)
  entered t i hi := by
    rcases mem_indexed_registerSymbolId.mp hi with hi | ⟨rfl, rfl⟩
    · exact List.mem_cons_of_mem _ (h.entered t i hi)
    · exact List.mem_cons_self ..
  nodup t := by
    rw [indexed_registerSymbolId]
    split
    · rw [enterOnce]
      split
      · exact h.nodup t
      · next hnot => exact List.nodup_append.mpr ⟨h.nodup t, List.pairwise_singleton _ _,
          fun i hi j hj heq => hnot (List.mem_singleton.mp hj ▸ heq ▸ hi)⟩
    · exact h.nodup t

theorem registerSymbol (h : Recorded p history) :
    Recorded (p.registerSymbol id declared)
      (p.enrolled (.registerSymbol id declared) ++ history) := by
  cases hr : p.get? id with
  | none =>
    rw [Project.registerSymbol, hr]
    exact h.mono
  | some r =>
    rw [Project.registerSymbol, hr, enrolled, if_pos (contains_of_get? hr)]
    exact (h.narrowed hr).registerSymbolId

/-- One command of a run. -/
theorem perform {new : List ReflectionId} (h : Recorded p history)
    (hq : p.perform c = .ok (q, new)) : Recorded q (p.enrolled c ++ history) := by
  cases c with
  | add parent role r =>
    obtain ⟨⟨q', id⟩, hadd, ⟨⟩⟩ := map_eq_ok hq
    exact h.purged (purged_add hadd)
  | setType id type =>
    obtain ⟨q', hset, ⟨⟩⟩ := map_eq_ok hq
    exact h.purged (purged_setType hset)
  | reparent id parent role =>
    obtain ⟨q', hmove, ⟨⟩⟩ := map_eq_ok hq
    exact h.purged (purged_reparent hmove)
  | remove id =>
    obtain ⟨q', hremove, ⟨⟩⟩ := map_eq_ok hq
    exact h.purged (purged_remove hremove)
  | registerSymbol id declared =>
    cases hq
    exact h.registerSymbol
  | registerSymbolId id s =>
    cases hq
    exact h.registerSymbolId
  | setTarget id target =>
    cases hq
    exact h.purged purged_setTarget
  | edit id f =>
    cases hq
    exact h.purged (purged_update.trans (.of_eq rfl rfl))

end Recorded

theorem EnrolledRun.recorded (h : EnrolledRun name p history) : p.Sound ∧ Recorded p history := by
  induction h with
  | new => exact ⟨sound_ofName name, .new name⟩
  | step _ hc hq ih => exact ⟨ih.1.perform_place hc hq, ih.2.perform hq⟩

/-- The symbol of a class. -/
def classSymbol : Symbol := .ofName "/repo/a.ts" "C"

/-- The symbol of a method of the class. -/
def methodSymbol : Symbol := .ofName "/repo/a.ts" "C.m"

/-- A class whose method two other classes inherit, before the second inherited copy is entered. -/
def inheritedMethod : Project :=
  [.add 0 .children (.declaration "C" .class_),
    .registerSymbol 1 (.ofSymbol classSymbol),
    .add 0 .children (.declaration "D" .class_),
    .add 0 .children (.declaration "E" .class_),
    .add 1 .children (.declaration "m" .method),
    .registerSymbol 4 ⟨methodSymbol, some classSymbol⟩,
    .add 2 .children (.declaration "m" .method),
    .registerSymbol 5 ⟨methodSymbol, some classSymbol⟩,
    .add 3 .children (.declaration "m" .method)].foldl after (ofName "p")

theorem run_inheritedMethod :
    EnrolledRun "p" inheritedMethod [(5, methodSymbol), (4, methodSymbol), (1, classSymbol)] := by
  have h : EnrolledRun "p" (ofName "p") [] := .new
  have h := h.after (c := .add 0 .children (.declaration "C" .class_)) trivial rfl
  have h := h.after (c := .registerSymbol 1 (.ofSymbol classSymbol)) trivial rfl
  have h := h.after (c := .add 0 .children (.declaration "D" .class_)) trivial rfl
  have h := h.after (c := .add 0 .children (.declaration "E" .class_)) trivial rfl
  have h := h.after (c := .add 1 .children (.declaration "m" .method)) trivial rfl
  have h := h.after (c := .registerSymbol 4 ⟨methodSymbol, some classSymbol⟩) trivial rfl
  have h := h.after (c := .add 2 .children (.declaration "m" .method)) trivial rfl
  have h := h.after (c := .registerSymbol 5 ⟨methodSymbol, some classSymbol⟩) trivial rfl
  have h := h.after (c := .add 3 .children (.declaration "m" .method)) trivial rfl
  exact h

/-! ### Looking up under a parent -/

/-- What is found under a parent is its child, and found in the index or by its own symbol. -/
theorem Numbered.child_of_ofSymbolIn? (hp : p.Numbered) (h : p.ofSymbolIn? s a = some i) :
    p.parent? i = some a ∧ (i ∈ p.indexed s ∨ p.symbolOf? i = some s) := by
  rcases Option.or_eq_some_iff.mp h with h | ⟨-, h⟩
  · exact ⟨by simpa using List.find?_some h, .inl (List.mem_of_find?_eq_some h)⟩
  · exact ⟨(hp.listed a i).mp (List.mem_of_find?_eq_some h),
      .inr (by simpa [symbolOf?] using List.find?_some h)⟩

/-- A child that has the symbol is enough for something to be found. -/
theorem Numbered.isSome_ofSymbolIn? (hp : p.Numbered) (hi : p.parent? i = some a)
    (hs : p.symbolOf? i = some s) : (p.ofSymbolIn? s a).isSome = true := by
  have hscan : ((p.registeredChildren a).find? fun id => p.symbols.lookup id = some s).isSome =
      true := List.find?_isSome.mpr ⟨i, (hp.listed a i).mpr hi, decide_eq_true hs⟩
  rw [ofSymbolIn?, Option.isSome_or, hscan, Bool.or_true]

/-- After every run, a symbol leads to something under each parent that has a child with this symbol,
and to nothing but a registered child of the parent that was entered under the symbol. When no other
child of the parent ever was, it leads to that child, whatever narrowing did to the index. -/
theorem ofSymbolIn?_run (h : EnrolledRun name p history) (s : Symbol) (a : ReflectionId) :
    ((∃ i, p.parent? i = some a ∧ p.symbolOf? i = some s) → (p.ofSymbolIn? s a).isSome = true) ∧
    (∀ i, p.ofSymbolIn? s a = some i →
      p.contains i = true ∧ p.parent? i = some a ∧ (i, s) ∈ history) ∧
    ∀ i, p.parent? i = some a → p.symbolOf? i = some s →
      (∀ j, p.parent? j = some a → (j, s) ∈ history → j = i) → p.ofSymbolIn? s a = some i := by
  obtain ⟨hp, hrecorded⟩ := h.recorded
  have hfound : ∀ i, p.ofSymbolIn? s a = some i →
      p.contains i = true ∧ p.parent? i = some a ∧ (i, s) ∈ history := by
    intro i hi
    obtain ⟨hparent, hi⟩ := hp.numbered.child_of_ofSymbolIn? hi
    exact ⟨contains_of_parent? hparent, hparent,
      hi.elim (hrecorded.entered s i) (hrecorded.current i s)⟩
  refine ⟨fun ⟨i, hi, hs⟩ => hp.numbered.isSome_ofSymbolIn? hi hs, hfound, fun i hi hs honly => ?_⟩
  obtain ⟨j, hj⟩ := Option.isSome_iff_exists.mp (hp.numbered.isSome_ofSymbolIn? hi hs)
  obtain ⟨-, hparent, hmem⟩ := hfound j hj
  rw [hj, honly j hparent hmem]

/-- The copy of the first heir is found under it though narrowing dropped it from the index. -/
theorem ofSymbolIn?_run_inheritedMethod :
    let p := inheritedMethod.after (.registerSymbol 6 ⟨methodSymbol, some classSymbol⟩)
    EnrolledRun "p" p
      [(6, methodSymbol), (5, methodSymbol), (4, methodSymbol), (1, classSymbol)] ∧
    p.parent? 5 = some 2 ∧ p.symbolOf? 5 = some methodSymbol ∧ 5 ∉ p.indexed methodSymbol ∧
    p.ofSymbolIn? methodSymbol 2 = some 5 := by
  intro p
  have hrun : EnrolledRun "p" p
      [(6, methodSymbol), (5, methodSymbol), (4, methodSymbol), (1, classSymbol)] :=
    run_inheritedMethod.after (c := .registerSymbol 6 ⟨methodSymbol, some classSymbol⟩) trivial rfl
  have hparent : p.parent? 5 = some 2 := by decide +kernel
  have hsymbol : p.symbolOf? 5 = some methodSymbol := by decide +kernel
  refine ⟨hrun, hparent, hsymbol, by decide +kernel,
    (ofSymbolIn?_run hrun methodSymbol 2).2.2 5 hparent hsymbol fun j hj hmem => ?_⟩
  -- Of the methods, only the copy of the first heir stands under it.
  have hcopies : j = 6 ∨ j = 5 ∨ j = 4 ∨ j = 1 := by
    simp only [List.mem_cons, Prod.mk.injEq, List.not_mem_nil, or_false] at hmem
    exact hmem.imp And.left (Or.imp And.left (Or.imp And.left And.left))
  rcases hcopies with rfl | rfl | rfl | rfl
  · exact absurd hj (by decide +kernel)
  · rfl
  · exact absurd hj (by decide +kernel)
  · exact absurd hj (by decide +kernel)

/-! ### Narrowing -/

/-- A member goes from the index when it belongs to no reflection of the declaring symbol and some
entry has another parent than the member that is entered. -/
theorem mem_inheritedCopies {r : Reflection} {declaring : List ReflectionId}
    (hr : p.get? id = some r) (hmember : r.kind.isIn .classMember = true)
    (hdeclaring : declared.parent.bind (p.symbolIndex.lookup ·) = some declaring) :
    i ∈ p.inheritedCopies id declared ↔ i ∈ p.indexed declared.symbol ∧
      (∃ j ∈ p.indexed declared.symbol, p.parent? j ≠ r.parent) ∧
      ¬ ∃ a ∈ declaring, p.parent? i = some a := by
  have hbelongs : (p.parent? i).any (· ∈ declaring) = true ↔ ∃ a ∈ declaring, p.parent? i = some a := by
    cases p.parent? i with
    | none => simp
    | some a => simp [eq_comm]
  rw [inheritedCopies, hr, hdeclaring]
  simp only [hmember, Bool.true_and]
  split
  · next hany =>
    have hother : ∃ j ∈ p.indexed declared.symbol, p.parent? j ≠ r.parent := by simpa using hany
    rw [List.mem_filter, ← hbelongs]
    simp [hother]
  · next hnone =>
    have hsame : ¬ ∃ j ∈ p.indexed declared.symbol, p.parent? j ≠ r.parent := by simpa using hnone
    simp [hsame]

/-- The entries of a symbol after a registered reflection was entered: those that were not dropped,
then the reflection unless it is among them. -/
theorem indexed_registerSymbol {r : Reflection} (hr : p.get? id = some r) :
    (p.registerSymbol id declared).indexed declared.symbol =
      enterOnce ((p.indexed declared.symbol).filter (· ∉ p.inheritedCopies id declared)) id := by
  rw [registerSymbol, hr]
  refine (indexed_registerSymbolId id declared.symbol declared.symbol).trans ?_
  rw [if_pos rfl, indexed_narrowed hr, if_pos rfl]

theorem filter_enterOnce (ids : List ReflectionId) (id : ReflectionId) :
    (enterOnce ids id).filter (· ≠ id) = ids.filter (· ≠ id) := by
  rw [enterOnce]
  split
  · rfl
  · simp

theorem parent?_registerSymbol (p : Project) (id i : ReflectionId) (declared : DeclaredSymbol) :
    (p.registerSymbol id declared).parent? i = p.parent? i :=
  parent?_of_arena_eq (p.arena_registerSymbol id declared) i

/-- When a member is entered whose declaring symbol is known, every entry of its symbol afterwards
belongs to a reflection of the declaring symbol or has the parent of the member. The member is among
them and nothing twice; of the earlier entries those that belong to a reflection of the declaring
symbol are all left, and whatever is left keeps its order. -/
theorem registerSymbol_entries {r : Reflection} {declaring : Symbol} {reflections : List ReflectionId}
    (h : EnrolledRun name p history) (hr : p.get? id = some r)
    (hmember : r.kind.isIn .classMember = true) (hparent : declared.parent = some declaring)
    (hreflections : p.symbolIndex.lookup declaring = some reflections) :
    let q := p.registerSymbol id declared
    (∀ i ∈ q.indexed declared.symbol,
      (∃ a ∈ reflections, q.parent? i = some a) ∨ q.parent? i = q.parent? id) ∧
    id ∈ q.indexed declared.symbol ∧ (q.indexed declared.symbol).Nodup ∧
    (∀ i ∈ p.indexed declared.symbol, (∃ a ∈ reflections, p.parent? i = some a) →
      i ∈ q.indexed declared.symbol) ∧
    ((q.indexed declared.symbol).filter (· ≠ id)).Sublist (p.indexed declared.symbol) := by
  intro q
  have hentries : q.indexed declared.symbol =
      enterOnce ((p.indexed declared.symbol).filter (· ∉ p.inheritedCopies id declared)) id :=
    indexed_registerSymbol hr
  have hdropped : ∀ i, i ∈ p.inheritedCopies id declared ↔ i ∈ p.indexed declared.symbol ∧
      (∃ j ∈ p.indexed declared.symbol, p.parent? j ≠ r.parent) ∧
      ¬ ∃ a ∈ reflections, p.parent? i = some a := fun i =>
    mem_inheritedCopies hr hmember (by rw [hparent, Option.bind_some, hreflections])
  have hparents : ∀ i, q.parent? i = p.parent? i := fun i => parent?_registerSymbol p id i declared
  refine ⟨fun i hi => ?_, ?_, h.recorded.2.registerSymbol.nodup declared.symbol, fun i hi hown => ?_,
    ?_⟩
  · rw [hparents, hparents, parent?_of_get? hr]
    rw [hentries, mem_enterOnce] at hi
    rcases hi with hi | rfl
    · obtain ⟨hold, hkept⟩ := List.mem_filter.mp hi
      have hkept : ¬ i ∈ p.inheritedCopies id declared := of_decide_eq_true hkept
      by_cases hown : ∃ a ∈ reflections, p.parent? i = some a
      · exact .inl hown
      · refine .inr (Classical.byContradiction fun hne => hkept ?_)
        exact (hdropped i).mpr ⟨hold, ⟨i, hold, hne⟩, hown⟩
    · exact .inr (parent?_of_get? hr)
  · rw [hentries, mem_enterOnce]
    exact .inr rfl
  · rw [hentries, mem_enterOnce, List.mem_filter]
    exact .inl ⟨hi, decide_eq_true fun hlost => ((hdropped i).mp hlost).2.2 hown⟩
  · rw [hentries, filter_enterOnce]
    exact List.filter_sublist.trans List.filter_sublist

/-- The second heir's copy takes the place of the first heir's. -/
theorem registerSymbol_entries_inheritedMethod :
    let p := inheritedMethod
    let q := p.registerSymbol 6 ⟨methodSymbol, some classSymbol⟩
    EnrolledRun "p" p [(5, methodSymbol), (4, methodSymbol), (1, classSymbol)] ∧
    p.indexed methodSymbol = [4, 5] ∧ q.indexed methodSymbol = [4, 6] ∧
    ∀ i ∈ q.indexed methodSymbol,
      (∃ a ∈ [1], q.parent? i = some a) ∨ q.parent? i = q.parent? 6 := by
  intro p q
  obtain ⟨r, hr⟩ : ∃ r, p.get? 6 = some r := ⟨_, rfl⟩
  have hmember : r.kind.isIn .classMember = true := by
    obtain rfl := Option.some.inj hr
    decide
  have hparent : (⟨methodSymbol, some classSymbol⟩ : DeclaredSymbol).parent = some classSymbol := rfl
  have hdeclaring : p.symbolIndex.lookup classSymbol = some [1] := by decide +kernel
  have h := registerSymbol_entries run_inheritedMethod hr hmember hparent hdeclaring
  exact ⟨run_inheritedMethod, by decide +kernel, by decide +kernel, h.1⟩

end DocTree.Project
