import DocTree.Proofs.Registry.Referencing
import DocTree.Proofs.Registry.SymbolIndex

/-!
The index of symbols and its inverse over whole runs. The inverse knows the last symbol of each
reflection, and a removal finds what it has to purge through the inverse. So an entry stays behind when
its reflection is registered under another symbol: the removal of the reflection does not find it.
Everything else in the index is registered, and what is missing from it was dropped by narrowing.
-/

namespace DocTree.Project

variable {p q : Project} {id x i : ReflectionId} {s : Symbol} {name : String} {c : Command}
  {dropped left : List (ReflectionId × Symbol)}

/-! ### What a removal does to the index -/

/-- Some reflections lost their symbol, each together with its entry under that symbol. -/
structure Purged (p q : Project) : Prop where
  symbols : ∀ i, q.symbolOf? i = p.symbolOf? i ∨ q.symbolOf? i = none
  index : ∀ s, q.indexed s =
    (p.indexed s).filter fun i => ¬ (p.symbolOf? i = some s ∧ q.symbolOf? i = none)

namespace Purged

theorem of_eq (hindex : q.symbolIndex = p.symbolIndex) (hsymbols : q.symbols = p.symbols) :
    Purged p q where
  symbols i := .inl (by rw [symbolOf?, symbolOf?, hsymbols])
  index s := by
    rw [indexed, indexed, hindex, List.filter_eq_self.mpr]
    intro i hi
    rw [symbolOf?, symbolOf?, hsymbols, decide_eq_true_eq]
    rintro ⟨hs, hnone⟩
    rw [hs] at hnone
    cases hnone

theorem refl (p : Project) : Purged p p := of_eq rfl rfl

theorem trans {t : Project} (h : Purged p q) (k : Purged q t) : Purged p t where
  symbols i := by
    rcases k.symbols i with hi | hi
    · rw [hi]
      exact h.symbols i
    · exact .inr hi
  index s := by
    rw [k.index, h.index, List.filter_filter]
    refine List.filter_congr fun i hi => ?_
    rw [Bool.eq_iff_iff, Bool.and_eq_true]
    simp only [decide_eq_true_eq]
    rcases h.symbols i with hq | hq
    · rw [hq]
      constructor
      · exact fun hboth => hboth.1
      · rintro hlost
        refine ⟨hlost, ?_⟩
        rintro ⟨hs, hnone⟩
        rw [hs] at hnone
        cases hnone
    · have ht : t.symbolOf? i = none := (k.symbols i).elim (fun heq => heq.trans hq) fun hnone => hnone
      simp [hq, ht]

/-- A symbol that was not lost is what it was. -/
theorem symbolOf?_eq (h : Purged p q) (hs : q.symbolOf? i = some s) : p.symbolOf? i = some s := by
  rcases h.symbols i with hi | hi
  · exact hi.symm.trans hs
  · rw [hi] at hs
    cases hs

end Purged

theorem purged_purgeSymbol (p : Project) (id : ReflectionId) : Purged p (p.purgeSymbol id) where
  symbols i := by
    rw [symbolOf?, symbolOf?, lookup_symbols_purgeSymbol]
    split
    · exact .inr rfl
    · exact .inl rfl
  index s := by
    rw [indexed_purgeSymbol]
    have hlost : ∀ i, (p.purgeSymbol id).symbolOf? i = none ∧ p.symbolOf? i = some s ↔
        i = id ∧ p.symbolOf? id = some s := by
      intro i
      rw [symbolOf?, symbolOf?, symbolOf?, lookup_symbols_purgeSymbol]
      constructor
      · rintro ⟨hnone, hs⟩
        split at hnone
        · next heq => exact ⟨heq, heq ▸ hs⟩
        · rw [hs] at hnone
          cases hnone
      · rintro ⟨rfl, hs⟩
        exact ⟨if_pos rfl, hs⟩
    simp only [and_comm (b := symbolOf? _ _ = none), hlost]
    split
    · next hs => simp [hs]
    · next hs => exact (List.filter_eq_self.mpr fun i hi => by simp [hs]).symm

theorem purged_unlink (p : Project) (id : ReflectionId) : Purged p (p.unlink id).1 := by
  rw [unlink]
  split
  · exact .refl p
  · exact .of_eq (by simp) (by simp)

theorem purged_cutOff (p : Project) (id : ReflectionId) : Purged p (p.cutOff id).1 := by
  have hunindex : Purged p (p.unindex id) := (purged_purgeSymbol p id).trans (.of_eq rfl rfl)
  exact (hunindex.trans (purged_unlink _ id)).trans (.of_eq rfl rfl)

theorem purged_referencing (p : Project) (id : ReflectionId) : Purged p (p.referencing id).1 := by
  have hsettled := (looked_foldl_settle p.referenceIds p).1
  rw [referencing]
  split
  · exact .of_eq hsettled.symbolIndex hsettled.symbols
  · exact .refl p

/-- However much goes with a reflection, the index loses what the symbols of these reflections lead
to. -/
theorem keeps_purged : Removal.Keeps Purged where
  refl := .refl
  trans := .trans
  start _ _ := .of_eq rfl rfl
  referencing := purged_referencing
  cutOff := purged_cutOff

theorem purged_removed (p : Project) (x : ReflectionId) : Purged p (p.removed x) :=
  keeps_purged.removeWithin _ x ⟨p, []⟩

/-! ### Runs -/

/-- Every command is allowed, edits as long as they leave each reflection its place; what is entered
under a symbol as it is has to be registered. -/
def Indexing (p : Project) : Command → Prop
  | .registerSymbolId id _ => p.contains id = true
  | c => c.KeepsPlace

/-- What was dropped from the index by narrowing after a command, unless it was entered again. -/
def droppedAfter (p : Project) (dropped : List (ReflectionId × Symbol)) :
    Command → List (ReflectionId × Symbol)
  | .registerSymbol id declared =>
    if p.contains id then
      ((p.inheritedCopies id declared).map (·, declared.symbol) ++ dropped).filter
        (· ≠ (id, declared.symbol))
    else dropped
  | .registerSymbolId id s => dropped.filter (· ≠ (id, s))
  | _ => dropped

/-- What a reflection left behind under earlier symbols once it is entered under a symbol. -/
def leftUnder (p : Project) (left : List (ReflectionId × Symbol)) (id : ReflectionId) (s : Symbol) :
    List (ReflectionId × Symbol) :=
  ((p.symbolOf? id).toList.map (id, ·) ++ left).filter (· ≠ (id, s))

/-- What was left behind under earlier symbols after a command. -/
def leftAfter (p : Project) (left : List (ReflectionId × Symbol)) :
    Command → List (ReflectionId × Symbol)
  | .registerSymbol id declared => if p.contains id then p.leftUnder left id declared.symbol else left
  | .registerSymbolId id s => p.leftUnder left id s
  | _ => left

/-- A run of commands with what narrowing dropped and what was left behind on the way. -/
inductive SymbolRun (name : String) :
    Project → List (ReflectionId × Symbol) → List (ReflectionId × Symbol) → Prop where
  | new : SymbolRun name (ofName name) [] []
  | step {p q : Project} {dropped left : List (ReflectionId × Symbol)} {new : List ReflectionId}
      {c : Command} : SymbolRun name p dropped left → p.Indexing c → p.perform c = .ok (q, new) →
      SymbolRun name q (p.droppedAfter dropped c) (p.leftAfter left c)

theorem SymbolRun.after (h : SymbolRun name p dropped left) (hc : p.Indexing c)
    (hok : (p.perform c).isOk = true) :
    SymbolRun name (p.after c) (p.droppedAfter dropped c) (p.leftAfter left c) :=
  .step h hc (perform_after hok)

theorem Indexing.keepsPlace (h : p.Indexing c) : c.KeepsPlace := by
  cases c with
  | registerSymbolId id s => trivial
  | _ => exact h

/-! ### What every command keeps -/

/-- The index with its inverse: what has a symbol is registered, and the entries of a symbol are the
reflections that have it or left it behind, without those that were dropped. -/
structure Catalogued (p : Project) (dropped left : List (ReflectionId × Symbol)) : Prop where
  held : ∀ i s, p.symbolOf? i = some s → p.contains i = true
  away : ∀ i s, p.symbolOf? i = some s → (i, s) ∉ left
  entries : ∀ i s, i ∈ p.indexed s ↔
    (p.symbolOf? i = some s ∨ (i, s) ∈ left) ∧ (i, s) ∉ dropped

/-- Registering a reflection leaves the tables by symbol and by file alone. -/
theorem tables_add {parent : ReflectionId} {role : Role} {r : Reflection}
    (h : p.add parent role r = .ok (q, id)) :
    q.symbolIndex = p.symbolIndex ∧ q.symbols = p.symbols ∧ q.files = p.files := by
  rw [add] at h
  cases hproject : r.isProject with
  | true =>
    rw [hproject] at h
    cases h
  | false =>
    simp only [hproject, Bool.false_eq_true, if_false, supply, IdSupply.take] at h
    cases hattach : p.attach parent p.arena.size role with
    | error e =>
      rw [hattach] at h
      cases h
    | ok p₁ =>
      rw [hattach] at h
      obtain ⟨rp, v, -, -, rfl⟩ := attach_eq_ok hattach
      cases h
      exact ⟨rfl, rfl, rfl⟩

theorem tables_reparent {parent : ReflectionId} {role : Role}
    (h : p.reparent id parent role = .ok q) :
    q.symbolIndex = p.symbolIndex ∧ q.symbols = p.symbols ∧ q.files = p.files := by
  rcases reparent_eq_ok h with ⟨-, rfl⟩ | ⟨old, rp, v, -, -, -, rfl⟩
  · exact ⟨rfl, rfl, rfl⟩
  · have htakeOut : (p.takeOut old id).symbolIndex = p.symbolIndex ∧
        (p.takeOut old id).symbols = p.symbols ∧ (p.takeOut old id).files = p.files := by
      rw [takeOut, symbolIndex_strikeChild, symbols_strikeChild, files_strikeChild]
      cases p.roleInParent? id with
      | none => exact ⟨rfl, rfl, rfl⟩
      | some role => exact ⟨symbolIndex_update _, symbols_update _, files_update _⟩
    simp only [Project.forgetGraph, enterChild, symbolIndex_update, symbols_update, files_update, put,
      htakeOut, and_self]

namespace Catalogued

theorem new (name : String) : Catalogued (ofName name) [] [] where
  held i s h := by cases h
  away i s h := by cases h
  entries i s := by simp [indexed, symbolOf?, ofName]

/-- What is purged with its symbol was neither left behind nor is it needed any more. -/
theorem purged (h : Catalogued p dropped left) (k : Purged p q)
    (hheld : ∀ i s, q.symbolOf? i = some s → q.contains i = true) : Catalogued q dropped left where
  held := hheld
  away i s hs := h.away i s (k.symbolOf?_eq hs)
  entries i s := by
    rw [k.index, List.mem_filter, h.entries, decide_eq_true_eq]
    constructor
    · rintro ⟨⟨hs | hleft, hdropped⟩, hkept⟩
      · refine ⟨.inl ?_, hdropped⟩
        rcases k.symbols i with hi | hi
        · exact hi.trans hs
        · exact absurd ⟨hs, hi⟩ hkept
      · exact ⟨.inr hleft, hdropped⟩
    · rintro ⟨hs | hleft, hdropped⟩
      · refine ⟨⟨.inl (k.symbolOf?_eq hs), hdropped⟩, ?_⟩
        rintro ⟨-, hnone⟩
        rw [hs] at hnone
        cases hnone
      · exact ⟨⟨.inr hleft, hdropped⟩, fun hlost => h.away i s hlost.1 hleft⟩

/-- A change that leaves the index and its inverse alone and unregisters nothing. -/
theorem of_eq (h : Catalogued p dropped left) (hindex : q.symbolIndex = p.symbolIndex)
    (hsymbols : q.symbols = p.symbols) (hheld : ∀ i, p.contains i = true → q.contains i = true) :
    Catalogued q dropped left := by
  have k : Purged p q := .of_eq hindex hsymbols
  exact h.purged k fun i s hs => hheld i (h.held i s (k.symbolOf?_eq hs))

theorem removed (h : Catalogued p dropped left) (hp : p.Sound) (hx : p.contains x = true)
    (hne : x ≠ ReflectionId.project) : Catalogued (p.removed x) dropped left := by
  have hr := removed_spec hp.numbered hp.graph hx hne
  refine h.purged (purged_removed p x) fun i s hs => ?_
  rw [symbolOf?, hr.symbols] at hs
  split at hs
  · cases hs
  · next hgone => simp [hr.contains, h.held i s hs, hgone]

theorem update {f : Reflection → Reflection} (h : Catalogued p dropped left) :
    Catalogued (p.update i f) dropped left :=
  h.of_eq (by simp) (by simp) fun _ hj => (contains_update f).trans hj

theorem forgetGraph (h : Catalogued p dropped left) : Catalogued p.forgetGraph dropped left :=
  h.of_eq rfl rfl fun _ hi => hi

theorem setType {type : Option Ty} (h : Catalogued p dropped left) (hp : p.Sound)
    (hq : p.setType id type = .ok q) : Catalogued q dropped left := by
  obtain ⟨r, v, old, hr, hv, rfl⟩ := setType_eq_ok hq
  have hput : Catalogued (p.put id (some { r with variant := v })) dropped left := by
    refine h.of_eq rfl rfl fun i hi => ?_
    rw [contains, get?_put_of_lt (lt_size_of_get? hr)]
    split
    · rfl
    · exact hi
  refine (foldl_dropLiteral (P := fun t => t.Sound ∧ Catalogued t dropped left) id ?_ old _
    ⟨hp.setVariant hr hv, hput⟩).2.forgetGraph
  rintro t d ⟨ht, hc⟩ hd
  have hd' := contains_of_parent? hd
  have hne := ht.numbered.ne_root_of_parent? hd
  exact ⟨ht.removed hd' hne, hc.removed ht hd' hne⟩

theorem add {parent : ReflectionId} {role : Role} {r : Reflection} (h : Catalogued p dropped left)
    (hadd : p.add parent role r = .ok (q, id)) : Catalogued q dropped left := by
  obtain ⟨hindex, hsymbols, -⟩ := tables_add hadd
  have hplaced := placed_add hadd
  refine h.of_eq hindex hsymbols fun i hi => ?_
  by_cases heq : i = id
  · obtain ⟨r', hr', -⟩ := hplaced.entry
    exact heq ▸ contains_of_get? hr'
  · rw [hplaced.contains i heq, hi]

theorem reparent {parent : ReflectionId} {role : Role} (h : Catalogued p dropped left)
    (hp : p.Sound) (hq : p.reparent id parent role = .ok q) : Catalogued q dropped left := by
  obtain ⟨hindex, hsymbols, -⟩ := tables_reparent hq
  refine h.of_eq hindex hsymbols fun i hi => ?_
  rcases placed_reparent hp.numbered hq with ⟨-, rfl⟩ | ⟨old, -, hplaced, -⟩
  · exact hi
  · by_cases heq : i = id
    · obtain ⟨r', hr', -⟩ := hplaced.entry
      exact heq ▸ contains_of_get? hr'
    · rw [hplaced.contains i heq, contains_of_outline outline_takeOut, hi]

/-- Narrowing drops entries and nothing else. -/
theorem narrowed {r : Reflection} {declared : DeclaredSymbol} (h : Catalogued p dropped left)
    (hr : p.get? id = some r) :
    Catalogued { p with symbolIndex := p.narrowed r declared }
      ((p.inheritedCopies id declared).map (·, declared.symbol) ++ dropped) left where
  held := h.held
  away := h.away
  entries i s := by
    have hmem : (i, s) ∈ (p.inheritedCopies id declared).map (·, declared.symbol) ↔
        declared.symbol = s ∧ i ∈ p.inheritedCopies id declared := by
      rw [List.mem_map]
      constructor
      · rintro ⟨j, hj, ⟨⟩⟩
        exact ⟨rfl, hj⟩
      · rintro ⟨rfl, hi⟩
        exact ⟨i, hi, rfl⟩
    rw [indexed_narrowed hr, List.mem_append, hmem, not_or]
    split
    · next heq =>
      simp only [heq, true_and, List.mem_filter, decide_eq_true_eq, h.entries]
      rw [and_assoc, and_comm (a := (i, s) ∉ dropped)]
      rfl
    · next hne =>
      rw [h.entries]
      simp [hne, symbolOf?]

/-- Under an earlier symbol the reflection stays behind. -/
theorem registerSymbolId (h : Catalogued p dropped left) (hid : p.contains id = true) :
    Catalogued (p.registerSymbolId id s) (dropped.filter (· ≠ (id, s))) (p.leftUnder left id s) where
  held i t hi := by
    rw [symbolOf?_registerSymbolId] at hi
    split at hi
    · next heq => exact heq ▸ hid
    · exact h.held i t hi
  away i t hi := by
    rw [symbolOf?_registerSymbolId] at hi
    rw [leftUnder, List.mem_filter]
    rintro ⟨hmem, hne⟩
    split at hi
    · next heq => simp [heq, Option.some.inj hi] at hne
    · next heq =>
      rcases List.mem_append.mp hmem with hmem | hmem
      · simp [Ne.symm heq] at hmem
      · exact h.away i t hi hmem
  entries i t := by
    rw [mem_indexed_registerSymbolId, symbolOf?_registerSymbolId, leftUnder, h.entries]
    by_cases heq : i = id
    · subst heq
      by_cases ht : t = s
      · simp [ht]
      · have ht' : s ≠ t := Ne.symm ht
        simp [ht, ht']
    · have heq' : id ≠ i := Ne.symm heq
      simp [heq, heq']

/-- One command of a run. -/
theorem perform {new : List ReflectionId} (h : Catalogued p dropped left) (hp : p.Sound)
    (hc : p.Indexing c) (hq : p.perform c = .ok (q, new)) :
    Catalogued q (p.droppedAfter dropped c) (p.leftAfter left c) := by
  cases c with
  | add parent role r =>
    obtain ⟨⟨q', id⟩, hadd, ⟨⟩⟩ := map_eq_ok hq
    exact h.add hadd
  | setType id type =>
    obtain ⟨q', hset, ⟨⟩⟩ := map_eq_ok hq
    exact h.setType hp hset
  | reparent id parent role =>
    obtain ⟨q', hmove, ⟨⟩⟩ := map_eq_ok hq
    exact h.reparent hp hmove
  | remove id =>
    obtain ⟨q', hremove, ⟨⟩⟩ := map_eq_ok hq
    obtain ⟨hne, rfl⟩ := remove_eq_ok hremove
    by_cases hx : p.contains id = true
    · exact h.removed hp hx hne
    · rw [removed_of_not_contains (not_contains_iff.mp hx)]
      exact h
  | registerSymbol id declared =>
    cases hq
    cases hr : p.get? id with
    | none =>
      have hid : ¬ p.contains id = true := not_contains_iff.mpr hr
      rw [Project.registerSymbol, hr, droppedAfter, leftAfter, if_neg hid, if_neg hid]
      exact h
    | some r =>
      have hid := contains_of_get? hr
      rw [Project.registerSymbol, hr, droppedAfter, leftAfter, if_pos hid, if_pos hid]
      exact (h.narrowed hr).registerSymbolId hid
  | registerSymbolId id s =>
    cases hq
    exact h.registerSymbolId hc
  | setTarget id target =>
    cases hq
    rw [Project.setTarget]
    split
    · exact h.update.forgetGraph
    · exact h
  | edit id f =>
    cases hq
    exact h.update.forgetGraph

end Catalogued

/-! ### Whole runs -/

theorem SymbolRun.catalogued (h : SymbolRun name p dropped left) :
    p.Sound ∧ Catalogued p dropped left := by
  induction h with
  | new => exact ⟨sound_ofName name, .new name⟩
  | step _ hc hq ih => exact ⟨ih.1.perform_place hc.keepsPlace hq, ih.2.perform ih.1 hc hq⟩

/-- After every run, whatever has a symbol is registered. Under a symbol are indexed the reflections
that have it and those that left it behind for another one, except what narrowing dropped. A removal
takes out of the index each reflection that goes, under the symbol that it has, and nothing else. -/
theorem symbolIndex_run (h : SymbolRun name p dropped left) :
    (∀ i s, p.symbolOf? i = some s → p.contains i = true ∧ (i, s) ∉ left) ∧
    (∀ i s, i ∈ p.indexed s ↔ (p.symbolOf? i = some s ∨ (i, s) ∈ left) ∧ (i, s) ∉ dropped) ∧
    ∀ x q, p.remove x = .ok q → ∀ s, q.indexed s =
      (p.indexed s).filter fun i => ¬ (gone p q i = true ∧ p.symbolOf? i = some s) := by
  obtain ⟨hp, hc⟩ := h.catalogued
  refine ⟨fun i s hs => ⟨hc.held i s hs, hc.away i s hs⟩, hc.entries, fun x q hq s => ?_⟩
  obtain ⟨hne, rfl⟩ := remove_eq_ok hq
  rw [(purged_removed p x).index]
  refine List.filter_congr fun i hi => ?_
  have hlost : p.symbolOf? i = some s →
      ((p.removed x).symbolOf? i = none ↔ gone p (p.removed x) i = true) := by
    intro hs
    by_cases hx : p.contains x = true
    · rw [symbolOf?, (removed_spec hp.numbered hp.graph hx hne).symbols]
      simp only [symbolOf?] at hs
      split
      · next hgone => simp [hgone]
      · next hgone => simp [hgone, hs]
    · rw [removed_of_not_contains (not_contains_iff.mp hx), hs]
      simp [gone]
  rw [decide_eq_decide]
  refine not_congr ?_
  constructor
  · rintro ⟨hs, hnone⟩
    exact ⟨(hlost hs).mp hnone, hs⟩
  · rintro ⟨hgone, hs⟩
    exact ⟨hs, (hlost hs).mpr hgone⟩

/-- A variable that was entered under one symbol and then under another. -/
def twiceEntered : Project :=
  (((ofName "p").after (.add 0 .children (.declaration "v" .variable_))).after
    (.registerSymbolId 1 (.ofName "/repo/a.ts" "v"))).after
    (.registerSymbolId 1 (.ofName "/repo/a.ts" "w"))

theorem run_twiceEntered : SymbolRun "p" twiceEntered [] [(1, .ofName "/repo/a.ts" "v")] :=
  ((SymbolRun.new.after (c := .add 0 .children (.declaration "v" .variable_)) trivial rfl).after
    (c := .registerSymbolId 1 (.ofName "/repo/a.ts" "v")) rfl rfl).after
    (c := .registerSymbolId 1 (.ofName "/repo/a.ts" "w")) rfl rfl

/-- The removal finds the second entry and not the first. -/
theorem symbolIndex_run_twiceEntered : ∃ q, twiceEntered.remove 1 = .ok q ∧
    q.indexed (.ofName "/repo/a.ts" "w") = [] ∧ q.indexed (.ofName "/repo/a.ts" "v") = [1] := by
  have hq := remove_eq twiceEntered (x := 1) (by decide)
  have hindexed := (symbolIndex_run run_twiceEntered).2.2 1 _ hq
  have hgone : gone twiceEntered (twiceEntered.removed 1) 1 = true := by decide +kernel
  have hv : twiceEntered.indexed (.ofName "/repo/a.ts" "v") = [1] := by decide +kernel
  have hw : twiceEntered.indexed (.ofName "/repo/a.ts" "w") = [1] := by decide +kernel
  have hsymbol : twiceEntered.symbolOf? 1 = some (.ofName "/repo/a.ts" "w") := by decide +kernel
  refine ⟨_, hq, ?_, ?_⟩
  · rw [hindexed, hw]
    simp [hgone, hsymbol]
  · rw [hindexed, hv]
    have hne : Symbol.ofName "/repo/a.ts" "w" ≠ Symbol.ofName "/repo/a.ts" "v" := by decide +kernel
    simp [hsymbol, hne]

/-- Not everything in the index is registered. -/
theorem not_forall_indexed_contains : ¬ ∀ (name : String) (p : Project)
    (dropped left : List (ReflectionId × Symbol)), SymbolRun name p dropped left →
    ∀ s, ∀ i ∈ p.indexed s, p.contains i = true := by
  intro h
  have hrun := run_twiceEntered.after (c := .remove 1) trivial rfl
  have hlost : (twiceEntered.after (.remove 1)).contains 1 = true :=
    h "p" _ _ _ hrun (.ofName "/repo/a.ts" "v") 1 (by decide +kernel)
  exact absurd hlost (by decide +kernel)

end DocTree.Project
