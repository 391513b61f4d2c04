import DocTree.Proofs.Reading.Passes
import DocTree.Proofs.Tolerance.Reflections

/-!
Both passes over a serialized project and over what is left of it. The tables of files, owners and
symbols are the same, so the first pass starts from the same state and leaves near ones. In the second
pass the same work is carried out, groupings of nothing apart; these change nothing, since no groupings
were there before.
-/

namespace DocTree

open Blur (drop)

variable {b : Blur} {f f' : Fields} {key : String}

/-! ### Tables -/

/-- What is left of the entry of a table. -/
abbrev LeanerEntry (b : Blur) (entry entry' : String × Json) : Prop :=
  entry'.1 = entry.1 ∧ Pruned (Harmless b) .symbol entry.2 entry'.2

theorem forall₂_filterMap {α β : Type} {R : α → α → Prop} {g g' : α → Option β}
    (hg : ∀ x y, R x y → g' y = g x) {xs ys : List α} (h : List.Forall₂ R xs ys) :
    ys.filterMap g' = xs.filterMap g := by
  induction h with
  | nil => rfl
  | cons hxy _ ih => rw [List.filterMap_cons, List.filterMap_cons, hg _ _ hxy, ih]

namespace Reader

theorem entries_leaner {place : Place} (h : Leaner b place f f')
    (hk : place.shape? key = some (.object .table)) :
    List.Forall₂ (LeanerEntry b) ((f.object? key).getD []) ((f'.object? key).getD []) := by
  rcases h.object? hk with ⟨hg, hg'⟩ | ⟨g, g', hg, hg', hinner⟩
  · rw [hg, hg']
    exact .nil
  · rw [hg, hg']
    exact PrunedFields.entries rfl hinner

/-- A table of the files. -/
theorem files_leaner (h : Leaner b .reflection f f')
    (hk : Place.files.shape? key = some (.object .table)) :
    List.Forall₂ (LeanerEntry b) (((f.object? "files").bind (Fields.object? · key)).getD [])
      (((f'.object? "files").bind (Fields.object? · key)).getD []) := by
  have hfiles : Place.reflection.shape? "files" = some (.object .files) := by decide
  rcases h.object? hfiles with ⟨hg, hg'⟩ | ⟨g, g', hg, hg', hinner⟩
  · rw [hg, hg']
    exact .nil
  · rw [hg, hg']
    have hinner : Leaner b .files g g' := hinner
    exact entries_leaner hinner hk

theorem fileEntries_leaner (h : Leaner b .reflection f f') (r : Revival) :
    fileEntries r f' = fileEntries r f := by
  have hkey : Place.files.shape? "entries" = some (.object .table) := by decide
  have hfiles := files_leaner h hkey
  rw [fileEntries, fileEntries]
  generalize (((f.object? "files").bind (Fields.object? · "entries")).getD []) = xs at hfiles
  generalize (((f'.object? "files").bind (Fields.object? · "entries")).getD []) = ys at hfiles
  induction hfiles generalizing r with
  | nil => rfl
  | @cons entry entry' _ _ hentry _ ih =>
    have hsame : fileEntry r entry' = fileEntry r entry := by
      rw [fileEntry, fileEntry, hentry.1, hentry.2.asString?]
    rw [List.foldl_cons, List.foldl_cons, hsame, ih]

theorem ownerEntries_leaner (h : Leaner b .reflection f f') : ownerEntries f' = ownerEntries f := by
  refine forall₂_filterMap (fun entry entry' hentry => ?_) (files_leaner h (by decide))
  simp only [hentry.1, hentry.2.asWord?]

theorem symbolEntries_leaner (h : Leaner b .reflection f f') {r r' : Revival}
    (hr : r.blur b = r'.blur b) : symbolEntries r' f' = symbolEntries r f := by
  have hkey : Place.reflection.shape? "symbolIdMap" = some (.object .table) := by decide
  have hentries := entries_leaner h hkey
  rw [symbolEntries, symbolEntries]
  refine forall₂_filterMap ?_ hentries
  rintro ⟨key, value⟩ ⟨key', value'⟩ ⟨hkey, hvalue⟩
  obtain rfl : key' = key := hkey
  replace hvalue : Pruned (Harmless b) .symbol value value' := hvalue
  dsimp only
  rcases hvalue.asObject? with ⟨hg, hg'⟩ | ⟨g, g', hg, hg', hinner⟩
  · rw [hg, hg']
    simp only [Option.bind_eq_bind, Option.bind_none]
  · have hsymbol : r'.symbol? g' = r.symbol? g := symbol?_leaner hr hinner
    rw [hg, hg']
    simp only [Option.bind_eq_bind, Option.bind_some, hsymbol]

theorem opened_leaner (h : Leaner b .reflection f f') (p : Project) (i : ReflectionId) (root : String) :
    opened p i f' root = opened p i f root := by
  have hid : f'.word? "id" = f.word? "id" := h.word? (by decide)
  rw [opened, opened, hid, fileEntries_leaner h]

end Reader

/-! ### The first pass -/

/-- Reading into a bare reflection leaves near states. -/
theorem near_readTree {p : Project} {i : ReflectionId} {root : String} {σ σ' : Reading}
    (h : Leaner b .reflection f f') (hi : i < p.arena.size) (hgraph : p.graph = none)
    (hσ : Reader.readTree Deserializer.standard p i f root = .ok σ)
    (hσ' : Reader.readTree Deserializer.standard p i f' root = .ok σ') : Near b σ σ' := by
  obtain ⟨table, files, hopened, -⟩ := Reader.opened_eq p i f root
  have hstart : Near b ⟨Reader.opened p i f root, []⟩ ⟨Reader.opened p i f root, []⟩ := by
    have horderly : Reading.Orderly ⟨Reader.opened p i f root, []⟩ :=
      ⟨List.nodup_nil, fun _ h => absurd h List.not_mem_nil, by rw [hopened]; exact hgraph⟩
    exact ⟨rfl, horderly, horderly⟩
  have hawaits : Reading.Awaits ⟨Reader.opened p i f root, []⟩ i :=
    ⟨by rw [Reading.size, hopened]; exact hi, List.not_mem_nil⟩
  have htrimmed : Trimmed b ((Json.obj f).depth + 1) ((Json.obj f').depth + 1) .reflection f f' :=
    ⟨h, ⟨Nat.le_succ _, False.elim⟩, ⟨Nat.le_succ _, False.elim⟩⟩
  have hread := alike_readReflection (i := i) (constructors_alike b (Json.obj f).depth (Json.obj f').depth)
    htrimmed _ _ hstart fun n hn => by
      obtain rfl := Option.some.inj hn
      exact ⟨hawaits, hawaits⟩
  rw [Reader.readTree] at hσ hσ'
  rw [Reader.opened_leaner h] at hσ'
  generalize (Deserializer.standard.readReflection _ i f).run _ = x at hread hσ
  generalize (Deserializer.standard.readReflection _ i f').run _ = x' at hread hσ'
  cases hread with
  | error fault => cases hσ
  | ok _ hnear _ _ =>
    obtain rfl := Except.ok.inj hσ
    obtain rfl := Except.ok.inj hσ'
    exact hnear

end DocTree
