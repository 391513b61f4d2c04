import DocTree.Proofs.RoundTrip.Mapped
import DocTree.Proofs.RoundTrip.Parented
import DocTree.Proofs.RoundTrip.Portrayed

/-!
Projects that endure. Their reflections have the numbers in which they are read, all that they hold
lasts, and their files, symbols and owners are registered and found again as they are. When such a
project is written and read, nothing is amiss and the new project is written as the old one.
-/

namespace DocTree

/-- A project that stays when it is written and read. -/
structure Project.Enduring (p : Project) (root : String) : Prop extends Project.Mapped p root where
  keyed : p.Keyed
  small : p.arena.size ≤ Json.wordBound
  parented : p.Parented
  lasting : ∀ i r, p.get? i = some r → p.Lasting root r
  /-- Each reflection is read at its number, inside its parent. -/
  places : ∀ spots, (Copying.ofProject p root).Layout spots → spots.length = p.arena.size ∧
    ∀ s ∈ spots, s.number = s.source ∧ s.owner = p.parent? s.source
  found : ∀ entry ∈ p.symbols, (p.ofSymbol? entry.2).isSome = true

namespace Project.Enduring

variable {p : Project} {root : String} {spots : List Copying.Spot} {w : Revival}

/-! ### What is read -/

variable {clean : Prop} (h : p.Enduring root) (hlayout : (Copying.ofProject p root).Layout spots)
  (hrevives : (Copying.ofProject p root).Revives clean spots w)

include h hlayout hrevives

/-- Every reflection has its number again. -/
theorem id? {x : ReflectionId} (hx : p.contains x = true) : w.id? x = some x := by
  obtain ⟨hlength, hplaces⟩ := h.places spots hlayout
  have hsources : spots.map (·.source) = List.range spots.length := by
    rw [← hlayout.numbers]
    exact List.map_congr_left fun s hs => (hplaces s hs).1.symm
  have hmem : x ∈ spots.map (·.source) := by
    rw [hsources, hlength]
    exact List.mem_range.mpr (lt_size_of_contains hx)
  obtain ⟨s, hs, rfl⟩ := List.mem_map.mp hmem
  rw [Revival.id?, hrevives.ids, Copying.lookup_idTable (hsources ▸ List.nodup_range) hs,
    (hplaces s hs).1]

theorem follows : (Copying.ofProject p root).Follows w .still where
  ids _ hx := h.id? hlayout hrevives hx
  files _ hfile := h.toMapped.file? hfile

/-- What is read is the portrait of what was written. -/
theorem get? (k : ReflectionId) : w.project.get? k = (p.get? k).map p.portrait := by
  obtain ⟨hlength, hplaces⟩ := h.places spots hlayout
  rw [hrevives.get?]
  cases hs : spots[k]? with
  | none =>
    have hle : p.arena.size ≤ k := hlength ▸ List.getElem?_eq_none_iff.mp hs
    have hgone : p.get? k = none := by
      rw [← not_contains_iff]
      exact fun hk => absurd (lt_size_of_contains hk) (Nat.not_lt.mpr hle)
    rw [hgone]
    rfl
  | some s =>
    have hmem := List.mem_of_getElem? hs
    obtain ⟨hsource, howner⟩ := hplaces s hmem
    have hnumber := hlayout.number_eq hs
    obtain ⟨r, inner, hr, hsub, hlaid⟩ := hlayout.inside hmem
    have hid := h.keyed.id _ r hr
    have himage := Copying.image_lasting ⟨h.keyed.id, h.keyed.nested, h.small⟩
      (h.follows hlayout hrevives) hr (h.lasting _ r hr)
      (h.parented.literals hr) (hsource.trans hid.symm)
      (hlaid.runs fun t ht => (hplaces t (hsub t ht)).1)
    have hparent : s.owner = (p.portrait r).parent := by
      refine (howner.trans (parent?_of_get? hr)).trans ?_
      unfold portrait Reflection.mapTarget
      split <;> rfl
    rw [show (Copying.ofProject p root).project = p from rfl, pruned_of_contains (h.parented.contains hr),
      Renaming.reflection_still, hparent] at himage
    have hk : p.get? k = some r := by
      rw [← hnumber, hsource]
      exact hr
    rw [hk]
    exact congrArg some himage

theorem symbolMap : w.project.symbolMap = p.symbolMap := by
  have hsymbols : w.project.symbols = p.symbolMap :=
    (h.toMapped.symbols_read h.small (h.follows hlayout hrevives) hrevives fun _ _ _ _ hxy => hxy).trans
      (List.map_id _)
  rw [Project.symbolMap, hsymbols]
  refine List.mergeSort_of_pairwise
    (List.pairwise_mergeSort (fun a b c hab hbc => ?_) (fun a b => ?_) _)
  · simp only [decide_eq_true_eq] at hab hbc ⊢
    exact Nat.le_trans hab hbc
  · simp only [Bool.or_eq_true, decide_eq_true_eq]
    exact Nat.le_total a.1 b.1

/-- A symbol that is not found was not found before. -/
theorem lost (s : Symbol) (hs : p.ofSymbol? s = none) : w.project.ofSymbol? s = none := by
  have hnone : p.symbolMap.filter (·.2 = s) = [] := by
    refine List.filter_eq_nil_iff.mpr fun entry hentry heq => ?_
    have hfound := h.found entry (List.mem_mergeSort.mp hentry)
    rw [of_decide_eq_true heq, hs] at hfound
    cases hfound
  rw [ofSymbol?, allOfSymbol, h.toMapped.indexed_read h.small (h.follows hlayout hrevives) hrevives,
    hnone]
  rfl

/-- A project that endures is portrayed by what is read. -/
theorem portrayed : p.Portrayed w.project where
  get? := h.get? hlayout hrevives
  size := hrevives.size.trans (h.places spots hlayout).1
  symbolMap := h.symbolMap hlayout hrevives
  lost := h.lost hlayout hrevives
  paths := h.toMapped.paths_read hrevives
  owners := (h.toMapped.owners_read (h.follows hlayout hrevives) hrevives).trans (List.map_id _)

omit hlayout hrevives in
/-- A project that endures is read without complaint when it was written, and is then written as
before. -/
theorem rewritten : ∃ q ids, Deserializer.standard.reviveWithIds
    (.obj (Serializer.standard.writeProject p root).output) none root = .ok (q, ids) ∧
      q.issues = [] ∧ (Serializer.standard.writeProject q.project root).output =
        (Serializer.standard.writeProject p root).output := by
  have hlisted : (Copying.ofProject p root).AllListed True :=
    Copying.allListed_of_lasting h.lasting fun _ hfile => h.toMapped.file? hfile
  obtain ⟨spots, w, hlayout, hrevives, hread⟩ := Copying.revives_ofProject h.keyed h.small
    (h.parented.treelike root) hlisted
  exact ⟨_, _, hread, h.toMapped.issues h.small (h.follows hlayout hrevives) hrevives trivial,
    (h.portrayed hlayout hrevives).writeProject h.keyed root⟩

end Project.Enduring

end DocTree
