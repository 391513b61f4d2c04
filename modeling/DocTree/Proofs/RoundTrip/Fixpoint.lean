import DocTree.Proofs.RoundTrip.Enduring

/-!
Writing what was read comes to rest after one pass. Whatever is lost when a project is written and read
is lost the first time: the new project endures, so writing it, reading that and writing again gives the
same object, and nothing is amiss in what is read.
-/

namespace DocTree

/-! ### What was read endures -/

/-- Whatever is read, children have their parents. -/
theorem parented_of_reviveWithIds {value : Json} {name : Option String} {root : String} {q : Revived}
    {ids : List (Nat × ReflectionId)}
    (h : Deserializer.standard.reviveWithIds value name root = .ok (q, ids)) : q.project.Parented := by
  obtain ⟨fields, r, y, σ, u, v, rfl, hcourse, rfl, rfl⟩ := course_of_reviveWithIds h
  exact ((hcourse.first.arranged hcourse.parent).settled hcourse.settled).parented

namespace Copying

variable {c : Copying} {clean : Prop} {spots : List Spot} {w : Revival}

/-- A new number is registered. -/
theorem Revives.contains_of_id? (h : c.Revives clean spots w) (hlayout : c.Layout spots) {x n : Nat}
    (hn : w.id? x = some n) : w.project.contains n = true := by
  obtain ⟨s, hs, -, rfl⟩ := h.spot_of_id? hn
  exact Project.contains_of_get? (h.get?_number hlayout hs)

theorem Revives.paths (h : c.Revives clean spots w) :
    w.project.files.paths = c.fileCopy.1.paths := by
  rw [h.files, FileTable.paths_foldl_setOwner]

section Landed

variable (h : c.Revives clean spots w) (hlayout : c.Layout spots) (hroot : Path.Rooted c.root)
  (haddressed : c.project.Addressed)

include h hroot haddressed

/-- The new number of a file is that of a path. -/
theorem Revives.isSome_path? {old : Nat} {file : FileId} (hfile : c.fileCopy.2.lookup old = some file) :
    (w.project.files.path? file).isSome = true := by
  rw [h.files, FileTable.path?_foldl_setOwner]
  exact (shelved_fileCopy hroot haddressed.files).ids old file hfile

include hlayout

theorem Revives.landed (hfiles : c.files = c.fileCopy.2) : c.Landed w where
  ids _ _ hn := h.contains_of_id? hlayout hn
  files file n hn := by
    rw [file?] at hn
    split at hn
    · exact h.isSome_path? hroot haddressed (hfiles ▸ hn)
    · cases hn

omit hroot in
/-- The symbols are those of registered reflections, and they were read. -/
theorem Revives.mem_symbols {entry : ReflectionId × Symbol} (hentry : entry ∈ w.project.symbols) :
    w.project.contains entry.1 = true ∧ entry.1 ∈ w.project.indexed entry.2 ∧
      ∃ s : Symbol, s.file.Absolute ∧ entry.2 = s.reread c.root := by
  rw [h.symbols] at hentry
  have hmem := (Assoc.mem_foldl_insert hentry).resolve_right List.not_mem_nil
  obtain ⟨old, hold, hnew⟩ := List.mem_filterMap.mp hmem
  obtain ⟨n, hn, rfl⟩ := Option.map_eq_some_iff.mp hnew
  obtain ⟨written, hwritten, rfl⟩ := List.mem_map.mp hold
  refine ⟨h.contains_of_id? hlayout hn, ?_, written.2, ?_, rfl⟩
  · rw [h.indexed, mem_foldl_enterOnce]
    exact .inr (List.mem_map_of_mem (List.mem_filter.mpr ⟨hmem, decide_eq_true rfl⟩))
  · exact haddressed.symbols _ (List.mem_mergeSort.mp (List.mem_filter.mp hwritten).1)

omit hroot in
/-- Every symbol that was read leads to a reflection. -/
theorem Revives.found {entry : ReflectionId × Symbol} (hentry : entry ∈ w.project.symbols) :
    (w.project.ofSymbol? entry.2).isSome = true := by
  obtain ⟨hlive, hindexed, -⟩ := h.mem_symbols hlayout haddressed hentry
  exact Project.isSome_ofSymbol? hindexed hlive

/-- The owners that were entered are registered, and so are their files. -/
theorem Revives.mem_ownerEntries {entry : FileId × ReflectionId}
    (hentry : entry ∈ w.ownerEntries c.ownerWork) :
    (w.project.files.path? entry.1).isSome = true ∧ w.project.contains entry.2 = true := by
  obtain ⟨old, -, hnew⟩ := List.mem_filterMap.mp hentry
  obtain ⟨file, hfile, hnew⟩ := Option.bind_eq_some_iff.mp hnew
  obtain ⟨n, hn, rfl⟩ := Option.map_eq_some_iff.mp hnew
  rw [Revival.fileId?, h.fileIds] at hfile
  exact ⟨h.isSome_path? hroot haddressed hfile, h.contains_of_id? hlayout hn⟩

theorem Revives.owners_eq : w.project.files.owners =
    (w.ownerEntries c.ownerWork).foldl (fun table e => Assoc.insert e.1 e.2 table) [] := by
  have hlisted : ∀ entry ∈ w.ownerEntries c.ownerWork,
      (c.fileCopy.1.path? entry.1).isSome = true := by
    intro entry hentry
    rw [FileTable.path?, ← h.paths]
    exact (h.mem_ownerEntries hlayout hroot haddressed hentry).1
  rw [h.files, FileTable.owners_foldl_setOwner hlisted,
    (shelved_fileCopy hroot haddressed.files).owners]

end Landed

section Endures

variable {p : Project} {root : String} {clean : Prop}
  (h : (ofProject p root).Revives clean spots w) (hlayout : (ofProject p root).Layout spots)
  (hroot : Path.Rooted root) (haddressed : p.Addressed) (hfiles : p.files.size < Json.wordBound)

include h hlayout hroot haddressed hfiles

/-- Files, symbols and owners that were written and read are found again. -/
theorem Revives.mapped : w.project.Mapped root := by
  have hshelved : (ofProject p root).Shelved p.files.size (ofProject p root).fileCopy :=
    shelved_fileCopy hroot haddressed.files
  have hpaths := h.paths
  have howners := h.owners_eq hlayout hroot haddressed
  refine
    { kept := fun path hpath => hshelved.kept path (hpaths ▸ hpath)
      filesNodup := hpaths ▸ hshelved.nodup
      filesSmall := Nat.lt_of_le_of_lt ?_ hfiles
      owners := fun entry hentry => ?_
      ownersNodup := ?_
      symbols := fun entry hentry => ?_
      symbolsNodup := ?_ }
  · rw [FileTable.size, hpaths]
    exact hshelved.size
  · rw [howners] at hentry
    exact h.mem_ownerEntries hlayout hroot haddressed
      ((Assoc.mem_foldl_insert hentry).resolve_right List.not_mem_nil)
  · rw [howners]
    exact Assoc.nodup_foldl_insert _ List.nodup_nil
  · obtain ⟨hlive, -, s, hs, hsame⟩ := h.mem_symbols hlayout haddressed hentry
    exact ⟨hlive, hsame ▸ Symbol.reread_reread hroot hs⟩
  · rw [h.symbols]
    exact Assoc.nodup_foldl_insert _ List.nodup_nil

/-- What was written and read endures. -/
theorem Revives.enduring (hp : p.Keyed) (hparented : p.Parented) (hsize : spots.length ≤ Json.wordBound)
    (hread : w.project.Parented) : w.project.Enduring root := by
  have hlanded : (ofProject p root).Landed w :=
    h.landed hlayout hroot haddressed (files_ofProject p root)
  refine
    { h.mapped hlayout hroot haddressed hfiles with
      keyed := h.keyed hlayout (hparented.treelike root) hp.root hp.nested
      small := h.size ▸ hsize
      parented := hread
      lasting := fun i r hr => ?_
      places := fun spots' hlayout' => ?_
      found := fun entry hentry => h.found hlayout haddressed hentry }
  · obtain ⟨s, hs, -, rfl, t, ht⟩ := h.exists_spot hlayout hr
    exact hlanded.image hroot haddressed ht
  · have himages : ∀ s ∈ spots, w.project.get? s.number = some ((ofProject p root).image w s) :=
      fun s hs => h.get?_number hlayout hs
    obtain rfl := hlayout.again himages (fun s hs => hread.contains (himages s hs)) hlayout'
    refine ⟨(List.length_map _).trans h.size.symm, fun s hs => ?_⟩
    obtain ⟨t, ht, rfl⟩ := List.mem_map.mp hs
    obtain ⟨r, hr⟩ := Project.contains_iff.mp (hlayout.contains_source ht)
    refine ⟨rfl, ?_⟩
    change t.owner = w.project.parent? t.number
    rw [Project.parent?_of_get? (himages t ht), image_eq hr]

end Endures

/-- There are as many places as reflections are written. -/
theorem Layout.length_eq {p : Project} {root : String} (hlayout : (ofProject p root).Layout spots)
    (htree : (ofProject p root).Treelike) :
    spots.length = (ofProject p root).span ReflectionId.project := by
  obtain ⟨r, inner, hr, rfl, hlaid⟩ := hlayout.places
  have hplain : (plain p root).Treelike := ⟨htree.live, htree.single, htree.top⟩
  obtain ⟨r', hr', hspan, -⟩ := hplain.founded.fits (Project.contains_of_get? hr)
  obtain rfl : r' = r := Option.some.inj (hr'.symm.trans hr)
  rw [List.length_cons, hlaid.length]
  exact hspan.symm

end Copying

/-! ### Writing what was read -/

/-- How many reflections a project is written with. One that is mentioned twice counts twice. -/
def Project.weight (p : Project) (root : String) : Nat :=
  (Copying.ofProject p root).span ReflectionId.project

/-- A serialized project is read and written again. -/
def Json.rewritten (root : String) (value : Json) : Except ReviveError Json := do
  let q ← Deserializer.standard.revive value none root
  return .obj (Serializer.standard.writeProject q.project root).output

theorem revive_of_reviveWithIds {value : Json} {root : String} {q : Revived}
    {ids : List (Nat × ReflectionId)}
    (h : Deserializer.standard.reviveWithIds value none root = .ok (q, ids)) :
    Deserializer.standard.revive value none root = .ok q := by
  rw [Deserializer.revive, h]
  rfl

theorem Json.rewritten_eq {value : Json} {root : String} {q : Revived} {ids : List (Nat × ReflectionId)}
    (h : Deserializer.standard.reviveWithIds value none root = .ok (q, ids)) :
    value.rewritten root = .ok (.obj (Serializer.standard.writeProject q.project root).output) := by
  rw [rewritten, revive_of_reviveWithIds h]
  rfl

namespace Project

variable {p : Project} {root : String}

/-- A project in which children have their parents, and whose paths are rooted, is written; its numbers
and those of what is written have 32 bits. What comes of it when it is read and written again stays
from then on, to the last field, and is read without complaint. -/
theorem rewritten_rewritten (hp : p.Keyed) (hparented : p.Parented) (haddressed : p.Addressed)
    (hroot : Path.Rooted root) (hsize : p.arena.size ≤ Json.wordBound)
    (hweight : p.weight root ≤ Json.wordBound) (hfiles : p.files.size < Json.wordBound) :
    ∃ value q, Json.rewritten root (.obj (Serializer.standard.writeProject p root).output) = .ok value ∧
      Json.rewritten root value = .ok value ∧
      Deserializer.standard.revive value none root = .ok q ∧ q.issues = [] := by
  have htree := hparented.treelike root
  have hlisted : (Copying.ofProject p root).AllListed False := fun _ _ _ hclean => hclean.elim
  obtain ⟨spots, w, hlayout, hrevives, hread⟩ :=
    Copying.revives_ofProject hp hsize htree hlisted
  have henduring : w.project.Enduring root := hrevives.enduring hlayout hroot haddressed hfiles hp
    hparented (hlayout.length_eq htree ▸ hweight) (parented_of_reviveWithIds hread)
  obtain ⟨q, ids, hagain, hissues, hsame⟩ := henduring.rewritten
  refine ⟨_, q, Json.rewritten_eq hread, ?_, revive_of_reviveWithIds hagain, hissues⟩
  rw [Json.rewritten_eq hagain, hsame]

/-- A module with a variable. The comment of the module says nothing, that of the variable leads to a
reflection and a file that are not there, and its type names a symbol that is not found. -/
def littered : Project :=
  let p := ((ofName "p").after (.add 0 .children
      { Reflection.declaration "m" .module with comment := some (.ofSummary []) })).after
    (.add 1 .children { Reflection.declaration "v" .variable_ with
      comment := some (.ofSummary
        [.inlineTag "@link" "w" (some (.pending 9)) none, .relativeLink "w" (some 7) none]) })
  let q := p.after (.setType 2
    (some (.reference (.ofTarget "W" (.symbol (.ofName "/repo/src/w.ts" "W"))) (some []))))
  { q.after (.registerSymbolId 2 (.ofName "/repo/src/v.ts" "v")) with
    files := (FileTable.empty.registerOwned "/repo/docs/m.md" 1).1 }

/-- What is littered is cleared away at once. -/
theorem rewritten_rewritten_littered :
    littered.Keyed ∧ littered.Parented ∧ littered.Addressed ∧ Path.Rooted "/repo" ∧
      ∃ value q, Json.rewritten "/repo"
          (.obj (Serializer.standard.writeProject littered "/repo").output) = .ok value ∧
        Json.rewritten "/repo" value = .ok value ∧
        Deserializer.standard.revive value none "/repo" = .ok q ∧ q.issues = [] := by
  have hall : ∀ P : ReflectionId → Reflection → Prop, (∀ r, littered.get? 0 = some r → P 0 r) →
      (∀ r, littered.get? 1 = some r → P 1 r) → (∀ r, littered.get? 2 = some r → P 2 r) →
      ∀ i r, littered.get? i = some r → P i r := by
    intro P h0 h1 h2 i r hr
    match i, hr, (lt_size_of_get? hr : i < 3) with
    | 0, hr, _ => exact h0 r hr
    | 1, hr, _ => exact h1 r hr
    | 2, hr, _ => exact h2 r hr
  have hkeyed : littered.Keyed := by
    refine ⟨hall _ ?_ ?_ ?_, ⟨_, rfl, rfl⟩, hall _ ?_ ?_ ?_⟩
    all_goals
      intro r hr
      rw [← Option.some.inj hr]
      first
      | rfl
      | exact fun h => absurd rfl h
      | exact fun _ => rfl
  have hparented : littered.Parented := by
    refine ⟨hall _ ?_ ?_ ?_, rfl⟩
    all_goals
      intro r hr x hx
      rw [← Option.some.inj hr] at hx
      first
      | exact List.mem_singleton.mp hx ▸ rfl
      | exact (List.not_mem_nil hx).elim
  have haddressed : littered.Addressed := by
    have habsolute : ∀ text ∈ ["/repo/src/w.ts", "/repo/src/v.ts", "/repo/docs/m.md"],
        (Path.ofText text).isAbsolute = true := by decide +kernel
    refine ⟨hall _ ?_ ?_ ?refs, hall _ ?_ ?_ ?links, fun entry hentry => ?symbols,
      fun path hpath => ?files⟩
    case refs =>
      intro r hr s hs
      rw [← Option.some.inj hr] at hs
      cases List.mem_singleton.mp hs
      exact ⟨⟨_, rfl⟩, habsolute _ (by simp)⟩
    case links =>
      intro r hr q hq s hs
      rw [← Option.some.inj hr] at hq
      rcases List.mem_cons.mp hq with rfl | hq
      · cases hs
      · cases List.mem_singleton.mp hq
        cases hs
    case symbols =>
      cases List.mem_singleton.mp hentry
      exact ⟨⟨_, rfl⟩, habsolute _ (by simp)⟩
    case files =>
      cases List.mem_singleton.mp hpath
      exact ⟨⟨_, rfl⟩, habsolute _ (by simp)⟩
    all_goals
      intro r hr x hx
      rw [← Option.some.inj hr] at hx
      exact (List.not_mem_nil hx).elim
  exact ⟨hkeyed, hparented, haddressed, rfl, rewritten_rewritten hkeyed hparented haddressed rfl
    (by decide) (by decide) (by decide)⟩

end Project

end DocTree
