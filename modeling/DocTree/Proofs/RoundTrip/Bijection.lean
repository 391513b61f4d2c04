import Mathlib.Data.List.Nodup
import DocTree.Proofs.Registry.Command
import DocTree.Proofs.Files.Table
import DocTree.Proofs.RoundTrip.Tree

/-!
The new numbers of a project in which every reflection is reached from the root in exactly one way.
Then every reflection has exactly one place, so that the old numbers and the new ones go with one
another, and reading what was written finds nothing amiss.
-/

namespace DocTree

/-! ### Ways -/

namespace Project

/-- The reflection to which a way leads: from the root, each step takes the child at a place in the
slots and types of a reflection. The last step stands first. -/
def walk? (p : Project) : List Nat → Option ReflectionId
  | [] => some ReflectionId.project
  | i :: way => do
    let r ← p.get? (← p.walk? way)
    (r.structuralChildren[i]?).map (·.1)

/-- The last step of a way goes to a child of the reflection to which the way led before. -/
theorem walk?_cons {p : Project} {i : Nat} {way : List Nat} {x : ReflectionId}
    (h : p.walk? (i :: way) = some x) : ∃ a r, p.walk? way = some a ∧ p.get? a = some r ∧
      x ∈ r.structuralChildren.map (·.1) := by
  obtain ⟨a, hway, hstep⟩ := Option.bind_eq_some_iff.mp h
  obtain ⟨r, hr, hchild⟩ := Option.bind_eq_some_iff.mp hstep
  obtain ⟨entry, hentry, rfl⟩ := Option.map_eq_some_iff.mp hchild
  exact ⟨a, r, hway, hr, List.mem_map_of_mem (List.mem_of_getElem? hentry)⟩

/-- Every registered reflection is reached from the root in exactly one way. -/
def ReachedOnce (p : Project) : Prop :=
  ∀ x, p.contains x = true → ∃! way, p.walk? way = some x

/-- Nothing that is written leads to a reflection or a file that is not there. -/
structure Intact (p : Project) : Prop where
  literals : ∀ i r, p.get? i = some r → ∀ x ∈ r.literals, p.contains x = true
  links : ∀ i r, p.get? i = some r → ∀ t ∈ r.texts, ∀ file, t.file? = some file →
    (p.files.path? file).isSome = true
  symbols : ∀ entry ∈ p.symbols, p.contains entry.1 = true
  owners : ∀ entry ∈ p.files.owners, (p.files.path? entry.1).isSome = true

end Project

/-! ### Tables of numbers -/

/-- A table pairs off the members of two sets. -/
structure PairsOff (table : List (Nat × Nat)) (A B : Nat → Prop) : Prop where
  maps : ∀ x y, table.lookup x = some y → A x ∧ B y
  total : ∀ x, A x → ∃ y, table.lookup x = some y
  injective : ∀ x x' y, table.lookup x = some y → table.lookup x' = some y → x = x'
  surjective : ∀ y, B y → ∃ x, table.lookup x = some y

namespace Copying

variable {c : Copying} {owner b : Nat} {xs : List ReflectionId} {spots : List Spot}

theorem idTable_eq (spots : List Spot) : idTable spots =
    (spots.map fun s => (s.source, s.number)).foldl (fun t e => Assoc.insert e.1 e.2 t) [] := by
  rw [List.foldl_map]
  rfl

/-- A number that the table gives is that of a place. -/
theorem of_lookup_idTable {x n : Nat} (h : (idTable spots).lookup x = some n) :
    ∃ s ∈ spots, s.source = x ∧ s.number = n := by
  rw [idTable_eq] at h
  have hmem := (Assoc.mem_foldl_insert (Assoc.mem_of_lookup h)).resolve_right List.not_mem_nil
  obtain ⟨s, hs, heq⟩ := List.mem_map.mp hmem
  obtain ⟨hsource, hnumber⟩ := Prod.mk.inj heq
  exact ⟨s, hs, hsource, hnumber⟩

theorem isSome_lookup_idTable {s : Spot} (hs : s ∈ spots) :
    ((idTable spots).lookup s.source).isSome = true := by
  rw [idTable_eq]
  refine Assoc.isSome_lookup_foldl_insert (.inr ?_)
  exact List.mem_map_of_mem (List.mem_map_of_mem hs)

/-- When no reflection has two places, each has the number of its place. -/
theorem lookup_idTable (hnodup : (spots.map (·.source)).Nodup) {s : Spot} (hs : s ∈ spots) :
    (idTable spots).lookup s.source = some s.number := by
  obtain ⟨n, hn⟩ := Option.isSome_iff_exists.mp (isSome_lookup_idTable hs)
  obtain ⟨t, ht, hsource, rfl⟩ := of_lookup_idTable hn
  rwa [List.inj_on_of_nodup_map hnodup ht hs hsource] at hn

/-! ### How often a reflection has a place -/

/-- The reflections that a reflection holds. -/
def held (c : Copying) (a : ReflectionId) : List ReflectionId :=
  ((c.project.get? a).map fun r => c.inOrder r.variant).getD []

theorem mem_held {a x : ReflectionId} : x ∈ c.held a ↔ c.Holds a x := by
  rw [held, Holds]
  cases c.project.get? a with
  | none => simp
  | some r => simp

/-- A reflection has the places in which it is laid, and one inside each place that holds it. -/
theorem Laid.count_source (h : c.Laid owner b xs spots) (x : ReflectionId) :
    (spots.map (·.source)).count x =
      xs.count x + (spots.map fun s => (c.held s.source).count x).sum := by
  induction h with
  | nil => rfl
  | @cons owner b y r xs inner rest hy _ _ _ ihinner ihrest =>
    have hheld : c.held y = c.inOrder r.variant := by rw [held, hy]; rfl
    simp only [List.map_cons, List.map_append, List.count_cons, List.count_append, List.sum_cons,
      List.sum_append, hheld, ihinner, ihrest]
    omega

theorem Layout.count_source (h : c.Layout spots) (x : ReflectionId) :
    (spots.map (·.source)).count x = [ReflectionId.project].count x +
      (spots.map fun s => (c.held s.source).count x).sum := by
  obtain ⟨r, inner, hr, rfl, hlaid⟩ := h.places
  have hheld : c.held ReflectionId.project = c.inOrder r.variant := by rw [held, hr]; rfl
  simp only [List.map_cons, List.count_cons, List.count_nil, List.sum_cons, hheld,
    hlaid.count_source x]
  omega

/-- No place holds the root. -/
theorem Treelike.sum_count_root (h : c.Treelike) (places : List Spot) :
    (places.map fun s => (c.held s.source).count ReflectionId.project).sum = 0 := by
  refine List.sum_eq_zero_iff_forall_eq_nat.mpr fun n hn => ?_
  obtain ⟨s, -, rfl⟩ := List.mem_map.mp hn
  exact List.count_eq_zero.mpr fun hmem => h.top _ (mem_held.mp hmem)

/-- Of the places of a list, those that hold a reflection count when one alone can hold it. -/
theorem sum_count_held (h : c.Treelike) {a x : ReflectionId} (ha : c.Holds a x)
    (hnodup : (c.held a).Nodup) (places : List Spot) :
    (places.map fun s => (c.held s.source).count x).sum = (places.map (·.source)).count a := by
  induction places with
  | nil => rfl
  | cons s rest ih =>
    rw [List.map_cons, List.sum_cons, ih, List.map_cons, List.count_cons, Nat.add_comm]
    congr 1
    by_cases hs : s.source = a
    · rw [hs, List.Nodup.count hnodup, if_pos (mem_held.mpr ha), beq_self_eq_true, if_pos rfl]
    · have hnot : x ∉ c.held s.source := fun hx => hs (h.single _ _ x (mem_held.mp hx) ha)
      rw [List.count_eq_zero.mpr hnot, if_neg (by simpa using hs)]

/-! ### Children in the order of reading -/

/-- What a reflection holds are its registered children. -/
theorem inOrder_perm {v : Variant} (h : ∀ x ∈ v.literals, c.project.contains x = true) :
    (c.inOrder v).Perm (c.live (v.structuralChildren.map (·.1))) := by
  have hlive : ∀ ids : List ReflectionId, (∀ x ∈ ids, x ∈ v.literals) → ids = c.live ids :=
    fun ids hids => (List.filter_eq_self.mpr fun x hx => h x (hids x hx)).symm
  have happend : ∀ l l' : List ReflectionId, c.live (l ++ l') = c.live l ++ c.live l' := fun l l' =>
    List.filter_append ..
  rw [← Variant.childIds, Variant.childIds_eq]
  refine List.perm_iff_count.mpr fun x => ?_
  cases v with
  | project d => simp [inOrder, Variant.slots, happend]
  | declaration d =>
    have hliterals := hlive (Variant.declaration d).literals fun x hx => hx
    simp only [Variant.slots, List.flatMap_cons, List.flatMap_nil, List.append_nil, happend,
      ← hliterals]
    simp only [inOrder, Variant.literals, Variant.types, List.flatMap_append, List.count_append]
    omega
  | signature d =>
    have hliterals := hlive (Variant.signature d).literals fun x hx => hx
    simp only [Variant.slots, List.flatMap_cons, List.flatMap_nil, List.append_nil, happend,
      ← hliterals]
    simp only [inOrder, Variant.literals, Variant.types, List.flatMap_append, List.count_append]
    omega
  | param d =>
    have hliterals := hlive (Variant.param d).literals fun x hx => hx
    simp only [Variant.slots, List.flatMap_cons, List.flatMap_nil, List.append_nil, ← hliterals]
    simp only [inOrder, Variant.literals, Variant.types]
  | typeParam d =>
    have hliterals := hlive (Variant.typeParam d).literals fun x hx => hx
    simp only [Variant.slots, List.flatMap_cons, List.flatMap_nil, List.append_nil, ← hliterals]
    simp only [inOrder, Variant.literals, Variant.types, List.flatMap_append]
  | reference t | document d => rfl

/-- What a reflection holds are its registered children, one by one. -/
theorem mem_inOrder {v : Variant} (h : ∀ x ∈ v.literals, c.project.contains x = true)
    {x : ReflectionId} : x ∈ c.inOrder v ↔ x ∈ v.childIds ∧ c.project.contains x = true :=
  (inOrder_perm h).mem_iff.trans List.mem_filter

/-! ### Ways and places -/

/-- What a reflection holds is one step further. -/
theorem Holds.walk? (hliterals : ∀ i r, c.project.get? i = some r → ∀ x ∈ r.literals,
    c.project.contains x = true) {a x : ReflectionId} (h : c.Holds a x) :
    c.project.contains x = true ∧ ∃ i, ∀ way, c.project.walk? way = some a →
      c.project.walk? (i :: way) = some x := by
  obtain ⟨r, hr, hx⟩ := h
  obtain ⟨hchild, hlive⟩ := (mem_inOrder (hliterals a r hr)).mp hx
  obtain ⟨i, hi⟩ := List.mem_iff_getElem?.mp hchild
  rw [Variant.childIds, List.getElem?_map] at hi
  refine ⟨hlive, i, fun way hway => ?_⟩
  rw [Project.walk?, hway]
  exact (congrArg (· >>= _) hr).trans hi

theorem treelike_of_reachedOnce (hroot : c.project.contains ReflectionId.project = true)
    (hliterals : ∀ i r, c.project.get? i = some r → ∀ x ∈ r.literals, c.project.contains x = true)
    (h : c.project.ReachedOnce) : c.Treelike where
  live a x hx := (hx.walk? hliterals).1
  single a a' x hx hx' := by
    obtain ⟨r, hr, -⟩ := id hx
    obtain ⟨r', hr', -⟩ := id hx'
    obtain ⟨way, hway, -⟩ := h a (Project.contains_of_get? hr)
    obtain ⟨way', hway', -⟩ := h a' (Project.contains_of_get? hr')
    obtain ⟨hlive, i, hi⟩ := hx.walk? hliterals
    obtain ⟨-, j, hj⟩ := hx'.walk? hliterals
    have hsame : i :: way = j :: way' := (h x hlive).unique (hi way hway) (hj way' hway')
    rw [(List.cons.inj hsame).2] at hway
    exact Option.some.inj (hway.symm.trans hway')
  top a ha := by
    obtain ⟨r, hr, -⟩ := id ha
    obtain ⟨way, hway, -⟩ := h a (Project.contains_of_get? hr)
    obtain ⟨-, i, hi⟩ := ha.walk? hliterals
    exact List.cons_ne_nil _ _ ((h _ hroot).unique (hi way hway) rfl)

/-- A reflection holds another only once. -/
theorem nodup_held
    (hliterals : ∀ i r, c.project.get? i = some r → ∀ x ∈ r.literals, c.project.contains x = true)
    (h : c.project.ReachedOnce) (a : ReflectionId) : (c.held a).Nodup := by
  cases hr : c.project.get? a with
  | none =>
    rw [held, hr]
    exact List.nodup_nil
  | some r =>
    have hheld : c.held a = c.inOrder r.variant := by rw [held, hr]; rfl
    obtain ⟨way, hway, -⟩ := h a (Project.contains_of_get? hr)
    rw [hheld, (inOrder_perm (hliterals a r hr)).nodup_iff, live, List.Nodup, List.pairwise_filter,
      List.pairwise_iff_getElem]
    intro i j hi hj hij hlive _ heq
    have hstep : ∀ k (hk : k < (r.structuralChildren.map (·.1)).length),
        c.project.walk? (k :: way) = some (r.structuralChildren.map (·.1))[k] := fun k hk => by
      rw [Project.walk?, hway, ← List.getElem?_eq_getElem hk, List.getElem?_map]
      exact congrArg (· >>= _) hr
    have hsame := (h _ hlive).unique (hstep i hi) (heq ▸ hstep j hj)
    exact Nat.ne_of_lt hij (List.cons.inj hsame).1

/-- Each registered reflection has one place. -/
theorem Layout.count_eq_one (hlayout : c.Layout spots) (htree : c.Treelike)
    (hliterals : ∀ i r, c.project.get? i = some r → ∀ x ∈ r.literals, c.project.contains x = true)
    (h : c.project.ReachedOnce) (way : List Nat) {x : ReflectionId} (hx : c.project.walk? way = some x)
    (hlive : c.project.contains x = true) : (spots.map (·.source)).count x = 1 := by
  induction way generalizing x with
  | nil =>
    obtain rfl : ReflectionId.project = x := Option.some.inj hx
    rw [hlayout.count_source, htree.sum_count_root]
    rfl
  | cons i way ih =>
    obtain ⟨a, r, hway, hr, hmem⟩ := Project.walk?_cons hx
    have hheld : c.Holds a x := ⟨r, hr, (mem_inOrder (hliterals a r hr)).mpr ⟨hmem, hlive⟩⟩
    have hne : x ≠ ReflectionId.project := fun heq => htree.top a (heq ▸ hheld)
    rw [hlayout.count_source, sum_count_held htree hheld (nodup_held hliterals h a),
      ih hway (Project.contains_of_get? hr), List.count_singleton,
      if_neg (by simpa using hne.symm)]

/-! ### Files -/

theorem isSome_lookup_fileStep {file : FileId} (entries : List (FileId × Path))
    (state : FileTable × List (Nat × FileId))
    (h : (state.2.lookup file).isSome = true ∨
      file < Json.wordBound ∧ ∃ path, (file, path) ∈ entries) :
    ((entries.foldl c.fileStep state).2.lookup file).isSome = true := by
  induction entries generalizing state with
  | nil => exact h.resolve_right (by simp)
  | cons entry rest ih =>
    refine ih _ ?_
    have hrest (hne : file < Json.wordBound → file ≠ entry.1) :
        (state.2.lookup file).isSome = true ∨
          file < Json.wordBound ∧ ∃ path, (file, path) ∈ rest := by
      refine h.imp_right ?_
      rintro ⟨hlt, path, hpath⟩
      exact ⟨hlt, path, (List.mem_cons.mp hpath).resolve_left fun h => hne hlt (congrArg Prod.fst h)⟩
    rw [fileStep]
    split
    · by_cases heq : file = entry.1
      · exact .inl (by rw [heq, Assoc.lookup_insert_self]; rfl)
      · simp only [Assoc.lookup_insert_of_ne heq]
        exact hrest fun _ => heq
    · next hlarge => exact hrest fun hlt heq => hlarge (heq ▸ hlt)

theorem Layout.contains_source (h : c.Layout spots) {s : Spot} (hs : s ∈ spots) :
    c.project.contains s.source = true := by
  obtain ⟨r, inner, hr, -, -⟩ := h.inside hs
  exact Project.contains_of_get? hr

/-- Each registered reflection has its place, and nothing else has one. -/
theorem Layout.mem_sources (hlayout : c.Layout spots) (htree : c.Treelike)
    (hliterals : ∀ i r, c.project.get? i = some r → ∀ x ∈ r.literals, c.project.contains x = true)
    (h : c.project.ReachedOnce) {x : ReflectionId} :
    x ∈ spots.map (·.source) ↔ c.project.contains x = true := by
  refine ⟨fun hx => ?_, fun hx => ?_⟩
  · obtain ⟨s, hs, rfl⟩ := List.mem_map.mp hx
    exact hlayout.contains_source hs
  · obtain ⟨way, hway, -⟩ := h x hx
    exact List.count_pos_iff.mp (by rw [hlayout.count_eq_one htree hliterals h way hway hx]; decide)

theorem Layout.nodup_sources (hlayout : c.Layout spots) (htree : c.Treelike)
    (hliterals : ∀ i r, c.project.get? i = some r → ∀ x ∈ r.literals, c.project.contains x = true)
    (h : c.project.ReachedOnce) : (spots.map (·.source)).Nodup := by
  refine List.nodup_iff_count.mpr fun x => ?_
  by_cases hx : x ∈ spots.map (·.source)
  · have hlive := (hlayout.mem_sources htree hliterals h).mp hx
    obtain ⟨way, hway, -⟩ := h x hlive
    exact Nat.le_of_eq (hlayout.count_eq_one htree hliterals h way hway hlive)
  · rw [List.count_eq_zero.mpr hx]
    exact Nat.zero_le 1

theorem Revives.contains {clean : Prop} {w : Revival} (h : c.Revives clean spots w) {y : Nat} :
    w.project.contains y = true ↔ y < spots.length := by
  rw [Project.contains, h.get?, Option.isSome_map, Option.isSome_iff_ne_none, Ne,
    List.getElem?_eq_none_iff, Nat.not_le]

/-- What was read stands at a place. -/
theorem Revives.exists_spot {clean : Prop} {w : Revival}
    (h : c.Revives clean spots w) (hlayout : c.Layout spots) {i : ReflectionId}
    {r : Reflection} (hr : w.project.get? i = some r) :
    ∃ s ∈ spots, s.number = i ∧ r = c.image w s ∧ ∃ t, c.project.get? s.source = some t := by
  rw [h.get?] at hr
  obtain ⟨s, hs, rfl⟩ := Option.map_eq_some_iff.mp hr
  have hmem := List.mem_of_getElem? hs
  exact ⟨s, hmem, hlayout.number_eq hs, rfl,
    Project.contains_iff.mp (hlayout.contains_source hmem)⟩

theorem Revives.get?_number {clean : Prop} {w : Revival}
    (h : c.Revives clean spots w) (hlayout : c.Layout spots) {s : Spot}
    (hs : s ∈ spots) : w.project.get? s.number = some (c.image w s) := by
  rw [h.get?, hlayout.getElem?_number hs]
  rfl

/-- A new number is that of a place. -/
theorem Revives.spot_of_id? {clean : Prop} {w : Revival} (h : c.Revives clean spots w) {x n : Nat}
    (hn : w.id? x = some n) : ∃ s ∈ spots, s.source = x ∧ s.number = n := by
  rw [Revival.id?, h.ids] at hn
  exact of_lookup_idTable hn

theorem Revives.isSome_id? {clean : Prop} {w : Revival} (h : c.Revives clean spots w) {s : Spot}
    (hs : s ∈ spots) : (w.id? s.source).isSome = true := by
  rw [Revival.id?, h.ids]
  exact isSome_lookup_idTable hs

/-- Different reflections have different new numbers. -/
theorem Revives.id?_inj {clean : Prop} {w : Revival} (h : c.Revives clean spots w)
    (hlayout : c.Layout spots) {x y n : Nat} (hx : w.id? x = some n) (hy : w.id? y = some n) :
    x = y := by
  obtain ⟨s, hs, rfl, rfl⟩ := h.spot_of_id? hx
  obtain ⟨t, ht, rfl, hnumber⟩ := h.spot_of_id? hy
  have hplace := hlayout.getElem?_number hs
  rw [← hnumber, hlayout.getElem?_number ht] at hplace
  rw [Option.some.inj hplace]

/-- The old numbers go with the new ones. -/
theorem Revives.pairsOff {clean : Prop} {w : Revival} (h : c.Revives clean spots w)
    (hlayout : c.Layout spots) (htree : c.Treelike)
    (hliterals : ∀ i r, c.project.get? i = some r → ∀ x ∈ r.literals, c.project.contains x = true)
    (hreached : c.project.ReachedOnce) :
    PairsOff w.ids (c.project.contains · = true) (w.project.contains · = true) := by
  refine ⟨fun x y hxy => ?_, fun x hx => ?_, fun x x' y hx hx' => h.id?_inj hlayout hx hx',
    fun y hy => ?_⟩
  · obtain ⟨s, hs, rfl, rfl⟩ := h.spot_of_id? hxy
    refine ⟨hlayout.contains_source hs, h.contains.mpr ?_⟩
    exact (List.getElem?_eq_some_iff.mp (hlayout.getElem?_number hs)).1
  · obtain ⟨s, hs, rfl⟩ := List.mem_map.mp ((hlayout.mem_sources htree hliterals hreached).mpr hx)
    exact Option.isSome_iff_exists.mp (h.isSome_id? hs)
  · have hlt := h.contains.mp hy
    have hplace : spots[y]? = some spots[y] := List.getElem?_eq_getElem hlt
    have hnumber := hlayout.number_eq hplace
    refine ⟨spots[y].source, ?_⟩
    rw [h.ids, lookup_idTable (hlayout.nodup_sources htree hliterals hreached) (List.getElem_mem hlt),
      hnumber]

end Copying

/-! ### Whole projects -/

namespace Project

variable {p : Project} {root : String}

/-- In an intact project every file that is linked to is listed. -/
theorem Intact.allListed (h : p.Intact) (hfiles : p.files.size < Json.wordBound) (clean : Prop) :
    (Copying.ofProject p root).AllListed clean := fun i r hr _ t ht file hfile => by
  obtain ⟨path, hpath⟩ := Option.isSome_iff_exists.mp (h.links i r hr t ht file hfile)
  have hlt := Nat.lt_of_le_of_lt (FileTable.le_size_of_path? hpath) hfiles
  rw [Copying.file?, if_pos hlt]
  exact Copying.isSome_lookup_fileStep _ _ (.inr ⟨hlt, path, FileTable.mem_entries.mpr hpath⟩)

/-- A project in which every reflection is reached in exactly one way, and in which nothing leads to
what is not there, is read without complaint when it was written; its reflections and the new ones
go with one another. -/
theorem roundTrip_pairsOff (hp : p.Keyed) (hsize : p.arena.size ≤ Json.wordBound)
    (hfiles : p.files.size < Json.wordBound) (hreached : p.ReachedOnce) (hintact : p.Intact) :
    ∃ q ids, Deserializer.standard.reviveWithIds
        (.obj (Serializer.standard.writeProject p root).output) none root = .ok (q, ids) ∧
      q.issues = [] ∧ PairsOff ids (p.contains · = true) (q.project.contains · = true) := by
  obtain ⟨r, hr, -⟩ := hp.root
  have htree : (Copying.ofProject p root).Treelike :=
    Copying.treelike_of_reachedOnce (Project.contains_of_get? hr) hintact.literals hreached
  obtain ⟨spots, w, hlayout, hrevives, hread⟩ :=
    Copying.revives_ofProject hp hsize htree (hintact.allListed hfiles True)
  have hpairs := hrevives.pairsOff hlayout htree hintact.literals hreached
  refine ⟨_, _, hread, ?_, hpairs⟩
  have hcovered : (Copying.ofProject p root).Covered w := fun x hx =>
    Option.isSome_iff_exists.mpr (hpairs.total x hx)
  refine hrevives.issues trivial hcovered (fun e he => ?_) fun e he => ?_
  · obtain ⟨entry, hentry, rfl⟩ := List.mem_map.mp he
    have hmem := List.mem_mergeSort.mp (List.mem_filter.mp hentry).1
    exact hcovered _ (hintact.symbols entry hmem)
  · obtain ⟨hlive, hlt⟩ := List.mem_filter.mp he
    obtain ⟨howner, hcontains⟩ := List.mem_filter.mp hlive
    refine ⟨?_, hcovered _ hcontains⟩
    obtain ⟨path, hpath⟩ := Option.isSome_iff_exists.mp (hintact.owners e howner)
    rw [Revival.fileId?, hrevives.fileIds]
    exact Copying.isSome_lookup_fileStep _ _
      (.inr ⟨of_decide_eq_true hlt, path, FileTable.mem_entries.mpr hpath⟩)

end Project

end DocTree
