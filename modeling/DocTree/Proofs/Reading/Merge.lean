import Mathlib.Algebra.Ring.Nat
import DocTree.Proofs.Reading.Resolved
import DocTree.Proofs.Reading.Twin

/-!
Several projects in one. Each stands in the merged project as it does on its own, moved behind the root
and the projects before it: the same reflections in the same order, with all numbers higher by the same
amount. `exists_merged` says so of any list of serialized projects, by induction on the list; one more
project is read as a twin of the project that it is on its own.
-/

namespace DocTree

/-! ### Projects in which every number is given -/

/-- Every number that was given is that of a registered reflection, and symbols lead to such. -/
structure Project.Dense (p : Project) : Prop where
  filled : ∀ i, i < p.arena.size → ∃ r, p.get? i = some r ∧ r.id = i
  indexed : ∀ s, ∀ i ∈ p.indexed s, i < p.arena.size

namespace Project.Dense

variable {p : Project}

theorem size (h : p.Dense) : p.size = p.arena.size := by
  rw [Project.size, reflections, ← Array.length_toList, List.filterMap_length_eq_length]
  intro slot hslot
  obtain ⟨i, hi, rfl⟩ := List.getElem_of_mem hslot
  obtain ⟨r, hr, -⟩ := h.filled i hi
  rw [get?_eq_toList, List.getElem?_eq_getElem hi] at hr
  exact Option.isSome_iff_exists.mpr ⟨r, hr⟩

/-- The reflections of a symbol are those whose numbers are listed for it. -/
theorem map_allOfSymbol (h : p.Dense) (s : Symbol) : (p.allOfSymbol s).map (·.id) = p.indexed s := by
  rw [allOfSymbol, List.map_filterMap]
  refine Eq.trans (List.filterMap_congr fun i hi => ?_) List.filterMap_some
  obtain ⟨r, hr, hid⟩ := h.filled i (h.indexed s i hi)
  rw [hr, Option.map_some, hid]

end Project.Dense

theorem Course.dense {W : Prop} {name root : String} {fields : Fields} {r : Reflection} {y : Crop}
    {σ : Reading} {u v : Revival} (h : Course W name fields root r y σ u v) : v.project.Dense where
  filled := by
    intro i hi
    rw [h.settled.size, h.first.size] at hi
    have hsome : ∃ s, σ.revival.project.get? i = some s := by
      by_cases hroot : i = ReflectionId.project
      · subst hroot
        exact ⟨r, h.first.get?_self⟩
      · obtain ⟨k, rfl⟩ := Nat.exists_eq_add_of_le (Nat.one_le_iff_ne_zero.mpr hroot)
        have hk : k < y.block.length := Nat.lt_of_add_lt_add_left hi
        exact ⟨y.block[k], (h.first.get?_block k).trans (List.getElem?_eq_getElem hk)⟩
    obtain ⟨s, hs⟩ := hsome
    refine ⟨DocTree.worked σ.revival σ.queue i s, ?_, (samePlace_worked ..).id.trans (h.raw hs).1⟩
    rw [h.settled.get?, hs]
    rfl
  indexed := fun s i hi => Project.lt_size_of_contains (h.resolved.indexed s i hi)

/-! ### Lists of numbers -/

section Lists

variable {before news : List ReflectionId}

/-- What is entered behind numbers that are not entered. -/
theorem foldl_enterOnce_append (h : ∀ id ∈ news, id ∉ before) (ids : List ReflectionId) :
    news.foldl enterOnce (before ++ ids) = before ++ news.foldl enterOnce ids := by
  induction news generalizing ids with
  | nil => rfl
  | cons id rest ih =>
    have hid := h id (List.mem_cons_self ..)
    have hone : enterOnce (before ++ ids) id = before ++ enterOnce ids id := by
      simp only [enterOnce, List.mem_append, hid, false_or]
      split
      · rfl
      · exact List.append_assoc ..
    rw [List.foldl_cons, List.foldl_cons, hone]
    exact ih (fun i hi => h i (List.mem_cons_of_mem _ hi)) _

theorem foldl_enterOnce_number (μ : Relocation) (ids : List ReflectionId) :
    (news.map μ.number).foldl enterOnce (ids.map μ.number) =
      (news.foldl enterOnce ids).map μ.number := by
  induction news generalizing ids with
  | nil => rfl
  | cons id rest ih =>
    have hone : enterOnce (ids.map μ.number) (μ.number id) = (enterOnce ids id).map μ.number := by
      have hmem : μ.number id ∈ ids.map μ.number ↔ id ∈ ids :=
        List.mem_map_of_injective fun i j h => μ.number_inj.mp h
      simp only [enterOnce, hmem]
      split
      · rfl
      · rw [List.map_append, List.map_singleton]
    rw [List.map_cons, List.foldl_cons, List.foldl_cons, hone, ih]

end Lists

/-! ### Twins after the second pass -/

namespace Twins

variable {μ : Relocation} {q : Project} {fields : Fields} {root : String} {r : Reflection} {y y' : Crop}
  {σ σ' : Reading} {v v' : Revival}

theorem root_eq (h : Twins μ q fields root r y σ y' σ') : σ'.revival.root = σ.revival.root :=
  h.second.root_eq.trans h.first.root_eq.symm

/-- The symbols lead to the same reflections, moved. -/
theorem symbolEntries (h : Twins μ q fields root r y σ y' σ') (work : List (Nat × Symbol)) :
    σ'.revival.symbolEntries work =
      (σ.revival.symbolEntries work).map fun entry => (μ.number entry.1, entry.2) := by
  rw [Revival.symbolEntries, Revival.symbolEntries, List.map_filterMap]
  refine List.filterMap_congr fun entry _ => ?_
  rw [μ.id?_moved h.ids]
  cases σ.revival.id? entry.1 <;> rfl

section Settled

variable (h : Twins μ q fields root r y σ y' σ')
  (hv : Settled σ.revival σ.queue (Reader.symbolEntries σ.revival fields) (Reader.ownerEntries fields) v)
  (hv' : Settled σ'.revival σ'.queue (Reader.symbolEntries σ'.revival fields)
    (Reader.ownerEntries fields) v')
include h hv hv'

/-- The root of the one is the module of the other. -/
theorem module : ∃ t, v.project.get? ReflectionId.project = some t ∧
    v'.project.get? (μ.number ReflectionId.project) = some (μ.reflection t).toModule := by
  refine ⟨worked σ.revival σ.queue ReflectionId.project r, ?_, ?_⟩
  · rw [hv.get?, h.first.get?_self]
    rfl
  · rw [hv'.get?, h.second.get?_self, h.queue, Option.map_some, worked_toModule, μ.worked_moved h.ids]

/-- All other reflections are moved. -/
theorem inner (hq : q.arena.size = μ.number 1) {k : Nat} (hk : k ≠ ReflectionId.project) :
    v'.project.get? (μ.number k) = (v.project.get? k).map μ.reflection := by
  obtain ⟨i, rfl⟩ := Nat.exists_eq_add_of_le (Nat.one_le_iff_ne_zero.mpr hk)
  have hplace : σ'.revival.project.get? (μ.number (1 + i)) =
      (σ.revival.project.get? (1 + i)).map μ.reflection := by
    rw [← μ.number_add, ← hq, h.second.get?_block, h.block, List.getElem?_map]
    exact congrArg _ (h.first.get?_block i).symm
  rw [hv'.get?, hplace, hv.get?, Option.map_map, Option.map_map, h.queue]
  refine congrArg (Option.map · _) (funext fun s => ?_)
  exact μ.worked_moved h.ids σ.queue (1 + i) s

theorem size (hq : q.arena.size = μ.number 1) :
    v'.project.arena.size = μ.number v.project.arena.size := by
  rw [hv'.size, hv.size, h.second.size, h.first.size, h.block, List.length_map, hq, μ.number_add]
  rfl

/-- Under each symbol the reflections of the module follow those that were there. -/
theorem indexed (hbefore : ∀ s, ∀ i ∈ q.indexed s, i < μ.shift) (s : Symbol) :
    v'.project.indexed s = q.indexed s ++ (v.project.indexed s).map μ.number := by
  have hwork : Reader.symbolEntries σ'.revival fields = Reader.symbolEntries σ.revival fields := by
    rw [Reader.symbolEntries, Reader.symbolEntries]
    simp only [Revival.symbol?, h.root_eq]
  let news := ((σ.revival.symbolEntries (Reader.symbolEntries σ.revival fields)).filter
    (·.2 = s)).map (·.1)
  have hnews : (((σ'.revival.symbolEntries (Reader.symbolEntries σ'.revival fields)).filter
      (·.2 = s)).map (·.1)) = news.map μ.number := by
    rw [hwork, h.symbolEntries, List.filter_map, List.map_map, List.map_map]
    rfl
  have hfirst : v.project.indexed s = news.foldl enterOnce [] := by
    rw [Project.indexed, hv.symbolIndex, ← Project.indexed, Project.indexed_enterSymbols,
      Project.indexed, h.first.symbolIndex]
    rfl
  have hsecond : v'.project.indexed s = (news.map μ.number).foldl enterOnce (q.indexed s) := by
    rw [Project.indexed, hv'.symbolIndex, ← Project.indexed, Project.indexed_enterSymbols, hnews,
      Project.indexed, h.second.symbolIndex]
    rfl
  have hapart : ∀ id ∈ news.map μ.number, id ∉ q.indexed s := by
    intro id hid hmem
    obtain ⟨k, -, rfl⟩ := List.mem_map.mp hid
    exact Nat.not_lt_of_le (μ.shift_le_number k) (hbefore s _ hmem)
  have hall := foldl_enterOnce_append hapart []
  rw [List.append_nil] at hall
  rw [hsecond, hfirst, ← foldl_enterOnce_number, List.map_nil, hall]

/-- Files have their paths in both projects. -/
theorem files_settled {f : FileId} {path : Path} (hpath : v.project.files.path? f = some path) :
    v'.project.files.path? (μ.file f) = some path := by
  rw [hv.files, FileTable.path?_foldl_setOwner] at hpath
  rw [hv'.files, FileTable.path?_foldl_setOwner]
  exact h.files f path hpath

end Settled

end Twins

/-! ### Projects in a merged one -/

/-- A project stands in a merged one, moved: its root as a module, all its other reflections as they are.
Files have other numbers there, but the same paths. -/
structure Relocation.Embeds (μ : Relocation) (part whole : Project) : Prop where
  module : ∃ t, part.get? ReflectionId.project = some t ∧
    whole.get? μ.shift = some (μ.reflection t).toModule
  inner : ∀ k t, k ≠ ReflectionId.project → part.get? k = some t →
    whole.get? (μ.shift + k) = some (μ.reflection t)
  files : ∀ f path, part.files.path? f = some path → whole.files.path? (μ.file f) = some path

/-- Where the project of this place begins: behind the root and the projects before it. -/
def offset (parts : List Project) (i : Nat) : Nat := 1 + ((parts.take i).map Project.size).sum

/-- The root of a merged project holds modules and nothing else. -/
def mergedRoot (title : String) (modules : List ReflectionId) : Reflection :=
  (Reflection.project title).holding (.project ⟨⟨modules, [], none, none⟩, none, none, none⟩)

/-- The project consists of a root and these projects, one behind the other, and under each symbol of
what they have under it. -/
structure Merged (title : String) (parts : List Project) (whole : Project) : Prop where
  dense : whole.Dense
  size : whole.size = offset parts parts.length
  root : whole.get? ReflectionId.project =
    some (mergedRoot title ((List.range parts.length).map (offset parts)))
  stands : ∀ i part, parts[i]? = some part →
    part.Dense ∧ ∃ μ : Relocation, μ.shift = offset parts i ∧ μ.Embeds part whole
  symbols : ∀ s, (whole.allOfSymbol s).map (·.id) =
    parts.zipIdx.flatMap fun entry => (entry.1.allOfSymbol s).map (offset parts entry.2 + ·.id)

section Offset

variable {parts : List Project} {part : Project}

theorem offset_append {i : Nat} (hi : i ≤ parts.length) :
    offset (parts ++ [part]) i = offset parts i := by
  rw [offset, offset, List.take_append_of_le_length hi]

theorem offset_succ : offset (parts ++ [part]) (parts ++ [part]).length =
    offset parts parts.length + part.size := by
  rw [offset, offset, List.take_length, List.take_length, List.map_append, List.sum_append,
    List.map_singleton, List.sum_singleton, Nat.add_assoc]

theorem map_offset_append : (List.range (parts ++ [part]).length).map (offset (parts ++ [part])) =
    (List.range parts.length).map (offset parts) ++ [offset parts parts.length] := by
  rw [List.length_append, List.length_singleton, List.range_succ, List.map_append, List.map_singleton,
    offset_append (Nat.le_refl _)]
  congr 1
  exact List.map_congr_left fun i hi => offset_append (Nat.le_of_lt (List.mem_range.mp hi))

theorem flatMap_offset_append {β : Type} (parts : List Project) (part : Project)
    (f : Project → Nat → List β) :
    ((parts ++ [part]).zipIdx.flatMap fun entry => f entry.1 (offset (parts ++ [part]) entry.2)) =
      (parts.zipIdx.flatMap fun entry => f entry.1 (offset parts entry.2)) ++
        f part (offset parts parts.length) := by
  rw [List.zipIdx_append, List.flatMap_append]
  congr 1
  · refine congrArg List.flatten (List.map_congr_left ?_)
    rintro ⟨p, i⟩ hmem
    have hi := (List.mem_zipIdx hmem).2.1
    rw [offset_append (by omega)]
  · simp only [List.zipIdx_cons, List.zipIdx_nil, List.flatMap_cons, List.flatMap_nil, List.append_nil,
      Nat.zero_add, offset_append (Nat.le_refl _)]

theorem offset_pos (parts : List Project) (i : Nat) : 0 < offset parts i := Nat.add_pos_left Nat.one_pos _

end Offset

/-! ### One more project -/

/-- A project that was read as a module stands in the other one. -/
theorem Twins.embeds {μ : Relocation} {q : Project} {fields : Fields} {root : String} {r : Reflection}
    {y y' : Crop} {σ σ' : Reading} {v v' : Revival} (h : Twins μ q fields root r y σ y' σ')
    (hv : Settled σ.revival σ.queue (Reader.symbolEntries σ.revival fields) (Reader.ownerEntries fields) v)
    (hv' : Settled σ'.revival σ'.queue (Reader.symbolEntries σ'.revival fields)
      (Reader.ownerEntries fields) v')
    (hq : q.arena.size = μ.number 1) : μ.Embeds v.project v'.project where
  module := by
    obtain ⟨t, ht, hmodule⟩ := h.module hv hv'
    exact ⟨t, ht, μ.number_project ▸ hmodule⟩
  inner := by
    intro k t hk ht
    have hinner := h.inner hv hv' hq hk
    rw [ht, μ.number_eq, Nat.add_comm] at hinner
    exact hinner
  files := fun f path hpath => h.files_settled hv hv' hpath

/-- The project `whole` is `p` with `part` in it as one more module. -/
structure Annexed (μ : Relocation) (p part whole : Project) : Prop where
  shift : μ.shift = p.arena.size
  embeds : μ.Embeds part whole
  root : ∀ r d, p.get? ReflectionId.project = some r → r.variant = .project d →
    whole.get? ReflectionId.project = some (r.holding (.project (d.withChild p.arena.size)))
  before : ∀ i, i ≠ ReflectionId.project → i < p.arena.size → whole.get? i = p.get? i
  size : whole.arena.size = p.arena.size + part.arena.size
  indexed : ∀ s, whole.indexed s = p.indexed s ++ (part.indexed s).map μ.number
  files : ∀ f path, p.files.path? f = some path → whole.files.path? f = some path

/-- A serialized project is annexed when it is added as a module. -/
theorem exists_annexed {merged : Revived} {fields : Fields} (hp : merged.project.Dense)
    (hrooted : merged.project.Rooted) (hvariant : (Json.obj fields).isProject = true)
    (hlacks : fields.Lacks declarationKeys) (root : String) :
    ∃ part next μ, Deserializer.standard.revive (.obj fields) none root = .ok part ∧
      Deserializer.standard.addModule root merged fields = .ok next ∧ part.project.Dense ∧
      Annexed μ merged.project part.project next.project := by
  obtain ⟨r, d, hr, hd⟩ := hrooted
  have hpositive : 0 < merged.project.arena.size := Project.lt_size_of_get? hr
  obtain ⟨q, hadd, hroot, hadded⟩ := exists_moduleAdded hr hd (fields.text "name")
  -- The project is read twice, on its own and behind what is there, with the same work up to the place.
  obtain ⟨μ, t, y, σ, y', σ', hshift, htwins⟩ := exists_twins root hlacks hadded.module hadded.size
  obtain ⟨u, v, hinto, -, -, hv⟩ := htwins.first.settles
  obtain ⟨u', v', hinto', -, -, hv'⟩ := htwins.second.settles
  have hq : q.arena.size = μ.number 1 := by
    rw [hadded.size, μ.number_eq, hshift, Nat.add_comm]
  have hread : Deserializer.standard.reviveWithIds (.obj fields) none root = _ :=
    reviveWithIds_of_reviveInto hvariant hinto
  refine ⟨⟨v.project, v.issues, v.journal⟩,
    ⟨v'.project, merged.issues ++ v'.issues, merged.journal ++ v'.journal⟩, μ, ?_, ?_, ?_, ?_⟩
  · rw [Deserializer.revive, hread]
    rfl
  · have hplace : μ.number ReflectionId.project = merged.project.arena.size :=
      μ.number_project.trans hshift
    rw [hplace] at hinto'
    rw [Deserializer.addModule, hadd]
    change (Reader.reviveInto _ q merged.project.arena.size fields root >>= _) = _
    rw [hinto']
    rfl
  · obtain ⟨fields, r, y, σ, u, w, -, hcourse, heq, -⟩ := course_of_reviveWithIds hread
    exact (congrArg Revived.project heq) ▸ hcourse.dense
  · have hbefore : ∀ i, i < merged.project.arena.size → v'.project.get? i = q.get? i := by
      intro i hi
      refine htwins.second.settled_before hv' (by rw [hadded.size]; exact Nat.lt_succ_of_lt hi) ?_
      exact Nat.ne_of_lt (Nat.lt_of_lt_of_le (hshift ▸ hi) (μ.shift_le_number _))
    have hindexed : ∀ s, q.indexed s = merged.project.indexed s := by
      intro s
      rw [Project.indexed, hadded.symbolIndex]
      rfl
    refine ⟨hshift, htwins.embeds hv hv' hq, ?_, ?_, ?_, ?_, ?_⟩
    · intro r' d' hr' hd'
      obtain rfl := Option.some.inj (hr.symm.trans hr')
      obtain rfl : d = d' := Variant.project.inj (hd.symm.trans hd')
      exact (hbefore _ hpositive).trans hroot
    · intro i hne hi
      rw [hbefore i hi, hadded.before i hne hi]
    · rw [htwins.size hv hv' hq, μ.number_eq, hshift, Nat.add_comm]
    · intro s
      rw [htwins.indexed hv hv' ?_ s, hindexed]
      intro s i hi
      rw [hindexed] at hi
      exact hshift ▸ hp.indexed s i hi
    · intro f path hpath
      rw [hv'.files, FileTable.path?_foldl_setOwner, htwins.second.grows.table]
      refine FileTable.path?_of_extension (prefix_opened ..) ?_
      rw [hadded.files]
      exact hpath

namespace Annexed

variable {μ κ : Relocation} {title : String} {parts : List Project} {p part whole : Project}

theorem dense (h : Annexed μ p part whole) (hp : p.Dense) (hpart : part.Dense)
    (hroot : ∃ r, whole.get? ReflectionId.project = some r ∧ r.id = ReflectionId.project) :
    whole.Dense where
  filled := by
    intro i hi
    by_cases hzero : i = ReflectionId.project
    · exact hzero ▸ hroot
    by_cases hlt : i < p.arena.size
    · rw [h.before i hzero hlt]
      exact hp.filled i hlt
    -- The number is that of a reflection of the new project.
    obtain ⟨k, rfl⟩ := Nat.exists_eq_add_of_le (Nat.le_of_not_lt hlt)
    rw [h.size] at hi
    obtain ⟨t, ht, rfl⟩ := hpart.filled k (Nat.lt_of_add_lt_add_left hi)
    rw [← h.shift]
    by_cases hmodule : t.id = ReflectionId.project
    · obtain ⟨s, hs, hplace⟩ := h.embeds.module
      rw [hmodule] at ht ⊢
      obtain rfl := Option.some.inj (hs.symm.trans ht)
      refine ⟨_, hplace, ?_⟩
      exact (congrArg μ.number hmodule).trans μ.number_project
    · exact ⟨_, h.embeds.inner t.id t hmodule ht, (μ.number_eq _).trans (Nat.add_comm ..)⟩
  indexed := by
    intro s i hi
    rw [h.indexed] at hi
    rw [h.size]
    rcases List.mem_append.mp hi with hi | hi
    · exact Nat.lt_add_right _ (hp.indexed s i hi)
    · obtain ⟨k, hk, rfl⟩ := List.mem_map.mp hi
      rw [μ.number_eq, h.shift, Nat.add_comm]
      exact Nat.add_lt_add_left (hpart.indexed s k hk) _

/-- What stands in a merged project stays there when another project is annexed. -/
theorem embeds_before (h : Annexed μ p part whole) {other : Project} (hother : κ.Embeds other p)
    (hpositive : 0 < κ.shift) : κ.Embeds other whole := by
  have hkeep : ∀ i t, 0 < i → p.get? i = some t → whole.get? i = some t := by
    intro i t hi ht
    rw [h.before i (Nat.ne_of_gt hi) (Project.lt_size_of_get? ht), ht]
  refine ⟨?_, ?_, ?_⟩
  · obtain ⟨t, ht, hmodule⟩ := hother.module
    exact ⟨t, ht, hkeep _ _ hpositive hmodule⟩
  · intro k t hk ht
    exact hkeep _ _ (Nat.add_pos_left hpositive k) (hother.inner k t hk ht)
  · intro f path hpath
    exact h.files _ _ (hother.files f path hpath)

/-- A merged project with one more project in it is a merged project. -/
theorem merged (h : Annexed μ p part whole) (hp : Merged title parts p) (hpart : part.Dense) :
    Merged title (parts ++ [part]) whole := by
  have hbase : p.arena.size = offset parts parts.length := hp.dense.size.symm.trans hp.size
  have hroot := h.root _ _ hp.root rfl
  have hdense := h.dense hp.dense hpart ⟨_, hroot, rfl⟩
  refine ⟨hdense, ?_, ?_, ?_, ?_⟩
  · rw [hdense.size, h.size, hbase, offset_succ, hpart.size]
  · rw [hroot, map_offset_append, hbase]
    rfl
  · intro i other hother
    by_cases hi : i < parts.length
    · rw [List.getElem?_append_left hi] at hother
      obtain ⟨hdense, κ, hκ, hembeds⟩ := hp.stands i other hother
      refine ⟨hdense, κ, hκ.trans (offset_append (Nat.le_of_lt hi)).symm, ?_⟩
      exact h.embeds_before hembeds (hκ ▸ offset_pos ..)
    · obtain ⟨k, rfl⟩ := Nat.exists_eq_add_of_le (Nat.le_of_not_lt hi)
      rw [List.getElem?_append_right (Nat.le_add_right ..), Nat.add_sub_cancel_left] at hother
      obtain ⟨rfl, rfl⟩ : k = 0 ∧ part = other := by
        cases k with
        | zero => exact ⟨rfl, Option.some.inj hother⟩
        | succ k => cases hother
      refine ⟨hpart, μ, ?_, h.embeds⟩
      rw [h.shift, hbase]
      exact (offset_append (Nat.le_refl _)).symm
  · intro s
    have hlists := flatMap_offset_append parts part
      fun other base => (other.allOfSymbol s).map (base + ·.id)
    rw [hlists, hdense.map_allOfSymbol, h.indexed, ← hp.dense.map_allOfSymbol, hp.symbols,
      ← hpart.map_allOfSymbol, List.map_map]
    congr 1
    refine List.map_congr_left fun t _ => ?_
    rw [← hbase, ← h.shift]
    exact (μ.number_eq _).trans (Nat.add_comm ..)

end Annexed

/-! ### Any number of projects -/

theorem merged_nil (title : String) : Merged title [] (.ofName title) where
  dense := by
    refine ⟨?_, ?_⟩
    · intro i hi
      obtain rfl : i = 0 := Nat.lt_one_iff.mp hi
      exact ⟨_, rfl, rfl⟩
    · intro s i hi
      cases hi
  size := rfl
  root := rfl
  stands := by
    intro i part hpart
    cases hpart
  symbols := fun s => rfl

/-- Project after project is annexed. -/
theorem Merged.foldlM {title : String} {parts : List Project} (merged : Revived)
    (h : Merged title parts merged.project) (root : String) {objects : List Fields}
    (hobjects : ∀ fields ∈ objects,
      (Json.obj fields).isProject = true ∧ fields.Lacks declarationKeys) :
    ∃ (news : List Revived) (all : Revived),
      List.Forall₂ (fun fields part => Deserializer.standard.revive (.obj fields) none root = .ok part)
        objects news ∧
      objects.foldlM (Deserializer.standard.addModule root) merged = .ok all ∧
      Merged title (parts ++ news.map Revived.project) all.project := by
  induction objects generalizing parts merged with
  | nil => exact ⟨[], merged, .nil, rfl, (List.append_nil parts).symm ▸ h⟩
  | cons fields rest ih =>
    obtain ⟨hvariant, hlacks⟩ := hobjects fields (List.mem_cons_self ..)
    obtain ⟨part, next, μ, hread, hadd, hdense, hannexed⟩ :=
      exists_annexed h.dense ⟨_, _, h.root, rfl⟩ hvariant hlacks root
    obtain ⟨news, all, hreads, hall, hmerged⟩ := ih next (hannexed.merged h hdense)
      fun other hother => hobjects other (List.mem_cons_of_mem _ hother)
    refine ⟨part :: news, all, .cons hread hreads, ?_, ?_⟩
    · rw [List.foldlM_cons, hadd]
      exact hall
    · rw [List.append_assoc] at hmerged
      exact hmerged

/-- The value is a serialized project that says nothing that only a declaration can say. -/
def Json.isBareProject (value : Json) : Bool :=
  value.isProject && match value with
    | .obj fields => declarationKeys.all fun key => (Fields.value? fields key).isNone
    | _ => false

theorem Json.isBareProject_obj {fields : Fields} (h : (Json.obj fields).isBareProject = true) :
    (Json.obj fields).isProject = true ∧ fields.Lacks declarationKeys := by
  obtain ⟨hproject, hkeys⟩ := Bool.and_eq_true_iff.mp h
  refine ⟨hproject, ?_⟩
  intro key hkey
  exact Option.isNone_iff_eq_none.mp (List.all_eq_true.mp hkeys key hkey)

/-- Several serialized projects are read into one as they are read on their own: the merged project
consists of them, each moved behind the root and the projects before it. -/
theorem exists_merged {values : List Json} (title root : String)
    (h : ∀ value ∈ values, value.isBareProject = true) :
    ∃ (parts : List Revived) (all : Revived),
      List.Forall₂ (fun value part => Deserializer.standard.revive value none root = .ok part) values
        parts ∧
      Deserializer.standard.merge title values root = .ok all ∧
      Merged title (parts.map Revived.project) all.project := by
  have hall : values.all Json.isProject = true :=
    List.all_eq_true.mpr fun value hvalue => (Bool.and_eq_true_iff.mp (h value hvalue)).1
  rcases Reader.mapM_projectFields values with ⟨-, objects, rfl, hobjects⟩ | ⟨hnot, -⟩
  · obtain ⟨parts, all, hreads, hfold, hmerged⟩ := Merged.foldlM ⟨.ofName title, [], []⟩
      (merged_nil title) root fun fields hfields =>
        Json.isBareProject_obj (h _ (List.mem_map_of_mem hfields))
    refine ⟨parts, all, ?_, ?_, hmerged⟩
    · exact List.forall₂_map_left_iff.mpr hreads
    · rw [Deserializer.merge, hobjects]
      change Reader.orFault (objects.foldlM _ _) = _
      rw [hfold]
      rfl
  · rw [hall] at hnot
    cases hnot

theorem exists_merged_pair : ∃ (parts : List Revived) (all : Revived),
    List.Forall₂ (fun value part => Deserializer.standard.revive value none "/repo" = .ok part)
      [pair, dangling] parts ∧
    Deserializer.standard.merge "all" [pair, dangling] "/repo" = .ok all ∧
    Merged "all" (parts.map Revived.project) all.project :=
  exists_merged "all" "/repo" (by decide +kernel)

end DocTree
