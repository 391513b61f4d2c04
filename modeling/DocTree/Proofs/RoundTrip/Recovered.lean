import DocTree.Proofs.Registry.Tabled
import DocTree.Proofs.RoundTrip.Lookup
import DocTree.Proofs.RoundTrip.Mapped
import DocTree.Proofs.RoundTrip.Parented
import DocTree.Proofs.RoundTrip.Storable

/-!
A project that comes back whole. Where every reflection is reached from the root in exactly one way and
everything has a written form of its own, the project that is read is the one that was written under
other numbers: each reflection stands in it with all that it says, under the reflection in which it was
found, and files, symbols and owners are those that were registered.
-/

namespace DocTree

/-- The new numbers that a table gives; files keep theirs. -/
def Renaming.ofTable (ids : List (Nat × ReflectionId)) : Renaming :=
  ⟨fun x => (ids.lookup x).getD x, fun file => file⟩

theorem Renaming.number_ofTable {ids : List (Nat × ReflectionId)} {x n : Nat}
    (h : ids.lookup x = some n) : (ofTable ids).number x = n := by
  change (ids.lookup x).getD x = n
  rw [h]
  rfl

/-- The second project is the first one under other numbers. -/
structure Project.Recovered (p q : Project) (μ : Renaming) : Prop where
  /-- Every reflection is there with all that is written of it. -/
  reflections : ∀ i r, p.get? i = some r → ∃ owner, q.get? (μ.number i) =
    some { μ.reflection (p.portrait (p.pruned r)) with parent := owner }
  root : μ.number ReflectionId.project = ReflectionId.project
  top : q.parent? ReflectionId.project = none
  /-- Whatever stands in a slot or a type of a reflection has that reflection for its parent. -/
  parents : ∀ i r, p.get? i = some r → ∀ x ∈ r.childIds, p.contains x = true →
    q.parent? (μ.number x) = some (μ.number i)
  symbols : ∀ x, p.contains x = true → q.symbolOf? (μ.number x) = p.symbolOf? x
  indexed : ∀ s y, y ∈ q.indexed s ↔ ∃ x, p.symbolOf? x = some s ∧ y = μ.number x
  paths : q.files.paths = p.files.paths
  owners : q.files.owners = p.files.owners.map μ.entry

namespace Copying

variable {c : Copying} {clean : Prop} {owner b : Nat} {xs : List ReflectionId} {spots : List Spot}
  {w : Revival}

/-- What is laid inside a reflection has its places there. -/
theorem Laid.exists_spot (h : c.Laid owner b xs spots) {x : ReflectionId} (hx : x ∈ xs) :
    ∃ s ∈ spots, s.source = x ∧ s.owner = some owner := by
  induction h with
  | nil => cases hx
  | cons _ _ _ _ _ ihrest =>
    rcases List.mem_cons.mp hx with rfl | hx
    · exact ⟨_, List.mem_cons_self .., rfl, rfl⟩
    · obtain ⟨s, hs, hsource, howner⟩ := ihrest hx
      exact ⟨s, List.mem_cons_of_mem _ (List.mem_append_right _ hs), hsource, howner⟩

section Places

variable (h : c.Revives clean spots w) (hlayout : c.Layout spots)
  (hnodup : (spots.map (·.source)).Nodup)

include h

/-- The table gives every place its number. -/
theorem Revives.number_eq (hnodup : (spots.map (·.source)).Nodup) {s : Spot} (hs : s ∈ spots) :
    (Renaming.ofTable w.ids).number s.source = s.number :=
  Renaming.number_ofTable (h.ids ▸ lookup_idTable hnodup hs)

include hlayout

/-- A registered reflection has its place, and places inside it for what it holds. -/
theorem Revives.exists_place {B : Nat → Prop}
    (hpairs : PairsOff w.ids (c.project.contains · = true) B) {i : ReflectionId} {r : Reflection}
    (hr : c.project.get? i = some r) : ∃ s ∈ spots, s.source = i ∧ ∃ inner,
      (∀ t ∈ inner, t ∈ spots) ∧ c.Laid s.number (s.number + 1) (c.inOrder r.variant) inner := by
  obtain ⟨n, hn⟩ := hpairs.total i (Project.contains_of_get? hr)
  obtain ⟨s, hs, rfl, -⟩ := h.spot_of_id? hn
  obtain ⟨r', inner, hr', hsub, hlaid⟩ := hlayout.inside hs
  obtain rfl : r' = r := Option.some.inj (hr'.symm.trans hr)
  exact ⟨s, hs, rfl, inner, hsub, hlaid⟩

/-- What is read at a place stands under the owner of the place. -/
theorem Revives.parent?_number {s : Spot} (hs : s ∈ spots) :
    w.project.parent? s.number = s.owner := by
  obtain ⟨r, hr⟩ := Project.contains_iff.mp (hlayout.contains_source hs)
  rw [Project.parent?_of_get? (h.get?_number hlayout hs), image_eq hr]

end Places

theorem follows_ofTable {B : Nat → Prop} (hpairs : PairsOff w.ids (c.project.contains · = true) B)
    (hfiles : ∀ file, (c.project.files.path? file).isSome = true → c.file? file = some file) :
    c.Follows w (.ofTable w.ids) where
  ids x hx := by
    obtain ⟨n, hn⟩ := hpairs.total x hx
    rw [Renaming.number_ofTable hn]
    exact hn
  files := hfiles

end Copying

namespace Project

variable {p : Project} {root : String} {μ : Renaming} {clean : Prop} {spots : List Copying.Spot}
  {w : Revival}

theorem mem_symbols_iff (h : (p.symbols.map (·.1)).Nodup) {x : ReflectionId} {s : Symbol} :
    p.symbolOf? x = some s ↔ (x, s) ∈ p.symbolMap := by
  rw [symbolOf?, Assoc.lookup_eq_some_iff h, symbolMap, List.mem_mergeSort]

/-! ### What has a written form -/

theorem Storable.intact (h : p.Storable root) : p.Intact where
  literals i r hr := (h.reflections i r hr).literals
  links i r hr := (h.reflections i r hr).files
  symbols entry hentry := (h.symbols entry hentry).1
  owners entry hentry := (h.owners entry hentry).1

theorem Storable.mapped (h : p.Storable root) (hroot : Path.Rooted root) (htables : p.Tabled)
    (hfiles : p.files.size < Json.wordBound) : p.Mapped root where
  kept path hpath :=
    ⟨(h.files path hpath).cleaned hroot, (h.files path hpath).reread hroot, htables.files.whole path hpath⟩
  filesNodup := htables.files.paths
  filesSmall := hfiles
  owners := h.owners
  ownersNodup := htables.files.owners
  symbols entry hentry := ⟨(h.symbols entry hentry).1, (h.symbols entry hentry).2.reread hroot⟩
  symbolsNodup := htables.symbols

/-! ### What is read -/

section Read

variable (h : p.Mapped root) (hsmall : p.arena.size ≤ Json.wordBound)
  (hfollows : (Copying.ofProject p root).Follows w μ)
  (hrevives : (Copying.ofProject p root).Revives clean spots w)
  (hinj : ∀ x y, p.contains x = true → p.contains y = true → μ.number x = μ.number y → x = y)

include h hsmall hfollows hrevives

theorem Mapped.symbolOf?_read (hinj : ∀ x y, p.contains x = true → p.contains y = true →
    μ.number x = μ.number y → x = y) {x : ReflectionId} (hx : p.contains x = true) :
    w.project.symbolOf? (μ.number x) = p.symbolOf? x := by
  have hsymbols := h.symbols_read hsmall hfollows hrevives hinj
  have hkeys : (w.project.symbols.map (·.1)).Nodup := by
    rw [hrevives.symbols]
    exact Assoc.nodup_foldl_insert _ List.nodup_nil
  refine Option.ext fun s => ?_
  rw [mem_symbols_iff h.symbolsNodup, symbolOf?, Assoc.lookup_eq_some_iff hkeys, hsymbols]
  constructor
  · intro hmem
    obtain ⟨entry, hentry, heq⟩ := List.mem_map.mp hmem
    obtain ⟨hnumber, rfl⟩ := Prod.mk.inj heq
    rwa [← hinj _ _ (h.symbol hentry).1 hx hnumber]
  · exact List.mem_map_of_mem (f := Prod.map μ.number id)

theorem Mapped.mem_indexed_read {s : Symbol} {y : ReflectionId} :
    y ∈ w.project.indexed s ↔ ∃ x, p.symbolOf? x = some s ∧ y = μ.number x := by
  rw [h.indexed_read hsmall hfollows hrevives, mem_foldl_enterOnce]
  simp only [List.not_mem_nil, false_or, List.mem_map, List.mem_filter, decide_eq_true_eq,
    Prod.exists, mem_symbols_iff h.symbolsNodup]
  constructor
  · rintro ⟨x, t, ⟨hmem, rfl⟩, rfl⟩
    exact ⟨x, hmem, rfl⟩
  · rintro ⟨x, hmem, rfl⟩
    exact ⟨x, s, ⟨hmem, rfl⟩, rfl⟩

end Read

/-- What has a written form of its own comes back whole. -/
theorem Storable.recovered (hp : p.Keyed) (hsmall : p.arena.size ≤ Json.wordBound)
    (hroot : Path.Rooted root) (h : p.Storable root) (hmapped : p.Mapped root)
    (hlayout : (Copying.ofProject p root).Layout spots)
    (hrevives : (Copying.ofProject p root).Revives clean spots w)
    (hnodup : (spots.map (·.source)).Nodup)
    (hpairs : PairsOff w.ids (p.contains · = true) (w.project.contains · = true)) :
    p.Recovered w.project (.ofTable w.ids) := by
  have hfollows : (Copying.ofProject p root).Follows w (.ofTable w.ids) :=
    Copying.follows_ofTable hpairs fun _ => hmapped.file?
  have hinj : ∀ x y, p.contains x = true → p.contains y = true →
      (Renaming.ofTable w.ids).number x = (Renaming.ofTable w.ids).number y → x = y := by
    intro x y hx hy heq
    have hnumber := hfollows.ids x hx
    rw [heq] at hnumber
    exact hpairs.injective x y _ hnumber (hfollows.ids y hy)
  have hnumber : ∀ s ∈ spots, s.number = (Renaming.ofTable w.ids).number s.source :=
    fun s hs => (hrevives.number_eq hnodup hs).symm
  obtain ⟨-, inner, -, hspots, -⟩ := hlayout.places
  have hfirst : ⟨ReflectionId.project, ReflectionId.project, none⟩ ∈ spots :=
    hspots ▸ List.mem_cons_self ..
  refine
    { reflections := fun i r hr => ?_
      root := (hnumber _ hfirst).symm
      top := hrevives.parent?_number hlayout hfirst
      parents := fun i r hr x hx hlive => ?_
      symbols := fun x hx => hmapped.symbolOf?_read hsmall hfollows hrevives hinj hx
      indexed := fun s y => hmapped.mem_indexed_read hsmall hfollows hrevives
      paths := hmapped.paths_read hrevives
      owners := hmapped.owners_read hfollows hrevives }
  · obtain ⟨s, hs, rfl, inner, hsub, hlaid⟩ := hrevives.exists_place hlayout hpairs hr
    have hid : r.id = s.source := hp.id _ r hr
    have hstorable := h.reflections _ r hr
    have himage := Copying.image_lasting (s := s) ⟨hp.id, hp.nested, hsmall⟩ hfollows hr
      (hstorable.lasting hroot) hstorable.literals (hid ▸ hnumber s hs)
      (hlaid.runs fun t ht => hnumber t (hsub t ht))
    exact ⟨s.owner, by rw [← hnumber s hs, hrevives.get?_number hlayout hs, himage]; rfl⟩
  · obtain ⟨s, hs, rfl, inner, hsub, hlaid⟩ := hrevives.exists_place hlayout hpairs hr
    have hheld : x ∈ (Copying.ofProject p root).inOrder r.variant :=
      (Copying.mem_inOrder (c := .ofProject p root) (h.reflections _ r hr).literals).mpr ⟨hx, hlive⟩
    obtain ⟨t, ht, rfl, howner⟩ := hlaid.exists_spot hheld
    rw [← hnumber t (hsub t ht), ← hnumber s hs, hrevives.parent?_number hlayout (hsub t ht), howner]

/-- Nothing else can be read when it was written. -/
theorem Storable.recovered_of_read (hp : p.Keyed) (hsmall : p.arena.size ≤ Json.wordBound)
    (htables : p.Tabled) (hfiles : p.files.size < Json.wordBound) (hroot : Path.Rooted root)
    (hreached : p.ReachedOnce) (h : p.Storable root) {q : Revived}
    {ids : List (Nat × ReflectionId)}
    (hread : Deserializer.standard.reviveWithIds
      (.obj (Serializer.standard.writeProject p root).output) none root = .ok (q, ids))
    (hpairs : PairsOff ids (p.contains · = true) (q.project.contains · = true)) :
    p.Recovered q.project (.ofTable ids) := by
  obtain ⟨r, hr, -⟩ := hp.root
  have htree : (Copying.ofProject p root).Treelike :=
    Copying.treelike_of_reachedOnce (contains_of_get? hr) h.intact.literals hreached
  obtain ⟨spots, w, hlayout, hrevives, hread'⟩ :=
    Copying.revives_ofProject hp hsmall htree (h.intact.allListed hfiles True)
  obtain ⟨rfl, rfl⟩ := Prod.mk.inj (Except.ok.inj (hread'.symm.trans hread))
  exact h.recovered hp hsmall hroot (h.mapped hroot htables hfiles) hlayout hrevives
    (hlayout.nodup_sources htree h.intact.literals hreached) hpairs

/-- A project whose reflections are reached in exactly one way each, and which has a written form of its
own, is read without complaint when it was written; the old numbers go with the new ones, and under
these the new project is the old one. -/
theorem roundTrip_recovered (hp : p.Keyed) (hsmall : p.arena.size ≤ Json.wordBound)
    (htables : p.Tabled) (hfiles : p.files.size < Json.wordBound) (hroot : Path.Rooted root)
    (hreached : p.ReachedOnce) (h : p.Storable root) :
    ∃ q ids, Deserializer.standard.reviveWithIds
        (.obj (Serializer.standard.writeProject p root).output) none root = .ok (q, ids) ∧
      q.issues = [] ∧ PairsOff ids (p.contains · = true) (q.project.contains · = true) ∧
      p.Recovered q.project (.ofTable ids) := by
  obtain ⟨q, ids, hread, hissues, hpairs⟩ :=
    @roundTrip_pairsOff p root hp hsmall hfiles hreached h.intact
  exact ⟨q, ids, hread, hissues, hpairs,
    h.recovered_of_read hp hsmall htables hfiles hroot hreached hread hpairs⟩

/-- The symbol of a variable. -/
def entwinedSymbol : Symbol := .ofName "/repo/src/w.ts" "w"

/-- A module, a variable beside it and one inside it, in the order in which they were registered. The
first variable links to the second one and to the file of the module, and its type names the symbol of
the second one. -/
def entwined : Project :=
  let p := (((ofName "p").after (.add 0 .children (.declaration "m" .module))).after
    (.add 0 .children { Reflection.declaration "v" .variable_ with
      comment := some (.ofSummary [.inlineTag "@link" "w" (some (.reflection 3)) none,
        .relativeLink "m.md" (some 1) none]) })).after
    (.add 1 .children (.declaration "w" .variable_))
  let q := (p.after (.setType 2 (some (.reference (.ofSymbol "w" entwinedSymbol) none)))).after
    (.registerSymbolId 3 entwinedSymbol)
  { q with files := (FileTable.empty.registerOwned "/repo/docs/m.md" 1).1 }

theorem forall_entwined {P : ReflectionId → Reflection → Prop}
    (h0 : ∀ r, entwined.get? 0 = some r → P 0 r) (h1 : ∀ r, entwined.get? 1 = some r → P 1 r)
    (h2 : ∀ r, entwined.get? 2 = some r → P 2 r) (h3 : ∀ r, entwined.get? 3 = some r → P 3 r) :
    ∀ i r, entwined.get? i = some r → P i r := by
  intro i r hr
  match i, hr, (lt_size_of_get? hr : i < 4) with
  | 0, hr, _ => exact h0 r hr
  | 1, hr, _ => exact h1 r hr
  | 2, hr, _ => exact h2 r hr
  | 3, hr, _ => exact h3 r hr

theorem keyed_entwined : entwined.Keyed := by
  refine ⟨forall_entwined ?_ ?_ ?_ ?_, ⟨_, rfl, rfl⟩, forall_entwined ?_ ?_ ?_ ?_⟩
  all_goals
    intro r hr
    rw [← Option.some.inj hr]
    first
    | rfl
    | exact fun h => absurd rfl h
    | exact fun _ => rfl

theorem tabled_entwined : entwined.Tabled :=
  ⟨List.nodup_singleton _, FileTable.keyed_empty.perform (.registerOwned "/repo/docs/m.md" 1)⟩

theorem reachedOnce_entwined : entwined.ReachedOnce := by
  have hwalk : ∀ way x, entwined.walk? way = some x →
      (way, x) ∈ [([], 0), ([0], 1), ([1], 2), ([0, 0], 3)] := by
    intro way
    induction way with
    | nil => exact fun x h => Option.some.inj h ▸ List.mem_cons_self ..
    | cons i way ih =>
      intro x h
      obtain ⟨a, hway, hstep⟩ := Option.bind_eq_some_iff.mp h
      have hmem := ih a hway
      simp only [List.mem_cons, Prod.mk.injEq, List.not_mem_nil, or_false] at hmem
      rcases hmem with ⟨rfl, rfl⟩ | ⟨rfl, rfl⟩ | ⟨rfl, rfl⟩ | ⟨rfl, rfl⟩
      · match i, hstep with
        | 0, hstep => exact (Option.some.inj hstep : 1 = x) ▸ by simp
        | 1, hstep => exact (Option.some.inj hstep : 2 = x) ▸ by simp
      · match i, hstep with
        | 0, hstep => exact (Option.some.inj hstep : 3 = x) ▸ by simp
      · cases hstep
      · cases hstep
  intro x hx
  match x, (lt_size_of_contains hx : x < 4) with
  | 0, _ => exact ⟨[], rfl, fun way h => by simpa using hwalk way 0 h⟩
  | 1, _ => exact ⟨[0], rfl, fun way h => by simpa using hwalk way 1 h⟩
  | 2, _ => exact ⟨[1], rfl, fun way h => by simpa using hwalk way 2 h⟩
  | 3, _ => exact ⟨[0, 0], rfl, fun way h => by simpa using hwalk way 3 h⟩

theorem storable_entwinedSymbol : entwinedSymbol.Storable "/repo" :=
  ⟨show Path.resolve _ _ = _ by decide +kernel, rfl, rfl⟩

theorem storable_entwined : entwined.Storable "/repo" := by
  have hclean : Flags.none.Clean := ⟨by decide, fun g _ hg => absurd hg (by cases g <;> decide)⟩
  have hplain : ∀ r : Reflection, r.flags = .none → (r.tag = .document → r.kind = .document) →
      (r.tag = .project → r.kind = .project) → r.types = [] → r.texts = [] →
      r.groupings = (none, none) → r.comment = none → r.sources = [] →
      r.Storable entwined "/repo" := by
    intro r hflags hdocument hproject htypes htexts hgroupings hcomment hsources
    have hliterals : r.literals = [] := congrArg (·.flatMap Ty.declarations) htypes
    have hrefs : r.refTargets = [] :=
      congrArg (·.flatMap fun t => t.references.map fun entry => entry.1.target) htypes
    refine ⟨hflags ▸ hclean, hdocument, hproject, ?_, ?_, ?_, ?_, ?_, ?_, ?_, ?_, ?_, ?_, ?_, ?_⟩ <;>
      simp [hliterals, hrefs, htypes, htexts, hgroupings, hcomment, hsources, groupMembers]
  refine ⟨forall_entwined ?_ ?_ ?linked ?_, fun entry hentry => ?_, fun path hpath => ?_,
    fun entry hentry => ?_⟩
  case linked =>
    intro r hr
    obtain rfl := Option.some.inj hr
    have htexts : ∀ P : Part → Prop, P (.inlineTag "@link" "w" (some (.reflection 3)) none) →
        P (.relativeLink "m.md" (some 1) none) →
        ∀ q ∈ [Part.inlineTag "@link" "w" (some (.reflection 3)) none,
          .relativeLink "m.md" (some 1) none], P q :=
      fun P htag hlink => List.forall_mem_cons.mpr ⟨htag, List.forall_mem_singleton.mpr hlink⟩
    refine ⟨hclean, nofun, nofun, nofun, ?_, ?_, ?_, nofun, ?_, nofun, ?_, ?_, ?_, ⟨nofun, nofun⟩,
      nofun⟩
    · exact fun target htarget => List.mem_singleton.mp htarget ▸ trivial
    · exact htexts _ (fun target htarget => Option.some.inj htarget ▸ rfl) nofun
    · exact htexts _ nofun fun file hfile => Option.some.inj hfile ▸ rfl
    · rintro s (hs | ⟨q, hq, hs⟩)
      · cases List.mem_singleton.mp hs
        exact storable_entwinedSymbol
      · revert hs
        exact htexts (fun q => q.target? = some (.symbol s) → s.Storable "/repo") nofun nofun q hq
    · rintro t ht value hvalue
      cases List.mem_singleton.mp ht
      cases List.mem_singleton.mp hvalue
    · rintro t ht entry hentry
      cases List.mem_singleton.mp ht
      cases List.mem_singleton.mp hentry
      exact nofun
    · exact fun m hm => Option.some.inj hm ▸ ⟨by decide +kernel, List.nodup_nil⟩
  · exact fun r hr => Option.some.inj hr ▸ hplain _ rfl nofun (fun _ => rfl) rfl rfl rfl rfl rfl
  · exact fun r hr => Option.some.inj hr ▸ hplain _ rfl nofun nofun rfl rfl rfl rfl rfl
  · exact fun r hr => Option.some.inj hr ▸ hplain _ rfl nofun nofun rfl rfl rfl rfl rfl
  · exact List.mem_singleton.mp hentry ▸ ⟨rfl, storable_entwinedSymbol⟩
  · exact List.mem_singleton.mp hpath ▸ show Path.resolve _ _ = _ by decide +kernel
  · exact List.mem_singleton.mp hentry ▸ ⟨rfl, rfl⟩

/-- The variable inside the module is read before the one beside it. -/
theorem roundTrip_recovered_entwined : entwined.Keyed ∧ entwined.Tabled ∧ Path.Rooted "/repo" ∧
    entwined.ReachedOnce ∧ entwined.Storable "/repo" ∧
    ∃ q ids, Deserializer.standard.reviveWithIds
        (.obj (Serializer.standard.writeProject entwined "/repo").output) none "/repo" =
          .ok (q, ids) ∧
      q.issues = [] ∧ PairsOff ids (entwined.contains · = true) (q.project.contains · = true) ∧
      entwined.Recovered q.project (.ofTable ids) :=
  ⟨keyed_entwined, tabled_entwined, rfl, reachedOnce_entwined, storable_entwined,
    roundTrip_recovered keyed_entwined (by decide) tabled_entwined (by decide) rfl
      reachedOnce_entwined storable_entwined⟩

/-! ### Projects that were built -/

/-- What was built by commands, and whose files were asked anything, comes back whole: its numbers and
tables are in order whatever the commands were, and only the tree and the written forms are asked for. -/
theorem recovered_run {allowed : Project → Command → Prop} {name : String} {new : List ReflectionId}
    {built : Project} {rs : List FileTable.Request} (hallowed : ∀ p c, allowed p c → c.KeepsOutline)
    (hrun : Run allowed (ofName name) new built)
    (hserved : p = { built with files := built.files.after rs })
    (hsmall : p.arena.size ≤ Json.wordBound) (hfiles : p.files.size < Json.wordBound)
    (hroot : Path.Rooted root) (hreached : p.ReachedOnce) (h : p.Storable root) :
    ∃ q ids, Deserializer.standard.reviveWithIds
        (.obj (Serializer.standard.writeProject p root).output) none root = .ok (q, ids) ∧
      q.issues = [] ∧ PairsOff ids (p.contains · = true) (q.project.contains · = true) ∧
      p.Recovered q.project (.ofTable ids) := by
  have hkeyed : built.Keyed := ((sound_ofName name).run hallowed hrun).keyed
  have hp : p.Keyed := hserved ▸ ⟨hkeyed.id, hkeyed.root, hkeyed.nested⟩
  have htables : p.Tabled := hserved ▸ (tabled_run hrun).serve rs
  obtain ⟨q, ids, hread, hissues, hpairs⟩ :=
    @roundTrip_pairsOff p root hp hsmall hfiles hreached h.intact
  exact ⟨q, ids, hread, hissues, hpairs,
    h.recovered_of_read hp hsmall htables hfiles hroot hreached hread hpairs⟩

end Project

end DocTree
