import DocTree.Proofs.Registry.Structural
import DocTree.Proofs.RoundTrip.Bijection

/-!
Looking up symbols in a project that was written and read again. What is written is one symbol for each
reflection, in the order of the numbers; reading enters them one after the other. So the new index lists
under a symbol what has that symbol, in this order, whatever the order of registration was and whatever
was narrowed; and a symbol whose file is written as that of another one is read as that one.
-/

namespace DocTree

/-! ### Entered once -/

/-- The first number that is looked for is found whether or not numbers are entered again. -/
theorem find?_foldl_enterOnce (P : ReflectionId → Bool) (ids before : List ReflectionId) :
    (ids.foldl enterOnce before).find? P = (before ++ ids).find? P := by
  induction ids generalizing before with
  | nil => rw [List.foldl_nil, List.append_nil]
  | cons id rest ih =>
    rw [List.foldl_cons, ih, enterOnce]
    split
    · rename_i hid
      rw [List.find?_append, List.find?_append]
      cases hfound : before.find? P with
      | some i => rfl
      | none =>
        have hP : P id = false := Bool.eq_false_iff.mpr (List.find?_eq_none.mp hfound id hid)
        rw [List.find?_cons_of_neg (by simp [hP])]
    · rw [List.append_assoc, List.singleton_append]

theorem head?_eq_find? {α : Type} (l : List α) : l.head? = l.find? fun _ => true := by
  cases l <;> rfl

/-! ### The preferred reflection -/

/-- The first of these reflections, anything rather than a reference. -/
def Reflection.preferred (rs : List Reflection) : Option Reflection :=
  (rs.find? fun r => !r.isReference).or rs.head?

/-- Of reflections that go together one by one, the preferred ones go together. -/
theorem Reflection.preferred_rel {R : Reflection → Reflection → Prop} {rs ts : List Reflection}
    (hR : ∀ r t, R r t → t.isReference = r.isReference) (h : List.Forall₂ R rs ts) :
    Option.Rel R (preferred rs) (preferred ts) := by
  have hfind : Option.Rel R (rs.find? fun r => !r.isReference) (ts.find? fun r => !r.isReference) := by
    induction h with
    | nil => exact .none
    | @cons r t rs ts hrt _ ih =>
      rw [List.find?_cons, List.find?_cons, hR r t hrt]
      cases r.isReference with
      | false => exact .some hrt
      | true => exact ih
  have hhead : Option.Rel R rs.head? ts.head? := by
    cases h with
    | nil => exact .none
    | cons hrt _ => exact .some hrt
  rw [preferred, preferred]
  generalize rs.find? (fun r => !r.isReference) = found at hfind
  generalize ts.find? (fun r => !r.isReference) = found' at hfind
  cases hfind with
  | some hrt => exact .some hrt
  | none => exact hhead

namespace Project

variable {p q : Project} {ids ids' : List ReflectionId} {s : Symbol}

/-- The preferred one of the reflections with these numbers. -/
def preferred (p : Project) (ids : List ReflectionId) : Option Reflection :=
  Reflection.preferred (ids.filterMap p.get?)

theorem ofSymbol?_eq (p : Project) (s : Symbol) : p.ofSymbol? s = p.preferred (p.indexed s) := rfl

theorem preferred_congr (h : ∀ P, ids.find? P = ids'.find? P) : p.preferred ids = p.preferred ids' := by
  have hfind : ∀ P, (ids.filterMap p.get?).find? P = (ids'.filterMap p.get?).find? P := by
    intro P
    rw [List.find?_filterMap, List.find?_filterMap, h]
  rw [preferred, preferred, Reflection.preferred, Reflection.preferred, hfind, head?_eq_find?,
    head?_eq_find?, hfind]

/-- The number has a counterpart in the other project, or stands for nothing in either. -/
def Matched (p q : Project) (m : ReflectionId → Option ReflectionId) (x : ReflectionId) : Prop :=
  (p.get? x = none ∧ m x = none) ∨ ∃ r n t, p.get? x = some r ∧ r.id = x ∧ m x = some n ∧
    q.get? n = some t ∧ t.id = n ∧ t.isReference = r.isReference

/-- Of numbers that are matched, the preferred one has the counterpart that is preferred. -/
theorem preferred_matched {m : ReflectionId → Option ReflectionId} (h : ∀ x ∈ ids, Matched p q m x) :
    (q.preferred (ids.filterMap m)).map (·.id) = (p.preferred ids).bind fun r => m r.id := by
  have hall : List.Forall₂ (fun r t => m r.id = some t.id ∧ t.isReference = r.isReference)
      (ids.filterMap p.get?) ((ids.filterMap m).filterMap q.get?) := by
    induction ids with
    | nil => exact .nil
    | cons x rest ih =>
      have hrest := ih fun y hy => h y (List.mem_cons_of_mem x hy)
      rcases h x (List.mem_cons_self ..) with ⟨hp, hm⟩ | ⟨r, n, t, hp, hid, hm, hq, htid, href⟩
      · rw [List.filterMap_cons_none hp, List.filterMap_cons_none hm]
        exact hrest
      · rw [List.filterMap_cons_some hp, List.filterMap_cons_some hm, List.filterMap_cons_some hq]
        exact .cons ⟨by rw [hid, htid, hm], href⟩ hrest
  have hrel := Reflection.preferred_rel (fun _ _ h => h.2) hall
  rw [preferred, preferred]
  generalize Reflection.preferred (ids.filterMap p.get?) = found at hrel
  generalize Reflection.preferred ((ids.filterMap m).filterMap q.get?) = found' at hrel
  cases hrel with
  | some hrt => exact hrt.1.symm
  | none => rfl

/-! ### Projects that were built -/

/-- Commands that register a reflection or a symbol. -/
def Command.Builds : Command → Prop
  | .add .. | .registerSymbol .. | .registerSymbolId .. => True
  | _ => False

/-- Every registered reflection but the root stands in a slot of its parent and in no other reflection,
and types own nothing that is not registered. -/
structure Joined (p : Project) : Prop where
  placed : ∀ i a, p.parent? i = some a → ∃ r role, p.get? a = some r ∧ i ∈ r.variant.slot role
  own : ∀ i r role c, p.get? i = some r → c ∈ r.variant.slot role → p.contains c = true →
    p.parent? c = some i
  literals : ∀ i r, p.get? i = some r → ∀ x ∈ r.literals, p.contains x = true

theorem Command.Builds.keepsOutline {c : Command} (h : c.Builds) : c.KeepsOutline := by
  cases c with
  | edit id f => exact h.elim
  | _ => trivial

/-- In a project that was built a parent was registered before its children. -/
theorem parent_lt_of_run {name : String} (hrun : Run (fun _ c => c.Builds) (ofName name) ids p) :
    ∀ i a, p.parent? i = some a → a < i := by
  induction hrun with
  | refl =>
    intro i a ha
    match i with
    | 0 => cases ha
    | i + 1 => cases ha
  | @step q q' ids new c hrun hc hq ih =>
    intro i a ha
    cases c with
    | add parent role r =>
      obtain ⟨⟨q', id⟩, hadd, ⟨⟩⟩ := map_eq_ok hq
      obtain ⟨hid, -, rp, v, hrp, -⟩ := add_eq_ok hadd
      have hplaced := placed_add hadd
      by_cases hi : i = id
      · subst hi
        obtain rfl := Option.some.inj (hplaced.parent?_self.symm.trans ha)
        exact hid ▸ lt_size_of_get? hrp
      · exact ih i a (hplaced.parent?_of_ne hi ▸ ha)
    | registerSymbol id declared =>
      cases hq
      exact ih i a ((parent?_of_arena_eq (arena_registerSymbol _ id declared) i).symm.trans ha)
    | registerSymbolId id s =>
      cases hq
      exact ih i a ha
    | _ => exact hc.elim

theorem Sound.keyed (h : p.Sound) : p.Keyed where
  id := h.numbered.id
  root := h.numbered.root.imp fun _ ⟨hr, hproject, _⟩ => ⟨hr, hproject⟩
  nested := fun i r hr hi => (h.numbered.below i r hr hi).1

/-! ### Written and read again -/

/-- The reflections whose symbol is read as this one when it was written, in the order of their
numbers. -/
def namesakes (p : Project) (root : String) (s : Symbol) : List ReflectionId :=
  (p.symbolMap.filter (·.2.reread root = s)).map (·.1)

end Project

namespace Copying

variable {c : Copying} {clean : Prop} {spots : List Spot} {w : Revival} {p : Project} {root : String}

/-- Under a symbol the new index lists the counterparts of what has that symbol when it is read. -/
theorem Revives.indexed_eq (h : c.Revives clean spots w)
    (hsmall : ∀ x n, w.id? x = some n → x < Json.wordBound) (s : Symbol) :
    w.project.indexed s = ((c.project.namesakes c.root s).filterMap w.id?).foldl enterOnce [] := by
  rw [h.indexed, symbolWork, Project.namesakes]
  congr 1
  generalize c.project.symbolMap = entries
  induction entries with
  | nil => rfl
  | cons entry rest ih =>
    rw [Revival.symbolEntries] at ih ⊢
    by_cases hlt : entry.1 < Json.wordBound
    · rw [List.filter_cons_of_pos (by simpa using hlt), List.map_cons, List.filterMap_cons]
      by_cases hs : entry.2.reread c.root = s
      · rw [List.filter_cons_of_pos (by simpa using hs), List.map_cons, List.filterMap_cons]
        cases hid : w.id? entry.1 with
        | none => exact ih
        | some n =>
          rw [Option.map_some, List.filter_cons_of_pos (by simpa using hs), List.map_cons, ih]
      · rw [List.filter_cons_of_neg (by simpa using hs)]
        cases hid : w.id? entry.1 with
        | none => exact ih
        | some n =>
          rw [Option.map_some, List.filter_cons_of_neg (by simpa using hs), ih]
    · have hid : w.id? entry.1 = none := by
        cases hid : w.id? entry.1 with
        | none => rfl
        | some n => exact absurd (hsmall _ _ hid) hlt
      rw [List.filter_cons_of_neg (by simpa using hlt), ih]
      by_cases hs : entry.2.reread c.root = s
      · rw [List.filter_cons_of_pos (by simpa using hs), List.map_cons, List.filterMap_cons, hid]
      · rw [List.filter_cons_of_neg (by simpa using hs)]

/-- What is read has the number of its place and is a reference if it was one. -/
theorem isReference_image (c : Copying) (w : Revival) {s : Spot} {r : Reflection}
    (hr : c.project.get? s.source = some r) :
    (c.image w s).id = s.number ∧ (c.image w s).isReference = r.isReference := by
  obtain ⟨id, name, kind, flags, comment, parent, own, data, anchor, counts, variant⟩ := r
  rw [image, draft, hr]
  cases variant <;> exact ⟨rfl, rfl⟩

/-- When every registered reflection has a new number, the new numbers are those of counterparts. -/
theorem Revives.matched (h : c.Revives clean spots w) (hlayout : c.Layout spots)
    (hid : ∀ i r, c.project.get? i = some r → r.id = i)
    (htotal : ∀ x, c.project.contains x = true → (w.id? x).isSome = true) (x : ReflectionId) :
    c.project.Matched w.project w.id? x := by
  cases hr : c.project.get? x with
  | none =>
    refine .inl ⟨hr, Option.eq_none_iff_forall_ne_some.mpr fun n hn => ?_⟩
    obtain ⟨spot, hmem, rfl, -⟩ := h.spot_of_id? hn
    exact Project.not_contains_iff.mpr hr (hlayout.contains_source hmem)
  | some r =>
    obtain ⟨n, hn⟩ := Option.isSome_iff_exists.mp (htotal x (Project.contains_of_get? hr))
    obtain ⟨spot, hmem, rfl, rfl⟩ := h.spot_of_id? hn
    obtain ⟨hnumber, href⟩ := isReference_image c w hr
    exact .inr ⟨r, _, _, hr, hid _ r hr, hn, h.get?_number hlayout hmem, hnumber, href⟩

/-- What a reflection that has a place holds has a place. -/
theorem Layout.mem_sources_of_held (hlayout : c.Layout spots) {a x : ReflectionId}
    (ha : a ∈ spots.map (·.source)) (hx : c.Holds a x) : x ∈ spots.map (·.source) := by
  obtain ⟨s, hs, rfl⟩ := List.mem_map.mp ha
  have hcount : 0 < (c.held s.source).count x := List.count_pos_iff.mpr (mem_held.mpr hx)
  refine List.count_pos_iff.mp ?_
  rw [hlayout.count_source]
  exact Nat.add_pos_right _
    (List.sum_pos_iff_exists_pos_nat.mpr ⟨_, List.mem_map_of_mem hs, hcount⟩)

end Copying

namespace Project

variable {p : Project} {name root : String} {ids : List ReflectionId}

/-- In a joined project a reflection is held by its parent and by nothing else. -/
theorem Joined.holds_iff (h : p.Joined) {a x : ReflectionId} :
    (Copying.ofProject p root).Holds a x ↔ p.parent? x = some a := by
  have hmem : ∀ r, p.get? a = some r → (x ∈ (Copying.ofProject p root).inOrder r.variant ↔
      (∃ role, x ∈ r.variant.slot role) ∧ p.contains x = true) := by
    intro r hr
    rw [← Variant.mem_childIds]
    exact Copying.mem_inOrder (c := .ofProject p root) (h.literals a r hr)
  constructor
  · rintro ⟨r, hr, hx⟩
    obtain ⟨⟨role, hrole⟩, hcontains⟩ := (hmem r hr).mp hx
    exact h.own a r role x hr hrole hcontains
  · intro hx
    obtain ⟨r, role, hr, hrole⟩ := h.placed x a hx
    exact ⟨r, hr, (hmem r hr).mpr ⟨⟨role, hrole⟩, contains_of_parent? hx⟩⟩

theorem Joined.treelike (h : p.Joined) (hp : p.Numbered) : (Copying.ofProject p root).Treelike :=
  Copying.treelike_of_parent? (fun _ _ => h.holds_iff.mp) fun _ ha => hp.ne_root_of_parent? ha rfl

/-- In a joined project whose parents were registered before their children everything has a place. -/
theorem Joined.mem_sources (h : p.Joined) (hp : p.Numbered)
    (hbefore : ∀ i a, p.parent? i = some a → a < i) {spots : List Copying.Spot}
    (hlayout : (Copying.ofProject p root).Layout spots) {x : ReflectionId}
    (hx : p.contains x = true) : x ∈ spots.map (·.source) := by
  induction x using Nat.strongRecOn with
  | ind x ih =>
    by_cases hroot : x = ReflectionId.project
    · obtain ⟨r, inner, -, rfl, -⟩ := hlayout.places
      exact hroot ▸ List.mem_cons_self ..
    · obtain ⟨a, ha, hcontains⟩ := hp.parent?_of_ne_root hx hroot
      exact hlayout.mem_sources_of_held (ih a (hbefore x a ha) hcontains) (h.holds_iff.mpr ha)

theorem exists_of_preferred {r : Reflection} (h : p.preferred ids = some r) :
    ∃ x ∈ ids, p.get? x = some r := by
  have hmem : r ∈ ids.filterMap p.get? := by
    rw [preferred, Reflection.preferred] at h
    rcases Option.or_eq_some_iff.mp h with h | ⟨-, h⟩
    · exact List.mem_of_find?_eq_some h
    · exact List.mem_of_head? h
  exact List.mem_filterMap.mp hmem

/-- Numbers that are told apart by their counterparts are equal when their counterparts are. -/
theorem eq_of_counterparts (hp : p.Numbered) {m : ReflectionId → Option ReflectionId}
    (htotal : ∀ x, p.contains x = true → (m x).isSome = true)
    (hinj : ∀ x y n, m x = some n → m y = some n → x = y)
    (h : ((p.preferred ids).bind fun r => m r.id) = (p.preferred ids').bind fun r => m r.id) :
    p.preferred ids = p.preferred ids' := by
  have hsome : ∀ l r, p.preferred l = some r → p.get? r.id = some r ∧ ∃ n, m r.id = some n := by
    intro l r hr
    obtain ⟨x, -, hx⟩ := exists_of_preferred hr
    obtain rfl := hp.id x r hx
    exact ⟨hx, Option.isSome_iff_exists.mp (htotal _ (contains_of_get? hx))⟩
  cases hr : p.preferred ids with
  | none =>
    cases ht : p.preferred ids' with
    | none => rfl
    | some t =>
      obtain ⟨-, n, hn⟩ := hsome ids' t ht
      rw [hr, ht, Option.bind_some, hn] at h
      cases h
  | some r =>
    obtain ⟨hget, n, hn⟩ := hsome ids r hr
    cases ht : p.preferred ids' with
    | none =>
      rw [hr, ht, Option.bind_some, hn] at h
      cases h
    | some t =>
      obtain ⟨hget', -⟩ := hsome ids' t ht
      rw [hr, ht, Option.bind_some, Option.bind_some, hn] at h
      rw [hinj _ _ n hn h.symm, hget'] at hget
      exact hget.symm

/-- What was written is read, with a new number for each registered reflection, and a symbol then leads
to the new number of the preferred one of those whose symbol is read as this one. -/
theorem exists_lookup_written (hrun : Run (fun _ c => c.Builds) (ofName name) ids p)
    (hsize : p.arena.size ≤ Json.wordBound) (hjoined : p.Joined) (root : String) :
    ∃ q m, Deserializer.standard.reviveWithIds
        (.obj (Serializer.standard.writeProject p root).output) none root = .ok (q, m) ∧
      (∀ x, p.contains x = true → (m.lookup x).isSome = true) ∧
      (∀ x y n, m.lookup x = some n → m.lookup y = some n → x = y) ∧
      ∀ s, (q.project.ofSymbol? s).map (·.id) =
        (p.preferred (p.namesakes root s)).bind fun r => m.lookup r.id := by
  have hsound : p.Sound := (sound_ofName name).run (fun _ _ => Command.Builds.keepsOutline) hrun
  have hlisted : (Copying.ofProject p root).AllListed False := fun _ _ _ hclean => hclean.elim
  obtain ⟨spots, w, hlayout, hrevives, hread⟩ := Copying.revives_ofProject hsound.keyed hsize
    (hjoined.treelike hsound.numbered) hlisted
  have htotal : ∀ x, p.contains x = true → (w.id? x).isSome = true := by
    intro x hx
    obtain ⟨spot, hspot, rfl⟩ := List.mem_map.mp
      (hjoined.mem_sources hsound.numbered (parent_lt_of_run hrun) hlayout hx)
    exact hrevives.isSome_id? hspot
  have hsmall : ∀ x n, w.id? x = some n → x < Json.wordBound := by
    intro x n hn
    obtain ⟨spot, hmem, rfl, -⟩ := hrevives.spot_of_id? hn
    exact Nat.lt_of_lt_of_le (lt_size_of_contains (hlayout.contains_source hmem)) hsize
  refine ⟨_, _, hread, htotal, fun _ _ _ => hrevives.id?_inj hlayout, fun s => ?_⟩
  change (w.project.ofSymbol? s).map (·.id) = _
  rw [ofSymbol?_eq, hrevives.indexed_eq hsmall, preferred_congr fun P => find?_foldl_enterOnce P _ []]
  exact preferred_matched fun x _ => hrevives.matched hlayout hsound.numbered.id htotal x

/-- Symbols are looked up in a project that was written and read again. Every registered reflection has
a new number, and a symbol leads to that of the preferred one, in the order of the numbers, of the
reflections whose symbol is read as this one. So it leads where it led before if and only if it led to
this one already. -/
theorem ofSymbol?_written (hrun : Run (fun _ c => c.Builds) (ofName name) ids p)
    (hsize : p.arena.size ≤ Json.wordBound) (hjoined : p.Joined) (root : String) (s : Symbol) :
    ∃ q m, Deserializer.standard.reviveWithIds
        (.obj (Serializer.standard.writeProject p root).output) none root = .ok (q, m) ∧
      (∀ x, p.contains x = true → (m.lookup x).isSome = true) ∧
      (q.project.ofSymbol? s).map (·.id) =
        ((p.preferred (p.namesakes root s)).bind fun r => m.lookup r.id) ∧
      ((q.project.ofSymbol? s).map (·.id) = ((p.ofSymbol? s).bind fun r => m.lookup r.id) ↔
        p.ofSymbol? s = p.preferred (p.namesakes root s)) := by
  have hsound : p.Sound := (sound_ofName name).run (fun _ _ => Command.Builds.keepsOutline) hrun
  obtain ⟨q, m, hread, htotal, hinj, hlookup⟩ := exists_lookup_written hrun hsize hjoined root
  refine ⟨q, m, hread, htotal, hlookup s, fun h => ?_, fun h => h ▸ hlookup s⟩
  exact eq_of_counterparts hsound.numbered htotal hinj (h.symm.trans (hlookup s))

/-! ### One symbol of two declarations -/

/-- Commands that give each reflection at most one symbol, without a position or a transient number. -/
def SymbolOnce (p : Project) : Command → Prop
  | .add .. => True
  | .registerSymbol id declared => p.symbols.lookup id = none ∧ declared.symbol.pos = none ∧
      declared.symbol.transient = none
  | .registerSymbolId id s => p.symbols.lookup id = none ∧ s.pos = none ∧ s.transient = none
  | _ => False

theorem SymbolOnce.builds {c : Command} (h : p.SymbolOnce c) : c.Builds := by
  cases c with
  | add | registerSymbol | registerSymbolId => trivial
  | _ => exact h.elim

/-- A symbol of the file `a.ts`. -/
def sharedSymbol : Symbol := .ofName "/repo/a.ts" "x"

/-- A namespace and a function of one name; the symbol that they share is registered for the function
first. -/
def twoOfSymbol : Project :=
  ((((ofName "p").after (.add 0 .children (.declaration "x" .namespace_))).after
    (.add 0 .children (.declaration "x" .function))).after (.registerSymbolId 2 sharedSymbol)).after
    (.registerSymbolId 1 sharedSymbol)

theorem run_twoOfSymbol :
    Run (fun p c => p.Proper c ∧ p.SymbolOnce c) (ofName "p") [1, 2] twoOfSymbol :=
  ((((Run.refl _).after (c := .add 0 .children (.declaration "x" .namespace_)) ⟨rfl, trivial⟩ rfl).after
    (c := .add 0 .children (.declaration "x" .function)) ⟨rfl, trivial⟩ rfl).after
    (c := .registerSymbolId 2 sharedSymbol) ⟨trivial, rfl, rfl, rfl⟩ rfl).after
    (c := .registerSymbolId 1 sharedSymbol) ⟨trivial, rfl, rfl, rfl⟩ rfl

theorem built_twoOfSymbol : Run (fun _ c => c.Builds) (ofName "p") [1, 2] twoOfSymbol :=
  run_twoOfSymbol.mono fun _ _ h => h.2.builds

theorem joined_twoOfSymbol : twoOfSymbol.Joined := by
  have hlinked : twoOfSymbol.Linked :=
    (linked_ofName "p").run (sound_ofName "p") (run_twoOfSymbol.mono fun _ _ h => h.1)
  refine ⟨?_, fun i r role c hr hc _ => (hlinked i r role c hr hc).1, ?_⟩
  · intro i a ha
    match i, ha with
    | 0, ha => cases ha
    | 1, ha | 2, ha =>
      obtain rfl : 0 = a := Option.some.inj ha
      exact ⟨_, .children, rfl, by decide⟩
    | i + 3, ha => cases ha
  · intro i r hr x hx
    rw [Reflection.literals, ← Variant.literals_eq_slot] at hx
    exact contains_of_parent? (hlinked i r .typeLiteral x hr hx).1

theorem namesakes_twoOfSymbol : twoOfSymbol.namesakes "/repo" sharedSymbol = [1, 2] := by
  have hsymbols : twoOfSymbol.symbols = [(2, sharedSymbol), (1, sharedSymbol)] := rfl
  have hmap : twoOfSymbol.symbolMap = [(1, sharedSymbol), (2, sharedSymbol)] := by
    rw [symbolMap, hsymbols]
    simp [List.mergeSort, List.MergeSort.Internal.splitInTwo]
  rw [namesakes, hmap]
  decide +kernel

/-- The namespace has the lower number and is found afterwards. -/
theorem ofSymbol?_written_twoOfSymbol :
    Run (fun _ c => c.Builds) (ofName "p") [1, 2] twoOfSymbol ∧
      twoOfSymbol.arena.size ≤ Json.wordBound ∧ twoOfSymbol.Joined ∧
      ∃ q m, Deserializer.standard.reviveWithIds
          (.obj (Serializer.standard.writeProject twoOfSymbol "/repo").output) none "/repo" =
            .ok (q, m) ∧
        (m.lookup 1).isSome = true ∧ (q.project.ofSymbol? sharedSymbol).map (·.id) = m.lookup 1 := by
  obtain ⟨q, m, hread, htotal, hlookup, -⟩ := ofSymbol?_written built_twoOfSymbol (by decide)
    joined_twoOfSymbol "/repo" sharedSymbol
  rw [namesakes_twoOfSymbol] at hlookup
  exact ⟨built_twoOfSymbol, by decide, joined_twoOfSymbol, q, m, hread, htotal 1 rfl, hlookup⟩

/-- A symbol need not lead to the same reflection as before, even if it is read as it was written. -/
theorem not_forall_ofSymbol?_kept : ¬ ∀ (name root : String) (ids : List ReflectionId) (p : Project)
    (s : Symbol), Run SymbolOnce (ofName name) ids p → p.Joined → s ∈ p.symbols.map (·.2) →
      s.reread root = s → ∀ q m, Deserializer.standard.reviveWithIds
          (.obj (Serializer.standard.writeProject p root).output) none root = .ok (q, m) →
        (q.project.ofSymbol? s).map (·.id) = (p.ofSymbol? s).bind fun r => m.lookup r.id := by
  intro h
  obtain ⟨q, m, hread, htotal, hinj, hlookup⟩ := exists_lookup_written built_twoOfSymbol (by decide)
    joined_twoOfSymbol "/repo"
  have hkept := h "p" "/repo" [1, 2] twoOfSymbol sharedSymbol (run_twoOfSymbol.mono fun _ _ h => h.2)
    joined_twoOfSymbol (List.mem_cons_self ..) (by decide +kernel) q m hread
  have hsound : twoOfSymbol.Sound :=
    (sound_ofName "p").run (fun _ _ => Command.Builds.keepsOutline) built_twoOfSymbol
  -- Before, the symbol leads to the function; of its namesakes the namespace comes first.
  have hsame := eq_of_counterparts hsound.numbered htotal hinj (hkept.symm.trans (hlookup sharedSymbol))
  have hindexed : twoOfSymbol.indexed sharedSymbol = [2, 1] := by decide +kernel
  have hbefore : (twoOfSymbol.preferred [2, 1]).map (·.id) = some 2 := rfl
  have hafter : (twoOfSymbol.preferred [1, 2]).map (·.id) = some 1 := rfl
  rw [namesakes_twoOfSymbol, hindexed] at hsame
  rw [hsame, hafter] at hbefore
  cases hbefore

end Project

end DocTree
