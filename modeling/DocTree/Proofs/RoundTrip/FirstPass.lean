import DocTree.Proofs.RoundTrip.Nesting

/-!
The first pass over a project that was written. Every reflection reached from the root has its place,
in the order of reading; the new project holds the draft of each place under its number, and the
queue holds the work about each place.
-/

namespace DocTree.Copying

variable {c : Copying} {clean : Prop} {owner b : Nat} {xs : List ReflectionId} {spots : List Spot}

/-! ### Places -/

/-- The places of a whole project: the root, and those of the reflections inside it. -/
structure Layout (c : Copying) (spots : List Spot) : Prop where
  places : ∃ r inner, c.project.get? ReflectionId.project = some r ∧
    spots = ⟨ReflectionId.project, ReflectionId.project, none⟩ :: inner ∧
    c.Laid ReflectionId.project 1 (c.inOrder r.variant) inner

/-- Places are numbered from zero. -/
theorem Layout.numbers (h : c.Layout spots) : spots.map (·.number) = List.range spots.length := by
  obtain ⟨r, inner, -, rfl, hlaid⟩ := h.places
  rw [List.map_cons, hlaid.numbers, List.length_cons, List.range_eq_range', List.range'_succ]
  rfl

theorem Layout.number_eq (h : c.Layout spots) {k : Nat} {s : Spot} (hs : spots[k]? = some s) :
    s.number = k := by
  have hk := (List.getElem?_eq_some_iff.mp hs).1
  have hnumber : (spots.map (·.number))[k]? = some s.number := by
    rw [List.getElem?_map, hs]
    rfl
  rw [h.numbers, List.getElem?_range hk] at hnumber
  exact (Option.some.inj hnumber).symm

theorem Layout.getElem?_number (h : c.Layout spots) {s : Spot} (hs : s ∈ spots) :
    spots[s.number]? = some s := by
  obtain ⟨k, hk⟩ := List.mem_iff_getElem?.mp hs
  rwa [h.number_eq hk]

/-- Inside a place, what the reflection holds is laid. -/
theorem Laid.inside (h : c.Laid owner b xs spots) {s : Spot} (hs : s ∈ spots) :
    ∃ r inner, c.project.get? s.source = some r ∧ (∀ t ∈ inner, t ∈ spots) ∧
      c.Laid s.number (s.number + 1) (c.inOrder r.variant) inner := by
  induction h with
  | nil => cases hs
  | @cons owner b x r xs inner rest hx _ hinner _ ihinner ihrest =>
    rcases List.mem_cons.mp hs with rfl | hs
    · exact ⟨r, inner, hx, fun t ht => List.mem_cons_of_mem _ (List.mem_append_left _ ht), hinner⟩
    · rcases List.mem_append.mp hs with hs | hs
      · obtain ⟨r', inner', hr', hsub, hlaid⟩ := ihinner hs
        exact ⟨r', inner', hr',
          fun t ht => List.mem_cons_of_mem _ (List.mem_append_left _ (hsub t ht)), hlaid⟩
      · obtain ⟨r', inner', hr', hsub, hlaid⟩ := ihrest hs
        exact ⟨r', inner', hr',
          fun t ht => List.mem_cons_of_mem _ (List.mem_append_right _ (hsub t ht)), hlaid⟩

theorem Layout.inside (h : c.Layout spots) {s : Spot} (hs : s ∈ spots) :
    ∃ r inner, c.project.get? s.source = some r ∧ (∀ t ∈ inner, t ∈ spots) ∧
      c.Laid s.number (s.number + 1) (c.inOrder r.variant) inner := by
  obtain ⟨r, inner, hr, rfl, hlaid⟩ := h.places
  rcases List.mem_cons.mp hs with rfl | hs
  · exact ⟨r, inner, hr, fun t ht => List.mem_cons_of_mem _ ht, hlaid⟩
  · obtain ⟨r', inner', hr', hsub, hlaid'⟩ := hlaid.inside hs
    exact ⟨r', inner', hr', fun t ht => List.mem_cons_of_mem _ (hsub t ht), hlaid'⟩

/-- The new numbers by the old ones; the last place of a reflection stands. -/
def idTable (spots : List Spot) : List (Nat × ReflectionId) :=
  spots.foldl (fun table s => Assoc.insert s.source s.number table) []

/-! ### The state after the pass -/

/-- What reading a project makes of a state in which nothing but its root is registered. -/
structure Planted (c : Copying) (clean : Prop) (spots : List Spot) (v : Revival) (σ : Reading) :
    Prop where
  arena : σ.revival.project.arena.toList = spots.map fun s => some (c.draft s)
  symbolIndex : σ.revival.project.symbolIndex = v.project.symbolIndex
  symbols : σ.revival.project.symbols = v.project.symbols
  table : σ.revival.project.files = v.project.files
  root : σ.revival.root = v.root
  ids : σ.revival.ids = idTable spots
  fileIds : σ.revival.fileIds = v.fileIds
  issues : clean → σ.revival.issues = v.issues
  works : ∀ s ∈ spots, c.Works σ.queue s
  about : ∀ d ∈ σ.queue, ∃ s ∈ spots, d.isAbout s.number = true

theorem first_pass (hleg : c.Legible) (hlisted : c.AllListed clean) {levels : Nat} {r : Reflection}
    (hr : c.project.get? ReflectionId.project = some r) (hproject : r.isProject = true)
    (hfits : c.Fits (levels + 1) ReflectionId.project) {v : Revival}
    (harena : v.project.arena = #[some (.project r.name)])
    (hids : v.ids = [(ReflectionId.project, ReflectionId.project)]) (hroot : v.root = c.root)
    (hfiles : v.fileIds = c.files) {depth : Nat}
    (hdepth : (Json.obj (c.objectFields (c.writer.reflectionWithin levels) r)).depth ≤ depth + 1) :
    ∃ spots σ, c.Layout spots ∧ c.Planted clean spots v σ ∧
      (Deserializer.standard.readReflection (Deserializer.standard.constructors depth)
        ReflectionId.project (c.objectFields (c.writer.reflectionWithin levels) r)).run ⟨v, []⟩ =
          .ok ((), σ) := by
  obtain ⟨r', hr', -, hinside⟩ := hfits
  obtain rfl : r' = r := Option.some.inj (hr'.symm.trans hr)
  have hread : c.Readable clean (c.writer.reflectionWithin levels) r' :=
    ⟨hleg, fun y hy => nested_within hleg hlisted (hinside y hy).2 (hinside y hy).1,
      fun y hy => reflectionWithin_dead hy, hlisted _ _ hr⟩
  have hbare : Reflection.project r'.name =
      { bare r' with id := ReflectionId.project, parent := none } := by
    rw [Reflection.isProject, Reflection.tag] at hproject
    rw [bare]
    cases hv : r'.variant with
    | project d => rfl
    | _ => rw [hv] at hproject; cases hproject
  have hhead : (Reflection.project r'.name).variant = (bare r').variant := by rw [hbare]
  obtain ⟨y, inner, rest, hreads, hharvest, hrest⟩ := reads_standardFields
    (n := ReflectionId.project) hread hhead rfl (shallow_of_le hdepth)
  -- At the start nothing is there but the root, which is what is read.
  let σ : Reading := ⟨v, []⟩
  have hview : View (c.site clean) ReflectionId.project 1 (.project r'.name)
      (σ.inside ReflectionId.project) := by
    refine ⟨rfl, ?_, ?_, hroot, hfiles⟩
    · change v.project.arena.size = 1
      rw [harena]
      rfl
    · change v.project.get? ReflectionId.project = _
      rw [Project.get?, harena]
      rfl
  obtain ⟨τ, hrun, hτ⟩ := hreads.readReflection hview
  have hdraft : c.filled ReflectionId.project r' (.project r'.name) =
      c.draft ⟨ReflectionId.project, ReflectionId.project, none⟩ := by
    rw [draft, hr, hbare]
  have hqueue : τ.queue = y.queue := hτ.queue.trans (List.nil_append _)
  refine ⟨⟨ReflectionId.project, ReflectionId.project, none⟩ :: inner, τ,
    ⟨r', inner, hr, rfl, hharvest.laid⟩, ?_, hrun⟩
  refine ⟨?_, hτ.symbolIndex, hτ.symbols, hτ.table, hτ.root, ?_, hτ.files, hτ.issues, ?_, ?_⟩
  · rw [hτ.arena, hharvest.block, hdraft]
    change v.project.arena.toList.set _ _ ++ _ = _
    rw [harena, List.map_cons, List.map_map]
    rfl
  · rw [hτ.ids, hharvest.ids, List.foldl_map]
    change List.foldl _ v.ids _ = _
    rw [hids]
    rfl
  · intro s hs
    rw [hqueue]
    rcases List.mem_cons.mp hs with rfl | hs
    · refine ⟨r', hr, ?_⟩
      rcases hrest with rfl | ⟨rfl, hstill⟩
      · exact .inl hharvest.own
      · exact .inr ⟨hharvest.own.trans (List.append_nil _), hdraft ▸ hstill⟩
    · exact hharvest.works s hs
  · intro d hd
    rcases hharvest.about d (hqueue ▸ hd) with hd | ⟨s, hs, hd⟩
    · exact ⟨_, List.mem_cons_self .., hd⟩
    · exact ⟨s, List.mem_cons_of_mem _ hs, hd⟩

end DocTree.Copying
