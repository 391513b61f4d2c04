import DocTree.Proofs.Reading.Renumber
import DocTree.Proofs.RoundTrip.Bijection
import DocTree.Proofs.RoundTrip.Leaves
import DocTree.Proofs.RoundTrip.Renamed
import DocTree.Proofs.RoundTrip.Resolve

/-!
What was read lasts. After the second pass nothing waits for a new number, what leads somewhere leads to
what is registered, paths were resolved, flags and literals have the form in which they are written, and
no empty list is left. So whatever reading drops or changes, it does so once.
-/

namespace DocTree

theorem Symbol.reread_reread {root : String} (hroot : Path.Rooted root) {s : Symbol}
    (h : s.file.Absolute) : (s.reread root).reread root = s.reread root := by
  have hreread : ∀ t : Symbol, t.reread root = ⟨Path.reread root t.file, t.name, none, none⟩ :=
    fun _ => rfl
  rw [hreread, hreread, (h.reread hroot).2]

theorem Source.reread_reread (root : String) (s : Source) :
    (s.reread root).reread root = s.reread root := by
  have hfits : ∀ n : Nat, (if (if n < Json.wordBound then n else 0) < Json.wordBound then
      (if n < Json.wordBound then n else 0) else 0) = if n < Json.wordBound then n else 0 := by
    intro n
    by_cases h : n < Json.wordBound <;> simp [h]
  rw [reread, reread]
  simp only [hfits]

/-- If a text leads to a symbol, its path is rooted. -/
def Part.Addressed (q : Part) : Prop := ∀ s, q.target? = some (.symbol s) → s.file.Absolute

/-- Symbols and files have rooted paths. -/
structure Project.Addressed (p : Project) : Prop where
  refs : ∀ i r, p.get? i = some r → ∀ s, RefTarget.symbol s ∈ r.refTargets → s.file.Absolute
  links : ∀ i r, p.get? i = some r → ∀ q ∈ r.texts, q.Addressed
  symbols : ∀ entry ∈ p.symbols, entry.2.file.Absolute
  files : ∀ path ∈ p.files.paths, path.Absolute

namespace Copying

/-- New numbers are those of what is registered. -/
structure Landed (c : Copying) (v : Revival) : Prop where
  ids : ∀ x n, v.id? x = some n → v.project.contains n = true
  files : ∀ file n, c.file? file = some n → (v.project.files.path? n).isSome = true

variable {c : Copying} {v : Revival}

/-! ### Texts -/

theorem Landed.part (h : c.Landed v) (hroot : Path.Rooted c.root) {q : Part}
    (hq : q.Addressed) :
    v.project.LastingPart c.root (Reader.newPart v (c.part q)) := by
  cases q with
  | text s | code s => trivial
  | inlineTag tag s target linkText =>
    intro t ht
    obtain ⟨t', ht', hnew⟩ := Option.bind_eq_some_iff.mp ht
    obtain ⟨target, rfl, hlink⟩ := Option.bind_eq_some_iff.mp ht'
    cases target with
    | reflection id =>
      rw [link?] at hlink
      split at hlink
      · cases hlink
        obtain ⟨n, hn, rfl⟩ := Option.map_eq_some_iff.mp hnew
        exact h.ids id n hn
      · cases hlink
    | symbol s =>
      cases hlink
      cases hnew
      exact Symbol.reread_reread hroot (hq s rfl)
    | url address =>
      cases hlink
      cases hnew
      trivial
    | pending old => cases hlink
  | relativeLink s file anchor =>
    intro n hn
    obtain ⟨old, rfl, hold⟩ := Option.bind_eq_some_iff.mp hn
    exact h.files old n hold

theorem Landed.parts (h : c.Landed v) (hroot : Path.Rooted c.root) {ps : List Part}
    (hps : ∀ q ∈ ps, q.Addressed) :
    ∀ q ∈ (c.parts ps).map (Reader.newPart v), v.project.LastingPart c.root q := by
  intro q hq
  obtain ⟨q', hq', rfl⟩ := List.mem_map.mp hq
  obtain ⟨old, hold, rfl⟩ := List.mem_map.mp hq'
  exact h.part hroot (hps old hold)

theorem Landed.description (h : c.Landed v) (hroot : Path.Rooted c.root) {ps : Option (List Part)}
    (hps : ∀ q ∈ ps.getD [], q.Addressed) :
    ∀ q ∈ ((ps.map c.parts).map (·.map (Reader.newPart v))).getD [],
      v.project.LastingPart c.root q := by
  cases ps with
  | none => exact fun q hq => (List.not_mem_nil hq).elim
  | some ps => exact h.parts hroot hps

/-! ### Types -/

theorem Landed.target (h : c.Landed v) (hroot : Path.Rooted c.root) {target : RefTarget}
    (htarget : ∀ s, target = .symbol s → s.file.Absolute) :
    v.project.LastingTarget c.root (Reader.newRef v (c.refTarget target)) := by
  unfold refTarget
  cases c.project.resolveTarget? target with
  | some id =>
    simp only [Reader.newRef]
    cases hid : v.id? id with
    | none => trivial
    | some n => exact h.ids id n hid
  | none =>
    cases target with
    | symbol s => exact Symbol.reread_reread hroot (htarget s rfl)
    | _ => trivial

theorem Landed.node (h : c.Landed v) (hroot : Path.Rooted c.root) {t : Ty}
    (hrefs : ∀ head args, t.ref? = some (head, args) → ∀ s, head.target = .symbol s →
      s.file.Absolute)
    (hparts : ∀ ps ∈ t.summaries?.getD [], ∀ q ∈ ps, q.Addressed) (b : Nat) :
    v.project.LastingNode c.root (Reader.newType v (c.ty b t)) := by
  have hargs : ∀ args : Option (List Ty), (c.tyArgs b args).map (·.map (Reader.newType v)) ≠ some [] := by
    intro args
    rcases args with _ | _ | ⟨x, xs⟩ <;> simp [tyArgs]
  cases t with
  | literal value => exact value.reread_reread
  | reference head args =>
    rw [ty, Ty.newType_reference]
    exact ⟨h.target hroot (hrefs head args rfl), hargs args⟩
  | query head args =>
    rw [ty, Ty.newType_query]
    exact ⟨h.target hroot (hrefs head args rfl), hargs args⟩
  | union xs lists =>
    rw [ty, Ty.newType_union]
    intro ps hps
    cases lists with
    | none => cases hps
    | some lists =>
      obtain ⟨ps', hps', rfl⟩ := List.mem_map.mp hps
      obtain ⟨old, hold, rfl⟩ := List.mem_map.mp hps'
      exact h.parts hroot (hparts old hold)
  | _ => trivial

theorem Landed.ty (h : c.Landed v) (hroot : Path.Rooted c.root) {t : Ty}
    (hrefs : ∀ entry ∈ t.references, ∀ s, entry.1.target = .symbol s → s.file.Absolute)
    (hparts : ∀ q ∈ t.parts, q.Addressed) (b : Nat) :
    v.project.LastingTy c.root (Reader.newType v (c.ty b t)) := by
  refine Ty.forall_subterms_adjust rfl _ (forall_subterms_ty t b fun u hu b' => ?_)
  refine h.node hroot (fun head args href s hs => ?_) (fun ps hps q hq => ?_) b'
  · exact hrefs (head, args) (List.mem_filterMap.mpr ⟨u, hu, href⟩) s hs
  · refine hparts q (List.mem_flatten.mpr ⟨ps, List.mem_flatten.mpr ⟨_, ?_, hps⟩, hq⟩)
    cases hlists : u.summaries? with
    | none => rw [hlists] at hps; cases hps
    | some lists => exact List.mem_filterMap.mpr ⟨u, hu, hlists⟩

/-! ### Comments and groupings -/

/-- Modifier tags are added once each, and of some there remain some. -/
theorem exists_addModifiers (tags : List String) (m : Comment) : ∃ more,
    tags.foldl Comment.addModifier m = { m with modifierTags := m.modifierTags ++ more } ∧
      (m.modifierTags.Nodup → (m.modifierTags ++ more).Nodup) ∧
      (m.modifierTags ++ more = [] → tags = []) := by
  induction tags generalizing m with
  | nil => exact ⟨[], by rw [List.append_nil]; rfl, by simp, fun _ => rfl⟩
  | cons tag rest ih =>
    rw [List.foldl_cons]
    by_cases htag : tag ∈ m.modifierTags
    · have hsame : m.addModifier tag = m := if_pos (decide_eq_true htag)
      obtain ⟨more, hfold, hnodup, -⟩ := ih m
      refine ⟨more, hsame.symm ▸ hfold, hnodup, fun hnone => ?_⟩
      exact absurd (hnone ▸ List.mem_append_left more htag) List.not_mem_nil
    · have hadded : m.addModifier tag = { m with modifierTags := m.modifierTags ++ [tag] } :=
        if_neg fun h => htag (of_decide_eq_true h)
      obtain ⟨more, hfold, hnodup, -⟩ := ih { m with modifierTags := m.modifierTags ++ [tag] }
      rw [List.append_assoc, List.singleton_append] at hfold hnodup
      refine ⟨tag :: more, hadded.symm ▸ hfold, fun hm => hnodup ?_, fun hnone => ?_⟩
      · exact List.nodup_append.mpr ⟨hm, List.nodup_singleton tag, fun a ha b hb heq =>
          htag (List.mem_singleton.mp hb ▸ heq ▸ ha)⟩
      · exact absurd hnone (by simp)

theorem words_newPart (v : Revival) (q : Part) : (Reader.newPart v (c.part q)).words = q.words := by
  cases q <;> rfl

/-- A comment that says something still does when it was read. -/
theorem Landed.comment (h : c.Landed v) (hroot : Path.Rooted c.root) {m : Option Comment}
    (hm : ∀ n ∈ m, ∀ q ∈ n.parts, q.Addressed) :
    ∀ n ∈ (c.comment? m).map (·.mapParts (Reader.newPart v)), v.project.LastingComment c.root n := by
  intro n hn
  obtain ⟨k, hk, rfl⟩ := Option.map_eq_some_iff.mp hn
  obtain ⟨m, hkept, rfl⟩ := Option.map_eq_some_iff.mp hk
  obtain ⟨rfl, htold⟩ := Option.filter_eq_some_iff.mp hkept
  have hparts : ((c.comment m).mapParts (Reader.newPart v)).parts =
      (c.parts m.parts).map (Reader.newPart v) := by
    rw [← parts_comment]
    simp [Comment.mapParts, Comment.parts, List.flatMap_map, List.map_flatMap]
  obtain ⟨more, hfold, hnodup, hsome⟩ :=
    exists_addModifiers m.modifierTags ⟨c.parts m.summary, m.blockTags.map c.blockTag, [], m.label⟩
  have hcomment : c.comment m = ⟨c.parts m.summary, m.blockTags.map c.blockTag, more, m.label⟩ := hfold
  refine ⟨?_, ?_, ?_⟩
  · rw [Bool.not_eq_true'] at htold
    rw [← htold, hcomment, Comment.isEmpty, Comment.isEmpty]
    have hsummary : ((c.parts m.summary).map (Reader.newPart v)).all
        (fun q => Text.allBlank q.words) = m.summary.all fun q => Text.allBlank q.words := by
      rw [Copying.parts, List.map_map, List.all_map]
      congr 1
      funext q
      exact congrArg Text.allBlank (words_newPart v q)
    have hmodifiers : more.isEmpty = m.modifierTags.isEmpty := by
      rw [Bool.eq_iff_iff, List.isEmpty_iff, List.isEmpty_iff]
      refine ⟨fun hnone => hsome hnone, fun hnone => ?_⟩
      rw [hnone] at hfold
      exact (congrArg Comment.modifierTags hfold).symm
    simp only [Comment.mapParts, List.isEmpty_map, hsummary, hmodifiers]
  · rw [hcomment]
    exact hnodup List.nodup_nil
  · rw [hparts]
    exact h.parts hroot (hm m rfl)

theorem Landed.members (h : c.Landed v) (ids : List ReflectionId) :
    ∀ x ∈ Reader.newMembers v (c.live ids), v.project.contains x = true := by
  intro x hx
  obtain ⟨old, -, hold⟩ := List.mem_filterMap.mp hx
  exact h.ids old x hold

theorem Landed.category (h : c.Landed v) (hroot : Path.Rooted c.root) {k : Category}
    (hk : ∀ q ∈ k.description.getD [], q.Addressed) :
    v.project.LastingCategory c.root (Reader.newCategory v (c.category k)) :=
  ⟨h.members k.children, h.description hroot hk⟩

theorem Landed.categories (h : c.Landed v) (hroot : Path.Rooted c.root) (ks : Option (List Category))
    (hks : ∀ k ∈ ks.getD [], ∀ q ∈ k.description.getD [], q.Addressed) :
    (c.categories? ks).map (·.map (Reader.newCategory v)) ≠ some [] ∧
      ∀ k ∈ ((c.categories? ks).map (·.map (Reader.newCategory v))).getD [],
        v.project.LastingCategory c.root k := by
  rcases ks with _ | _ | ⟨k, rest⟩
  · exact ⟨nofun, fun k hk => (List.not_mem_nil hk).elim⟩
  · exact ⟨nofun, fun k hk => (List.not_mem_nil hk).elim⟩
  · refine ⟨fun hnone => List.cons_ne_nil _ _ (Option.some.inj hnone), fun k' hk' => ?_⟩
    obtain ⟨read, hread, rfl⟩ := List.mem_map.mp hk'
    obtain ⟨old, hold, rfl⟩ := List.mem_map.mp hread
    exact h.category hroot (hks old hold)

theorem Landed.groups (h : c.Landed v) (hroot : Path.Rooted c.root) (gs : Option (List Group))
    (hgs : ∀ g ∈ gs.getD [], (∀ q ∈ g.description.getD [], q.Addressed) ∧
      ∀ k ∈ g.categories.getD [], ∀ q ∈ k.description.getD [], q.Addressed) :
    (c.groups? gs).map (·.map (Reader.newGroup v)) ≠ some [] ∧
      ∀ g ∈ ((c.groups? gs).map (·.map (Reader.newGroup v))).getD [],
        v.project.LastingGroup c.root g := by
  rcases gs with _ | _ | ⟨g, rest⟩
  · exact ⟨nofun, fun g hg => (List.not_mem_nil hg).elim⟩
  · exact ⟨nofun, fun g hg => (List.not_mem_nil hg).elim⟩
  · refine ⟨fun hnone => List.cons_ne_nil _ _ (Option.some.inj hnone), fun g' hg' => ?_⟩
    obtain ⟨read, hread, rfl⟩ := List.mem_map.mp hg'
    obtain ⟨old, hold, rfl⟩ := List.mem_map.mp hread
    obtain ⟨hdescription, hcategories⟩ := hgs old hold
    obtain ⟨hfilled, hall⟩ := h.categories hroot old.categories hcategories
    exact ⟨h.members old.children, h.description hroot hdescription, hfilled, hall⟩

/-! ### Reflections -/

theorem tag_endVariant (c : Copying) (v : Revival) (b : Nat) (r : Reflection) :
    (c.endVariant v b r).tag = r.tag := by
  rw [endVariant, Reflection.tag]
  cases r.variant <;> rfl

/-- The kind with which a reflection begins is its own, save where the variant has one. -/
theorem kind_bare (r : Reflection) : (bare r).kind =
    match r.tag with
    | .project => .project
    | .document => .document
    | _ => r.kind := by
  rw [bare, Reflection.tag]
  cases r.variant <;> rfl

theorem mem_parts_image {s : Spot} {r : Reflection} (hs : c.project.get? s.source = some r) {q : Part}
    (hq : q ∈ (c.image v s).parts) : ∃ u ∈ r.parts, q = Reader.newPart v (c.part u) := by
  rw [image, hs] at hq
  simp only [parts_mapTarget, parts_mapContainer, Reflection.renewed, parts_mapParts,
    parts_mapTypes] at hq
  obtain ⟨q', hq', rfl⟩ := List.mem_map.mp hq
  rw [draft, hs] at hq'
  obtain ⟨u, hu, rfl⟩ := parts_filled hq'
  exact ⟨u, hu, rfl⟩

theorem mem_types_image {s : Spot} {r : Reflection} (hs : c.project.get? s.source = some r) {t : Ty}
    (ht : t ∈ (c.image v s).types) : ∃ u ∈ r.types, ∃ b, t = Reader.newType v (c.ty b u) := by
  rw [image, hs] at ht
  simp only [types_mapTarget, types_mapContainer, Reflection.renewed, types_mapParts,
    types_mapTypes] at ht
  obtain ⟨t', ht', rfl⟩ := List.mem_map.mp ht
  rw [draft, hs] at ht'
  obtain ⟨u, hu, b, rfl⟩ := mem_types_variant ht'
  exact ⟨u, hu, b, rfl⟩

/-- What stands at a place in the end lasts. -/
theorem Landed.image (h : c.Landed v) (hroot : Path.Rooted c.root) (haddressed : c.project.Addressed)
    {s : Spot} {r : Reflection} (hs : c.project.get? s.source = some r) :
    v.project.Lasting c.root (c.image v s) := by
  have htexts : ∀ q ∈ r.texts, q.Addressed := haddressed.links _ r hs
  have hown : ∀ q ∈ r.parts, q.Addressed := fun q hq =>
    htexts q (List.mem_append_left _ (List.mem_append_left _ hq))
  have hgrouped : ∀ k ∈ r.container?, ∀ q, (q ∈ (k.groups.getD []).flatMap (fun g =>
        g.description.getD [] ++ (g.categories.getD []).flatMap fun k => k.description.getD []) ∨
      q ∈ (k.categories.getD []).flatMap fun k => k.description.getD []) → q.Addressed :=
    fun k hk q hq => htexts q (List.mem_append_right _ (List.mem_flatMap.mpr
      ⟨k, Option.mem_toList.mpr hk, List.mem_append.mpr hq⟩))
  have himage := image_eq (v := v) hs
  refine ⟨?_, ?_, ?_, ?_, ?_, ?_, ?_⟩
  · rw [himage]
    exact r.flags.reread_reread
  · rw [kind_bare, himage, Reflection.tag, tag_endVariant, kind_bare]
    cases r.tag <;> rfl
  · rw [himage]
    refine h.comment hroot fun m hm q hq => hown q ?_
    rw [Reflection.parts_eq, Option.mem_def.mp hm]
    exact List.mem_append_left _ hq
  · intro t ht
    obtain ⟨u, hu, b, rfl⟩ := mem_types_image hs ht
    refine h.ty hroot (fun entry hentry target htarget => ?_) (fun q hq => ?_) b
    · refine haddressed.refs _ r hs target (List.mem_flatMap.mpr ⟨u, hu, ?_⟩)
      exact List.mem_map.mpr ⟨entry, hentry, htarget⟩
    · exact htexts q (List.mem_append_left _ (List.mem_append_right _
        (List.mem_flatMap.mpr ⟨u, hu, hq⟩)))
  · intro q hq
    have hmem : q ∈ (c.image v s).parts := by
      rw [Reflection.parts_eq]
      exact List.mem_append_right _ hq
    obtain ⟨u, hu, rfl⟩ := mem_parts_image hs hmem
    exact h.part hroot (hown u hu)
  · intro k hk
    have hcontainer : (c.image v s).container? = r.container?.map fun k =>
        c.regrouped v r (c.container (s.number + 1) k) := by
      rw [himage, Reflection.container?, Reflection.container?, endVariant]
      cases r.variant <;> rfl
    obtain ⟨old, hold, rfl⟩ := Option.map_eq_some_iff.mp (hcontainer.symm.trans hk)
    have hall := hgrouped old hold
    obtain ⟨hgroups, hgroupsall⟩ := h.groups hroot old.groups fun g hg =>
      ⟨fun q hq => hall q (.inl (List.mem_flatMap.mpr ⟨g, hg, List.mem_append_left _ hq⟩)),
        fun k hk q hq => hall q (.inl (List.mem_flatMap.mpr ⟨g, hg,
          List.mem_append_right _ (List.mem_flatMap.mpr ⟨k, hk, hq⟩)⟩))⟩
    obtain ⟨hcategories, hcategoriesall⟩ := h.categories hroot old.categories fun k hk q hq =>
      hall q (.inr (List.mem_flatMap.mpr ⟨k, hk, hq⟩))
    rw [regrouped, hold]
    exact ⟨hgroups, hgroupsall, hcategories, hcategoriesall⟩
  · have hsources : (c.image v s).sources = c.sources r.sources := by
      rw [himage, Reflection.sources, Reflection.sources, endVariant]
      cases r.variant <;> rfl
    rw [hsources]
    intro t ht
    obtain ⟨u, -, rfl⟩ := List.mem_map.mp ht
    exact u.reread_reread c.root

end Copying

end DocTree
