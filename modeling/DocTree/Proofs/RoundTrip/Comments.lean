import DocTree.Proofs.Files.Table
import DocTree.Proofs.RoundTrip.Counterparts
import DocTree.Proofs.RoundTrip.Lookup
import DocTree.Proofs.RoundTrip.Renamed
import DocTree.Proofs.RoundTrip.Resolve

/-!
The comments of a project that was written and read again. A comment that is written comes back with
all that stands in it, and what it mentions is replaced by its counterpart. Whether it is written is
decided by its tags and by the words of its summary alone.
-/

namespace DocTree

/-! ### What comments say -/

def Counterparts.comment (k : Counterparts) (m : Comment) : Comment := m.mapParts k.part

namespace Comment

/-- Has no tags, and no words in its summary. -/
structure Silent (m : Comment) : Prop where
  words : ∀ q ∈ m.summary, Text.allBlank q.words = true
  blockTags : m.blockTags = []
  modifierTags : m.modifierTags = []

/-- Has a label or a tag, or more than blank text in its summary. -/
def Telling (m : Comment) : Prop :=
  m.label.isSome = true ∨ m.blockTags ≠ [] ∨ m.modifierTags ≠ [] ∨
    ∃ q ∈ m.summary, ∀ s, q = .text s → Text.allBlank s = false

theorem isEmpty_iff (m : Comment) : m.isEmpty = true ↔ m.Silent := by
  rw [isEmpty, Bool.and_eq_true, Bool.and_eq_true, List.all_eq_true, List.isEmpty_iff,
    List.isEmpty_iff]
  exact ⟨fun h => ⟨h.1.1, h.1.2, h.2⟩, fun h => ⟨⟨h.words, h.blockTags⟩, h.modifierTags⟩⟩

end Comment

/-! ### What is reached -/

namespace Project

/-- The reflection is registered, and a way leads from the root to it. -/
def Reached (p : Project) (i : ReflectionId) : Prop :=
  p.contains i = true ∧ ∃ way, p.walk? way = some i

/-- Types own registered declarations alone, and no way comes back to where it was. -/
structure Layered (p : Project) : Prop where
  literals : ∀ i r, p.get? i = some r → ∀ x ∈ r.literals, p.contains x = true
  once : ∀ way more x, p.walk? way = some x → p.walk? (more ++ way) = some x → more = []

end Project

namespace Copying

variable {c : Copying} {clean : Prop} {spots : List Spot} {w : Revival}

/-- On a line, a way leads on from each reflection to the first. -/
theorem Line.walk? (hliterals : ∀ i r, c.project.get? i = some r → ∀ x ∈ r.literals,
    c.project.contains x = true) {x : ReflectionId} {rest : List ReflectionId}
    (h : c.Line (x :: rest)) : ∃ way, c.project.walk? way = some x ∧
      ∀ y ∈ rest, ∃ i more way', way = i :: more ++ way' ∧ c.project.walk? way' = some y := by
  generalize hline : x :: rest = line at h
  induction h generalizing x rest with
  | root =>
    obtain ⟨rfl, rfl⟩ := List.cons.inj hline
    exact ⟨[], rfl, fun y hy => absurd hy List.not_mem_nil⟩
  | @step a x' rest' _ hheld ih =>
    obtain ⟨rfl, rfl⟩ := List.cons.inj hline
    obtain ⟨way, hway, hbefore⟩ := ih rfl
    obtain ⟨-, i, hi⟩ := hheld.walk? hliterals
    refine ⟨i :: way, hi way hway, fun y hy => ?_⟩
    rcases List.mem_cons.mp hy with rfl | hy
    · exact ⟨i, [], way, rfl, hway⟩
    · obtain ⟨j, more, way', rfl, hy⟩ := hbefore y hy
      exact ⟨i, j :: more, way', rfl, hy⟩

theorem founded_of_layered (h : c.project.Layered) : c.Founded where
  live a x hx := (hx.walk? h.literals).1
  nodup line hline := by
    induction hline with
    | root => exact List.pairwise_singleton _ _
    | @step a x rest hrest hheld ih =>
      refine List.nodup_cons.mpr ⟨fun hx => ?_, ih⟩
      obtain ⟨way, hway, hbefore⟩ := (Line.step hrest hheld).walk? h.literals
      obtain ⟨i, more, way', rfl, hagain⟩ := hbefore x hx
      exact List.cons_ne_nil _ _ (h.once way' (i :: more) x hagain hway)

/-- What is reached has a place. -/
theorem Layout.mem_sources_of_walk? (hlayout : c.Layout spots)
    (hliterals : ∀ i r, c.project.get? i = some r → ∀ x ∈ r.literals, c.project.contains x = true)
    (way : List Nat) {x : ReflectionId} (hx : c.project.walk? way = some x)
    (hlive : c.project.contains x = true) : x ∈ spots.map (·.source) := by
  induction way generalizing x with
  | nil =>
    obtain rfl : ReflectionId.project = x := Option.some.inj hx
    obtain ⟨r, inner, -, rfl, -⟩ := hlayout.places
    exact List.mem_cons_self ..
  | cons i way ih =>
    obtain ⟨a, r, hway, hr, hmem⟩ := Project.walk?_cons hx
    exact hlayout.mem_sources_of_held (ih hway (Project.contains_of_get? hr))
      ⟨r, hr, (mem_inOrder (hliterals a r hr)).mpr ⟨hmem, hlive⟩⟩

/-! ### Comments -/

/-- What stands in the new project for what the old one mentions. -/
def counterparts (c : Copying) (w : Revival) : Counterparts :=
  ⟨w.id?, c.file?, Symbol.reread c.root⟩

theorem Revives.matches (h : c.Revives clean spots w) (hlayout : c.Layout spots) :
    c.Matches w (c.counterparts w) where
  id x := by
    change w.id? x = _
    split
    · rfl
    · next hdead =>
      refine Option.eq_none_iff_forall_ne_some.mpr fun n hn => hdead ?_
      obtain ⟨s, hs, rfl, -⟩ := h.spot_of_id? hn
      exact hlayout.contains_source hs
  file := rfl
  symbol := rfl

theorem Matches.newComment {k : Counterparts} (h : c.Matches w k) {m : Comment}
    (hm : m.modifierTags.Nodup) : (c.comment m).mapParts (Reader.newPart w) = k.comment m := by
  rw [comment, foldl_addModifier (by simpa using hm), Counterparts.comment, Comment.mapParts,
    Comment.mapParts]
  simp only [List.map_map, Function.comp_def, blockTag, h.newParts, List.nil_append]

/-- The comment of a reflection that has a place comes back unless it counts as empty. -/
theorem Revives.comment_eq (h : c.Revives clean spots w) (hlayout : c.Layout spots)
    {i n : ReflectionId} {r : Reflection} (hr : c.project.get? i = some r) (hn : w.id? i = some n)
    (hnodup : ∀ m ∈ r.comment, m.modifierTags.Nodup) : ∃ s, w.project.get? n = some s ∧
      s.comment = (r.comment.filter fun m => !m.isEmpty).map (c.counterparts w).comment := by
  have hmatches := h.matches hlayout
  obtain ⟨s, hs, rfl, rfl⟩ := h.spot_of_id? hn
  refine ⟨_, h.get?_number hlayout hs, ?_⟩
  rw [image_eq hr, comment?, Option.map_map]
  exact Option.map_congr fun m hm =>
    hmatches.newComment (hnodup m (Option.filter_eq_some_iff.mp hm).1)

/-! ### Files -/

/-- The file has a new number, under which the path stands that its written form names. -/
def Refiled (c : Copying) (file : FileId) (path : Path) (state : FileTable × List (Nat × FileId)) :
    Prop :=
  ∃ n, state.2.lookup file = some n ∧ state.1.path? n = some (FileTable.named (c.filePath path))

theorem refiled_fileStep {file : FileId} {path : Path} (hlt : file < Json.wordBound)
    (state : FileTable × List (Nat × FileId)) :
    c.Refiled file path (c.fileStep state (file, path)) := by
  rw [fileStep, if_pos hlt]
  have hpath := FileTable.path?_of_find? (FileTable.find?_register state.1 (c.filePath path))
  refine ⟨(state.1.register (c.filePath path)).2.file, ?_, ?_⟩
  · rw [Assoc.lookup_insert_self]
  · dsimp only
    exact hpath

theorem Refiled.fileStep {file : FileId} {path : Path} {state : FileTable × List (Nat × FileId)}
    (h : c.Refiled file path state) {entry : FileId × Path} (hne : entry.1 ≠ file) :
    c.Refiled file path (c.fileStep state entry) := by
  obtain ⟨n, hn, hpath⟩ := h
  rw [Copying.fileStep]
  split
  · have hkept := FileTable.prefix_register state.1 (c.filePath entry.2)
    refine ⟨n, ?_, ?_⟩
    · rw [Assoc.lookup_insert_of_ne hne.symm, hn]
    · dsimp only
      exact FileTable.path?_of_extension hkept hpath
  · exact ⟨n, hn, hpath⟩

theorem refiled_foldl {file : FileId} {path : Path} (hlt : file < Json.wordBound)
    (entries : List (FileId × Path)) (hsame : ∀ e ∈ entries, e.1 = file → e.2 = path)
    (state : FileTable × List (Nat × FileId))
    (h : c.Refiled file path state ∨ (file, path) ∈ entries) :
    c.Refiled file path (entries.foldl c.fileStep state) := by
  induction entries generalizing state with
  | nil => exact h.resolve_right List.not_mem_nil
  | cons entry rest ih =>
    refine ih (fun e he => hsame e (List.mem_cons_of_mem entry he)) _ ?_
    by_cases heq : entry.1 = file
    · obtain rfl : entry = (file, path) :=
        Prod.ext heq (hsame entry (List.mem_cons_self ..) heq)
      exact .inl (refiled_fileStep hlt state)
    · exact h.imp (·.fileStep heq) fun hmem =>
        (List.mem_cons.mp hmem).resolve_left fun he => heq (congrArg Prod.fst he).symm

/-- A file that is registered has a counterpart. -/
theorem Revives.exists_file (h : c.Revives clean spots w) (hfiles : c.files = c.fileCopy.2)
    {file : FileId} {path : Path} (hlt : file < Json.wordBound)
    (hpath : c.project.files.path? file = some path) :
    ∃ n, (c.counterparts w).file file = some n ∧
      w.project.files.path? n = some (FileTable.named (c.filePath path)) := by
  have hsame : ∀ e ∈ c.project.files.entries, e.1 = file → e.2 = path := by
    rintro ⟨file', path'⟩ he rfl
    exact Option.some.inj ((FileTable.mem_entries.mp he).symm.trans hpath)
  obtain ⟨n, hn, hnamed⟩ := refiled_foldl hlt _ hsame (.empty, [])
    (.inr (FileTable.mem_entries.mpr hpath))
  refine ⟨n, ?_, ?_⟩
  · change c.file? file = some n
    rw [file?, if_pos hlt, hfiles]
    exact hn
  · rw [h.files, FileTable.path?_foldl_setOwner]
    exact hnamed

end Copying

/-! ### Whole projects -/

namespace Project

variable {p : Project}

/-- A project in which no way comes back is written and read again. Whatever is reached has a new
number, and every file has one. The comment of a reflection comes back, with the counterparts of
what it mentions, unless it has no tags and no words in its summary; then it is lost, whatever else
it says. -/
theorem comment_revived (hp : p.Keyed) (hlayered : p.Layered)
    (hsize : p.arena.size ≤ Json.wordBound) (root : String) :
    ∃ q ids, ∃ k : Counterparts, Deserializer.standard.reviveWithIds
        (.obj (Serializer.standard.writeProject p root).output) none root = .ok (q, ids) ∧
      k.id = (ids.lookup ·) ∧ k.symbol = Symbol.reread root ∧
      (∀ i, p.Reached i → ∃ n, k.id i = some n) ∧
      (∀ file path, file < Json.wordBound → p.files.path? file = some path →
        ∃ n, k.file file = some n ∧
          q.project.files.path? n = some (FileTable.named (path.reread root).text)) ∧
      ∀ i n r, p.get? i = some r → k.id i = some n →
        ∀ m, r.comment = some m → m.modifierTags.Nodup → ∃ s, q.project.get? n = some s ∧
          (m.Silent → s.comment = none) ∧ (¬ m.Silent → s.comment = some (k.comment m)) := by
  have hlisted : (Copying.ofProject p root).AllListed False := fun _ _ _ hclean => hclean.elim
  have hfounded : (Copying.plain p root).Founded := Copying.founded_of_layered hlayered
  obtain ⟨spots, w, hlayout, hrevives, hread⟩ := hfounded.revives hp hsize hlisted
  refine ⟨_, _, (Copying.ofProject p root).counterparts w, hread, rfl, rfl, ?_, ?_, ?_⟩
  · rintro i ⟨hlive, way, hway⟩
    have hplace := hlayout.mem_sources_of_walk? hlayered.literals way hway hlive
    obtain ⟨s, hs, rfl⟩ := List.mem_map.mp hplace
    exact Option.isSome_iff_exists.mp (hrevives.isSome_id? hs)
  · exact fun file path hlt hpath =>
      hrevives.exists_file (Copying.files_ofProject p root) hlt hpath
  · intro i n r hr hn m hm hnodup
    obtain ⟨s, hs, hcomment⟩ := hrevives.comment_eq hlayout hr hn fun m' hm' =>
      Option.some.inj (hm.symm.trans hm') ▸ hnodup
    rw [hm, Option.filter_some] at hcomment
    refine ⟨s, hs, fun hsilent => ?_, fun hsilent => ?_⟩
    · rw [hcomment, m.isEmpty_iff.mpr hsilent]
      rfl
    · rw [hcomment, Bool.eq_false_iff.mpr (mt m.isEmpty_iff.mp hsilent)]
      rfl

/-- A variable whose comment is a tag without words, and one whose comment leads to it. -/
def inheriting : Project :=
  ((ofName "p").after (.add 0 .children { Reflection.declaration "x" .variable_ with
      comment := some (.ofSummary [.inlineTag "@inheritDoc" "" none none]) })).after
    (.add 0 .children { Reflection.declaration "y" .variable_ with
      comment := some ⟨[.text "See ", .inlineTag "@link" "x" (some (.reflection 1)) none], [], [],
        some "y"⟩ })

theorem forall_inheriting {P : ReflectionId → Reflection → Prop}
    (h0 : ∀ r, inheriting.get? 0 = some r → P 0 r) (h1 : ∀ r, inheriting.get? 1 = some r → P 1 r)
    (h2 : ∀ r, inheriting.get? 2 = some r → P 2 r) :
    ∀ i r, inheriting.get? i = some r → P i r := by
  intro i r hr
  rcases i with _ | _ | _ | i
  · exact h0 r hr
  · exact h1 r hr
  · exact h2 r hr
  · cases hr

theorem keyed_inheriting : inheriting.Keyed := by
  have hsound : inheriting.Sound := .after (.after (sound_ofName "p") trivial rfl) trivial rfl
  exact hsound.keyed

/-- There are three ways. -/
theorem walk?_inheriting (way : List Nat) (x : ReflectionId) (h : inheriting.walk? way = some x) :
    (way = [] ∧ x = 0) ∨ (way = [0] ∧ x = 1) ∨ (way = [1] ∧ x = 2) := by
  induction way generalizing x with
  | nil => exact .inl ⟨rfl, (Option.some.inj h).symm⟩
  | cons i way ih =>
    obtain ⟨a, hway, hstep⟩ := Option.bind_eq_some_iff.mp h
    rcases ih a hway with ⟨rfl, rfl⟩ | ⟨rfl, rfl⟩ | ⟨rfl, rfl⟩
    · rcases i with _ | _ | i
      · exact .inr (.inl ⟨rfl, (Option.some.inj hstep).symm⟩)
      · exact .inr (.inr ⟨rfl, (Option.some.inj hstep).symm⟩)
      · cases hstep
    · cases hstep
    · cases hstep

theorem layered_inheriting : inheriting.Layered where
  literals := by
    refine forall_inheriting ?_ ?_ ?_
    all_goals
      intro r hr x hx
      rw [← Option.some.inj hr] at hx
      exact absurd hx List.not_mem_nil
  once way more x hx hagain := by
    rcases walk?_inheriting way x hx with ⟨rfl, rfl⟩ | ⟨rfl, rfl⟩ | ⟨rfl, rfl⟩
    all_goals
      rcases walk?_inheriting _ _ hagain with ⟨h, h'⟩ | ⟨h, h'⟩ | ⟨h, h'⟩
      all_goals first
        | exact List.append_left_eq_self.mp h
        | cases h'

/-- The tag without words is lost, the link to its variable is not. -/
theorem comment_revived_inheriting : ∃ q ids n m, Deserializer.standard.reviveWithIds
      (.obj (Serializer.standard.writeProject inheriting "/").output) none "/" = .ok (q, ids) ∧
    ids.lookup 1 = some n ∧ ids.lookup 2 = some m ∧
    (q.project.get? n).bind (·.comment) = none ∧
    (q.project.get? m).bind (·.comment) =
      some ⟨[.text "See ", .inlineTag "@link" "x" (some (.reflection n)) none], [], [], some "y"⟩ := by
  obtain ⟨q, ids, k, hread, hids, -, htotal, -, hcomment⟩ :=
    comment_revived keyed_inheriting layered_inheriting (by decide) "/"
  obtain ⟨n, hn⟩ := htotal 1 ⟨rfl, [0], rfl⟩
  obtain ⟨m, hm⟩ := htotal 2 ⟨rfl, [1], rfl⟩
  obtain ⟨s, hs, hlost, -⟩ := hcomment 1 n _ rfl hn _ rfl List.nodup_nil
  obtain ⟨t, ht, -, hkept⟩ := hcomment 2 m _ rfl hm _ rfl List.nodup_nil
  refine ⟨q, ids, n, m, hread, by rw [← hn, hids], by rw [← hm, hids], ?_, ?_⟩
  · rw [hs, Option.bind_some]
    exact hlost ⟨by decide, rfl, rfl⟩
  · rw [ht, Option.bind_some, hkept fun h => absurd h.words (by decide)]
    simp [Counterparts.comment, Comment.mapParts, Counterparts.part, Counterparts.link?, hn]

/-- Not every comment that says something comes back. -/
theorem not_forall_comment_kept : ¬ ∀ (p : Project) (root : String), p.Keyed → p.Layered →
    p.arena.size ≤ Json.wordBound → ∀ q ids, Deserializer.standard.reviveWithIds
        (.obj (Serializer.standard.writeProject p root).output) none root = .ok (q, ids) →
      ∀ i r m n s, p.Reached i → p.get? i = some r → r.comment = some m → m.Telling →
        (∀ t ∈ m.parts, t.target? = none ∧ t.file? = none) → ids.lookup i = some n →
        q.project.get? n = some s → s.comment.isSome = true := by
  intro h
  have hlisted : (Copying.ofProject inheriting "/").AllListed False :=
    fun _ _ _ hclean => hclean.elim
  have hfounded : (Copying.plain inheriting "/").Founded :=
    Copying.founded_of_layered layered_inheriting
  obtain ⟨spots, w, hlayout, hrevives, hread⟩ :=
    hfounded.revives keyed_inheriting (by decide) hlisted
  have hplace := hlayout.mem_sources_of_walk? layered_inheriting.literals [0]
    (x := 1) rfl rfl
  obtain ⟨spot, hspot, hsource⟩ := List.mem_map.mp hplace
  obtain ⟨n, hn⟩ := Option.isSome_iff_exists.mp (hrevives.isSome_id? hspot)
  rw [hsource] at hn
  obtain ⟨s, hs, hcomment⟩ := hrevives.comment_eq hlayout (r := _) rfl hn fun m hm =>
    Option.some.inj hm ▸ List.nodup_nil
  have htelling : (Comment.ofSummary [.inlineTag "@inheritDoc" "" none none]).Telling :=
    .inr (.inr (.inr ⟨_, List.mem_singleton_self _, fun _ h => by cases h⟩))
  have hsome := h inheriting "/" keyed_inheriting layered_inheriting (by decide) _ _ hread 1 _ _ n s
    ⟨rfl, [0], rfl⟩ rfl rfl htelling (fun t ht => List.mem_singleton.mp ht ▸ ⟨rfl, rfl⟩) hn hs
  rw [hcomment, Option.isSome_map] at hsome
  exact absurd hsome (by decide)

end Project

end DocTree
