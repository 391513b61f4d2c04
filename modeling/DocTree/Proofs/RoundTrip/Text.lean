import DocTree.Proofs.Reading.Works
import DocTree.Proofs.RoundTrip.Draft

/-!
Reading the texts that were written: links, parts, comments, groupings and sources. Each object that
was written is the list of its fields, and reading it gives the value as the copy has it.
-/

namespace DocTree

/-- The file of a relative link. -/
def Part.file? : Part → Option FileId
  | .relativeLink _ file _ => file
  | _ => none

namespace Copying

variable {c : Copying} {clean : Prop}

/-- When reading is to find nothing amiss, every file that these texts link to is listed. -/
def Listed (c : Copying) (clean : Prop) (ps : List Part) : Prop :=
  clean → ∀ p ∈ ps, ∀ file, p.file? = some file → (c.file? file).isSome = true

theorem Listed.mono {ps qs : List Part} (h : c.Listed clean ps) (hsub : ∀ p ∈ qs, p ∈ ps) :
    c.Listed clean qs := fun hc p hp => h hc p (hsub p hp)

/-! ### What is written -/

section Written

variable (c : Copying)

def symbolFields (s : Symbol) : Fields :=
  [("sourceFileName", .str (s.serializedFile c.root)), ("qualifiedName", .str s.name)]

def partFields (p : Part) : Fields := ("kind", .str p.kind) :: c.writer.partFields p

def blockTagFields (t : BlockTag) : Fields :=
  [("tag", .str t.tag)] ++ Writer.textField "name" t.name ++ [("content", c.writer.parts t.content)]

def commentFields (m : Comment) : Fields :=
  [("summary", c.writer.parts m.summary)] ++
    Writer.listField "blockTags" (m.blockTags.map c.writer.blockTag) ++
    Writer.listField "modifierTags" (m.modifierTags.map .str) ++ Writer.textField "label" m.label

def categoryFields (k : Category) : Fields :=
  [("title", .str k.title)] ++ Writer.valueField "description" (k.description.map c.writer.parts) ++
    Writer.listField "children" (c.writer.liveIds k.children)

def groupFields (g : Group) : Fields :=
  [("title", .str g.title)] ++ Writer.valueField "description" (g.description.map c.writer.parts) ++
    Writer.listField "children" (c.writer.liveIds g.children) ++
    Writer.listField "categories" ((g.categories.getD []).map c.writer.category)

def sourceFields (s : Source) : Fields :=
  [("fileName", .str s.fileName), ("line", .ofNat s.line), ("character", .ofNat s.column)] ++
    Writer.textField "url" s.url

theorem symbol_written (s : Symbol) : c.writer.symbol s = .obj (c.symbolFields s) :=
  Component.compose_whole ((Fields.keyed_nil.cons _ _).cons _ _) (by simp)

theorem keyed_partFields (p : Part) :
    Fields.Keyed ["tag", "text", "target", "tsLinkText", "targetAnchor"] (c.writer.partFields p) := by
  cases p with
  | text s | code s => simp [Fields.Keyed, Writer.partFields]
  | inlineTag tag s target linkText =>
    have h := ((((Fields.keyed_nil.cons "text" (.str s)).cons "tag" (.str tag)).append
      (Fields.keyed_valueField "target" (c.writer.linkTarget? target))).append
      (Fields.keyed_textField "tsLinkText" linkText))
    exact h.trans (by simp)
  | relativeLink s file anchor =>
    have h := (((Fields.keyed_nil.cons "text" (.str s)).append
      (Fields.keyed_valueField "target" (file.map .ofNat))).append
      (Fields.keyed_textField "targetAnchor" anchor))
    exact h.trans (by simp)

theorem part_written (p : Part) : c.writer.part p = .obj (c.partFields p) :=
  Component.compose_whole ((c.keyed_partFields p).cons _ _) (by simp)

theorem blockTag_written (t : BlockTag) : c.writer.blockTag t = .obj (c.blockTagFields t) :=
  Component.compose_whole (((Fields.keyed_nil.cons _ _).append (Fields.keyed_textField _ _)).append
    (Fields.keyed_nil.cons _ _)) (by simp)

theorem comment_written (m : Comment) : c.writer.comment m = .obj (c.commentFields m) :=
  Component.compose_whole ((((Fields.keyed_nil.cons _ _).append (Fields.keyed_listField _ _)).append
    (Fields.keyed_listField _ _)).append (Fields.keyed_textField _ _)) (by simp)

theorem category_written (k : Category) : c.writer.category k = .obj (c.categoryFields k) :=
  Component.compose_whole (((Fields.keyed_nil.cons _ _).append (Fields.keyed_valueField _ _)).append
    (Fields.keyed_listField _ _)) (by simp)

theorem group_written (g : Group) : c.writer.group g = .obj (c.groupFields g) :=
  Component.compose_whole ((((Fields.keyed_nil.cons _ _).append (Fields.keyed_valueField _ _)).append
    (Fields.keyed_listField _ _)).append (Fields.keyed_listField _ _)) (by simp)

theorem source_written (s : Source) : c.writer.source s = .obj (sourceFields s) :=
  Component.compose_whole ((((Fields.keyed_nil.cons _ _).cons _ _).cons _ _).append
    (Fields.keyed_textField _ _)) (by simp)

end Written

/-! ### Links -/

theorem symbol?_written {v : Revival} (hroot : v.root = c.root) (s : Symbol) :
    v.symbol? (c.symbolFields s) = some (s.reread c.root) := by
  simp [Revival.symbol?, symbolFields, Fields.text?, hroot, Symbol.reread]

theorem lt_wordBound (hleg : c.Legible) {id : ReflectionId}
    (h : c.project.contains id = true) : id < Json.wordBound :=
  Nat.lt_of_lt_of_le (Project.lt_size_of_contains h) hleg.small

theorem takes_linkTarget (hleg : c.Legible)
    (target : Option LinkTarget) :
    Takes (c.site clean) (Reader.linkTarget (c.writer.linkTarget? target)) (target.bind c.link?)
      (∀ v, (target.bind c.link?).bind (Reader.newLink? v) = target.bind c.link?) := by
  match target with
  | none => exact .pure _ fun _ => rfl
  | some (.pending _) => exact .pure _ fun _ => rfl
  | some (.url _) => exact .pure _ fun _ => rfl
  | some (.symbol s) =>
    rw [Writer.linkTarget?, symbol_written]
    refine .ask ⟨0, fun v hroot _ n base r => ?_, fun _ _ => rfl⟩
    rw [symbol?_written hroot]
    exact Reads.pure _
  | some (.reflection id) =>
    rw [Writer.linkTarget?, Option.bind_some, link?]
    by_cases h : c.project.contains id = true
    · have hlt := lt_wordBound hleg h
      rw [if_pos h, show c.writer.project.contains id = true from h, if_pos rfl]
      change Takes _ (if id < Json.wordBound then _ else _) _ _
      rw [if_pos hlt]
      exact .bump_then (.pure (P := True) _ trivial)
    · rw [if_neg h, if_neg (show ¬ c.writer.project.contains id = true from h)]
      exact .pure _ fun _ => rfl

theorem takes_linkedFile (file : Option FileId)
    (h : clean → ∀ f, file = some f → (c.file? f).isSome = true) :
    Takes (c.site clean) (Reader.linkedFile ((file.map Json.ofNat).bind Json.asWord?))
      (file.bind c.file?) True := by
  match file with
  | none => exact .pure _ trivial
  | some f =>
    rw [Option.map_some, Option.bind_some, Json.asWord?_ofNat, Option.bind_some, file?]
    by_cases hf : f < Json.wordBound
    · rw [if_pos hf, if_pos hf, Reader.linkedFile]
      refine .ask ⟨0, fun v _ hfiles n base r => ?_, fun _ => trivial⟩
      have hlook : v.fileId? f = c.files.lookup f := congrArg (·.lookup f) hfiles
      rw [hlook]
      by_cases hnone : (c.files.lookup f).isNone = true
      · rw [if_pos hnone]
        have hdirty : ¬ clean := fun hc => by
          have hsome := h hc f rfl
          rw [file?, if_pos hf, Option.isSome_eq_false_iff.mpr hnone] at hsome
          cases hsome
        exact (Reads.report (e := c.site clean) (.missingFile f) hdirty rfl).bind
          (f := fun _ => pure (c.files.lookup f)) rfl (Reads.pure _)
      · rw [if_neg hnone]
        exact Reads.pure _
    · rw [if_neg hf, if_neg hf]
      exact .pure _ trivial

/-! ### Texts -/

theorem takes_part (hleg : c.Legible) (p : Part)
    (h : c.Listed clean [p]) :
    Takes (c.site clean) (Reader.part (c.partFields p)) (some (c.part p)) (c.part p).Still := by
  cases p with
  | text s =>
    have hread : Reader.part (c.partFields (.text s)) = pure (some (.text s)) := by
      simp [Reader.part, partFields, Part.kind, Writer.partFields, Fields.text, Fields.text?]
    rw [hread]
    exact .pure _ fun _ => rfl
  | code s =>
    have hread : Reader.part (c.partFields (.code s)) = pure (some (.code s)) := by
      simp [Reader.part, partFields, Part.kind, Writer.partFields, Fields.text, Fields.text?]
    rw [hread]
    exact .pure _ fun _ => rfl
  | inlineTag tag s target linkText =>
    have hread : Reader.part (c.partFields (.inlineTag tag s target linkText)) =
        (fun t => some (Part.inlineTag tag s t linkText)) <$>
          Reader.linkTarget (c.writer.linkTarget? target) := by
      simp [Reader.part, partFields, Part.kind, Writer.partFields, Fields.text, Fields.text?]
    rw [hread]
    exact (takes_linkTarget hleg target).map.imp fun hstill v =>
      congrArg (Part.inlineTag tag s · linkText) (hstill v)
  | relativeLink s file anchor =>
    have hread : Reader.part (c.partFields (.relativeLink s file anchor)) =
        (fun f => some (Part.relativeLink s f anchor)) <$>
          Reader.linkedFile ((file.map Json.ofNat).bind Json.asWord?) := by
      simp [Reader.part, partFields, Part.kind, Writer.partFields, Fields.text, Fields.text?,
        Fields.word?]
    rw [hread]
    refine (takes_linkedFile file fun hc f hf => ?_).map.imp fun _ _ => rfl
    exact h hc _ (List.mem_singleton_self _) f hf

/-- Texts in an array. -/
theorem takes_parts (hleg : c.Legible) (ps : List Part)
    (h : c.Listed clean ps) :
    Takes (c.site clean) (Reader.parts (some (c.writer.parts ps))) (c.parts ps)
      (∀ p ∈ c.parts ps, p.Still) := by
  have hobjects : ((c.writer.parts ps).asArray?.getD []).filterMap Json.asObject? =
      ps.map c.partFields := Json.filterMap_asObject? c.part_written ps
  rw [Reader.parts, Option.bind_some, hobjects]
  refine (Takes.collect fun p hp => takes_part hleg p (h.mono fun q hq => ?_)).imp
    fun hstill => List.forall_mem_map.mpr hstill
  exact List.mem_singleton.mp hq ▸ hp

/-- Texts under a key that may be absent. -/
theorem takes_parts? (hleg : c.Legible) (fields : Fields)
    (key : String) (ps : Option (List Part)) (hkey : fields.value? key = ps.map c.writer.parts)
    (h : c.Listed clean (ps.getD [])) :
    Takes (c.site clean) (Reader.parts? fields key) (ps.map c.parts)
      (∀ p ∈ (ps.map c.parts).getD [], p.Still) := by
  rw [Reader.parts?, hkey]
  match ps with
  | none => exact .pure _ fun _ hp => (List.not_mem_nil hp).elim
  | some ps => exact Takes.imp (Takes.bind (takes_parts hleg ps h) (.pure _ trivial)) And.left

theorem takes_blockTag (hleg : c.Legible) (t : BlockTag)
    (h : c.Listed clean t.content) :
    Takes (c.site clean) (Reader.blockTag (c.blockTagFields t)) (some (c.blockTag t))
      (∀ p ∈ (c.blockTag t).content, p.Still) := by
  have hread : Reader.blockTag (c.blockTagFields t) =
      (fun ps => some ⟨t.tag, t.name, ps⟩) <$> Reader.parts (some (c.writer.parts t.content)) := by
    simp [Reader.blockTag, blockTagFields, Fields.text, Fields.text?]
  rw [hread]
  exact (takes_parts hleg t.content h).map

/-! ### Comments -/

theorem parts_addModifiers (tags : List String) (m : Comment) :
    (tags.foldl Comment.addModifier m).parts = m.parts := by
  induction tags generalizing m with
  | nil => rfl
  | cons tag rest ih =>
    rw [List.foldl_cons, ih, Comment.addModifier]
    split <;> rfl

theorem takes_comment (hleg : c.Legible) (m : Comment)
    (h : c.Listed clean m.parts) :
    Takes (c.site clean) (Reader.comment (c.commentFields m)) (c.comment m)
      (∀ p ∈ (c.comment m).parts, p.Still) := by
  have hsummary : (c.commentFields m).value? "summary" = some (c.writer.parts m.summary) := by
    simp [commentFields]
  have htags : (c.commentFields m).objects "blockTags" = m.blockTags.map c.blockTagFields :=
    (congrArg _ (Fields.items_of_listField (by simp [commentFields]))).trans
      (Json.filterMap_asObject? c.blockTag_written m.blockTags)
  have hmodifiers : ((c.commentFields m).items "modifierTags").filterMap Json.asString? =
      m.modifierTags :=
    (congrArg _ (Fields.items_of_listField (by simp [commentFields]))).trans
      (Json.filterMap_asString? m.modifierTags)
  have hlabel : (c.commentFields m).text? "label" = m.label := by
    simp [commentFields, Fields.text?]
  have hcontent : ∀ t ∈ m.blockTags, c.Listed clean t.content := fun t ht =>
    h.mono fun p hp => List.mem_append_right _ (List.mem_flatMap.mpr ⟨t, ht, hp⟩)
  simp only [Reader.comment, hsummary, htags, hmodifiers, hlabel]
  refine Takes.imp (Takes.bind (takes_parts hleg m.summary
      (h.mono fun p hp => List.mem_append_left _ hp))
    (Takes.bind (Takes.collect fun t ht => takes_blockTag hleg t (hcontent t ht))
      (.pure _ trivial))) fun hstill p hp => ?_
  rw [comment, parts_addModifiers] at hp
  rcases List.mem_append.mp hp with hp | hp
  · exact hstill.1 p hp
  · obtain ⟨t, ht, hpt⟩ := List.mem_flatMap.mp hp
    obtain ⟨t', ht', rfl⟩ := List.mem_map.mp ht
    exact hstill.2.1 t' ht' p hpt

/-! ### Groupings -/

theorem words_liveIds (hleg : c.Legible) (ids : List ReflectionId) :
    (c.writer.liveIds ids).filterMap Json.asWord? = c.live ids := by
  have hall : ∀ id ∈ c.live ids, Json.asWord? (.ofNat id) = some id := fun id hid => by
    rw [Json.asWord?_ofNat, if_pos (lt_wordBound hleg (List.mem_filter.mp hid).2)]
  change ((c.live ids).map Json.ofNat).filterMap Json.asWord? = c.live ids
  revert hall
  induction c.live ids with
  | nil => exact fun _ => rfl
  | cons id rest ih =>
    intro hall
    rw [List.map_cons, List.filterMap_cons, hall id (List.mem_cons_self ..),
      ih fun x hx => hall x (List.mem_cons_of_mem id hx)]

theorem takes_category (hleg : c.Legible) (k : Category)
    (h : c.Listed clean (k.description.getD [])) :
    Takes (c.site clean) (Reader.category (c.categoryFields k)) (some (c.category k)) True := by
  have htitle : (c.categoryFields k).text "title" = k.title := by
    simp [categoryFields, Fields.text, Fields.text?]
  have hchildren : (c.categoryFields k).words "children" = c.live k.children :=
    (congrArg _ (Fields.items_of_listField (by simp [categoryFields]))).trans
      (words_liveIds hleg k.children)
  have hdescription := takes_parts? hleg (c.categoryFields k) "description" k.description
    (by simp [categoryFields]) h
  simp only [Reader.category, htitle, hchildren]
  exact Takes.imp (Takes.bind hdescription (.pure _ trivial)) fun _ => trivial

theorem takes_categories? (hleg : c.Legible) (fields : Fields) (ks : List Category)
    (hkey : fields.value? "categories" =
      if ks.map c.writer.category = [] then none else some (.arr (ks.map c.writer.category)))
    (h : ∀ k ∈ ks, c.Listed clean (k.description.getD [])) :
    Takes (c.site clean) (Reader.categories? fields)
      (if ks.isEmpty then none else some (ks.map c.category)) True := by
  have hobjects : fields.objects "categories" = ks.map c.categoryFields :=
    (congrArg _ (Fields.items_of_listField hkey)).trans
      (Json.filterMap_asObject? c.category_written ks)
  rw [Reader.categories?, hobjects, Fields.has, hkey]
  match ks with
  | [] => exact .pure _ trivial
  | k :: rest =>
    exact Takes.imp (Takes.bind (Takes.collect fun x hx => takes_category hleg x (h x hx))
      (.pure _ trivial)) fun _ => trivial

theorem takes_group (hleg : c.Legible) (g : Group)
    (h : c.Listed clean (g.description.getD []))
    (hcategories : ∀ k ∈ g.categories.getD [], c.Listed clean (k.description.getD [])) :
    Takes (c.site clean) (Reader.group (c.groupFields g)) (some (c.group g)) True := by
  have htitle : (c.groupFields g).text "title" = g.title := by
    simp [groupFields, Fields.text, Fields.text?]
  have hchildren : (c.groupFields g).words "children" = c.live g.children :=
    (congrArg _ (Fields.items_of_listField (by simp [groupFields]))).trans
      (words_liveIds hleg g.children)
  have hdescription := takes_parts? hleg (c.groupFields g) "description" g.description
    (by simp [groupFields]) h
  have hcats := takes_categories? hleg (c.groupFields g) (g.categories.getD [])
    (by simp [groupFields]) hcategories
  simp only [Reader.group, htitle, hchildren]
  exact Takes.imp (Takes.bind hdescription (Takes.bind hcats (.pure _ trivial))) fun _ => trivial

theorem takes_groups? (hleg : c.Legible) (fields : Fields) (gs : List Group)
    (hkey : fields.value? "groups" =
      if gs.map c.writer.group = [] then none else some (.arr (gs.map c.writer.group)))
    (h : ∀ g ∈ gs, c.Listed clean (g.description.getD []) ∧
      ∀ k ∈ g.categories.getD [], c.Listed clean (k.description.getD [])) :
    Takes (c.site clean) (Reader.groups? fields)
      (if gs.isEmpty then none else some (gs.map c.group)) True := by
  have hobjects : fields.objects "groups" = gs.map c.groupFields :=
    (congrArg _ (Fields.items_of_listField hkey)).trans (Json.filterMap_asObject? c.group_written gs)
  rw [Reader.groups?, hobjects, Fields.has, hkey]
  match gs with
  | [] => exact .pure _ trivial
  | g :: rest =>
    exact Takes.imp (Takes.bind (Takes.collect fun x hx =>
      takes_group hleg x (h x hx).1 (h x hx).2) (.pure _ trivial)) fun _ => trivial

/-! ### Sources -/

theorem source_read (s : Source) : Reader.source c.root (sourceFields s) = s.reread c.root := by
  have hword : ∀ n : Nat, ((Json.ofNat n).asWord?).getD 0 = if n < Json.wordBound then n else 0 :=
    fun n => by rw [Json.asWord?_ofNat]; split <;> rfl
  simp [Reader.source, sourceFields, Source.reread, Fields.text, Fields.text?, Fields.word?, hword]

theorem takes_sources (fields : Fields) (ss : List Source)
    (hkey : fields.value? "sources" =
      if ss.map c.writer.source = [] then none else some (.arr (ss.map c.writer.source))) :
    Takes (c.site clean) (Reader.sources fields) (c.sources ss) True := by
  have hobjects : fields.objects "sources" = ss.map sourceFields :=
    (congrArg _ (Fields.items_of_listField hkey)).trans
      (Json.filterMap_asObject? c.source_written ss)
  rw [Reader.sources, hobjects]
  refine .ask ⟨0, fun v hroot _ n base r => ?_, fun _ => trivial⟩
  have hread : (ss.map sourceFields).map (Reader.source v.root) = c.sources ss := by
    rw [List.map_map, sources]
    refine List.map_congr_left fun s _ => ?_
    rw [Function.comp_apply, hroot]
    exact source_read s
  rw [hread]
  exact Reads.pure _

end Copying

end DocTree
