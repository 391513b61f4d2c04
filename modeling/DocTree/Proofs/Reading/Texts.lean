import DocTree.Proofs.Reading.Gathers

/-!
Reading any text: links, parts, comments, groupings and sources. Whatever stands in the object, a value
is read, and all that it points at it points at by old numbers.
-/

namespace DocTree.Reader

variable {e : Site}

theorem aims_eq_flatMap (ps : List Part) : Part.aims ps = ps.flatMap fun p => p.aim?.toList :=
  filterMap_eq_flatMap Part.aim? ps

theorem exists_symbol? (root : String) (fields : Fields) :
    ∃ s, ∀ v : Revival, v.root = root → v.symbol? fields = s := by
  refine ⟨(Revival.start (.ofName "") root).symbol? fields, ?_⟩
  intro v hv
  rw [Revival.symbol?, Revival.symbol?, hv]
  rfl

/-! ### Links and parts -/

theorem quotes_linkTarget (value : Option Json) : ∃ target : Option LinkTarget,
    Quotes e (fun _ => linkTarget value) (fun μ => target.map μ.link)
      (target.bind LinkTarget.aim?).toList := by
  match value with
  | some (.num (.int (.ofNat n))) =>
    by_cases hn : n < Json.wordBound
    · refine ⟨some (.pending n), ?_⟩
      simp only [linkTarget, if_pos hn]
      exact (Quotes.bump n).give fun _ => rfl
    · refine ⟨none, ?_⟩
      simp only [linkTarget, if_neg hn]
      exact .pure _
  | some (.obj symbol) =>
    obtain ⟨s, hs⟩ := exists_symbol? e.root symbol
    have haims : ((s.map LinkTarget.symbol).bind LinkTarget.aim?).toList = [] := by cases s <;> rfl
    refine ⟨s.map .symbol, haims ▸ Quotes.ask ?_⟩
    intro μ v hroot _ n base r
    have hmove : (s.map LinkTarget.symbol).map μ.link = s.map LinkTarget.symbol := by
      cases s <;> rfl
    rw [hs v hroot, hmove]
    exact Reads.pure _
  | some (.str address) => exact ⟨some (.url address), .pure _⟩
  | none | some .null | some (.bool _) | some (.num (.float _)) | some (.num (.int (.negSucc _)))
  | some (.arr _) => exact ⟨none, .pure _⟩

theorem quotes_linkedFile (he : ¬ e.clean) (old : Option Nat) : ∃ file : Option FileId,
    Quotes e (fun _ => linkedFile old) (fun μ => file.map μ.file) [] := by
  cases old with
  | none => exact ⟨none, .pure _⟩
  | some old =>
    refine ⟨e.files.lookup old, Quotes.ask ?_⟩
    intro μ v _ hfiles n base r
    have hlook : v.fileId? old = (e.files.lookup old).map μ.file := by
      rw [Revival.fileId?, hfiles]
      exact μ.lookup_map_file e.files old
    rw [hlook]
    by_cases hnone : ((e.files.lookup old).map μ.file).isNone = true
    · simp only [if_pos hnone]
      have hreport : Reads (μ.site e) n base (ReadM.report (.missingFile old)) r () r .none :=
        Reads.report _ he rfl
      exact hreport.bind (f := fun _ => Pure.pure _) rfl (Reads.pure _)
    · simp only [if_neg hnone]
      exact Reads.pure _

theorem quotes_part (he : ¬ e.clean) (fields : Fields) : ∃ p : Option Part,
    Quotes e (fun _ => part fields) (fun μ => p.map μ.part)
      (p.toList.flatMap fun p => p.aim?.toList) := by
  unfold part
  split
  · exact ⟨some (.text (fields.text "text")), .pure _⟩
  · exact ⟨some (.code (fields.text "text")), .pure _⟩
  · obtain ⟨target, htarget⟩ := quotes_linkTarget (e := e) (fields.value? "target")
    refine ⟨some (.inlineTag (fields.text "tag") (fields.text "text") target
      (fields.text? "tsLinkText")), ?_⟩
    refine Quotes.mono (htarget.give fun μ => rfl) ?_
    simp [Part.aim?, Part.target?]
  · obtain ⟨file, hfile⟩ := quotes_linkedFile he (fields.word? "target")
    exact ⟨some (.relativeLink (fields.text "text") file (fields.text? "targetAnchor")),
      hfile.give fun μ => rfl⟩
  · exact ⟨none, .pure _⟩

theorem quotes_parts (he : ¬ e.clean) (value : Option Json) : ∃ ps : List Part,
    Quotes e (fun _ => parts value) (fun μ => ps.map μ.part) (Part.aims ps) := by
  obtain ⟨ps, hps⟩ := Quotes.collect (e := e)
    (((value.bind (·.asArray?)).getD []).filterMap (·.asObject?)) fun x _ => quotes_part he x
  exact ⟨ps, aims_eq_flatMap ps ▸ hps⟩

theorem quotes_parts? (he : ¬ e.clean) (fields : Fields) (key : String) : ∃ ps : Option (List Part),
    Quotes e (fun _ => parts? fields key) (fun μ => ps.map (·.map μ.part))
      (Part.aims (ps.getD [])) := by
  unfold parts?
  split
  · exact ⟨none, .pure _⟩
  · next value _ =>
    obtain ⟨ps, hps⟩ := quotes_parts he (some value)
    exact ⟨some ps, hps.give fun _ => rfl⟩

/-! ### Comments -/

theorem quotes_blockTag (he : ¬ e.clean) (fields : Fields) : ∃ t : Option BlockTag,
    Quotes e (fun _ => blockTag fields)
      (fun μ => t.map fun t => { t with content := t.content.map μ.part })
      (t.toList.flatMap fun t => Part.aims t.content) := by
  obtain ⟨ps, hps⟩ := quotes_parts he (fields.value? "content")
  refine ⟨some ⟨fields.text "tag", fields.text? "name", ps⟩, ?_⟩
  exact Quotes.mono (hps.give fun _ => rfl) (by simp)

theorem mapParts_foldl_addModifier (f : Part → Part) (tags : List String) (m : Comment) :
    (tags.foldl Comment.addModifier m).mapParts f =
      tags.foldl Comment.addModifier (m.mapParts f) := by
  induction tags generalizing m with
  | nil => rfl
  | cons tag rest ih =>
    have hstep : (m.addModifier tag).mapParts f = (m.mapParts f).addModifier tag := by
      rw [Comment.addModifier, Comment.addModifier]
      have hsame : (m.mapParts f).hasModifier tag = m.hasModifier tag := rfl
      rw [hsame]
      split <;> rfl
    rw [List.foldl_cons, List.foldl_cons, ih, hstep]

theorem parts_foldl_addModifier (tags : List String) (m : Comment) :
    (tags.foldl Comment.addModifier m).parts = m.parts := by
  induction tags generalizing m with
  | nil => rfl
  | cons tag rest ih =>
    rw [List.foldl_cons, ih, Comment.addModifier]
    split <;> rfl

theorem quotes_comment (he : ¬ e.clean) (fields : Fields) : ∃ m : Comment,
    Quotes e (fun _ => comment fields) (fun μ => μ.comment m) (Part.aims m.parts) := by
  obtain ⟨ps, hps⟩ := quotes_parts he (fields.value? "summary")
  obtain ⟨tags, htags⟩ := Quotes.collect (e := e) (fields.objects "blockTags")
    fun x _ => quotes_blockTag he x
  let modifiers := (fields.items "modifierTags").filterMap (·.asString?)
  refine ⟨modifiers.foldl Comment.addModifier ⟨ps, tags, [], fields.text? "label"⟩, ?_⟩
  refine Quotes.mono (hps.bind (htags.give fun μ => ?_)) ?_
  · exact (mapParts_foldl_addModifier μ.part modifiers ⟨ps, tags, [], fields.text? "label"⟩).symm
  · rw [parts_foldl_addModifier]
    simp [Comment.parts, Part.aims, List.filterMap_flatMap]

/-! ### Groupings -/

theorem quotes_category (he : ¬ e.clean) (fields : Fields) : ∃ k : Option Category,
    Quotes e (fun _ => category fields) (fun μ => k.map μ.draftCategory)
      (k.toList.flatMap Category.aims) := by
  obtain ⟨ps, hps⟩ := quotes_parts? he fields "description"
  refine ⟨some ⟨fields.text "title", ps, fields.words "children"⟩, ?_⟩
  exact Quotes.mono (hps.give fun _ => rfl) (by simp [Category.aims])

theorem quotes_categories? (he : ¬ e.clean) (fields : Fields) : ∃ ks : Option (List Category),
    Quotes e (fun _ => categories? fields) (fun μ => ks.map (·.map μ.draftCategory))
      ((ks.getD []).flatMap Category.aims) := by
  unfold categories?
  split
  · obtain ⟨ks, hks⟩ := Quotes.collect (e := e) (fields.objects "categories")
      fun x _ => quotes_category he x
    exact ⟨some ks, hks.give fun _ => rfl⟩
  · exact ⟨none, .pure _⟩

theorem quotes_group (he : ¬ e.clean) (fields : Fields) : ∃ g : Option Group,
    Quotes e (fun _ => group fields) (fun μ => g.map μ.draftGroup) (g.toList.flatMap Group.aims) := by
  obtain ⟨ps, hps⟩ := quotes_parts? he fields "description"
  obtain ⟨ks, hks⟩ := quotes_categories? he fields
  refine ⟨some ⟨fields.text "title", ps, fields.words "children", ks⟩, ?_⟩
  exact Quotes.mono (hps.bind (hks.give fun _ => rfl)) (by simp [Group.aims])

theorem quotes_groups? (he : ¬ e.clean) (fields : Fields) : ∃ gs : Option (List Group),
    Quotes e (fun _ => groups? fields) (fun μ => gs.map (·.map μ.draftGroup))
      ((gs.getD []).flatMap Group.aims) := by
  unfold groups?
  split
  · obtain ⟨gs, hgs⟩ := Quotes.collect (e := e) (fields.objects "groups")
      fun x _ => quotes_group he x
    exact ⟨some gs, hgs.give fun _ => rfl⟩
  · exact ⟨none, .pure _⟩

/-! ### Sources -/

theorem quotes_sources (fields : Fields) : ∃ ss : List Source,
    Quotes e (fun _ => sources fields) (fun _ => ss) [] := by
  refine ⟨(fields.objects "sources").map (source e.root), Quotes.ask ?_⟩
  intro μ v hroot _ n base r
  rw [hroot]
  exact Reads.pure _

end DocTree.Reader
