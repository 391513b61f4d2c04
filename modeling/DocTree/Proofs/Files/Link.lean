import DocTree.Proofs.Files.Numbering

/-!
Links with anchors. A link is resolved as a whole, with its anchor, and only then cut at the first `#`. So
the anchor is what the link has behind its `#` just when no directory on the way has a `#` in its name and
cleaning leaves the anchor as it is; then the file is the one that the link leads to without the anchor.
-/

namespace DocTree.FileTable

variable {t : FileTable} {source link anchor text : String} {b : List Char}

/-- The path that a link in a file stands for. -/
def resolved (source link : String) : Path := Path.resolve (Path.ofText source).directory link

/-- What stands before a `#` that is set behind a link, when both are resolved together. -/
def ahead (source link : String) : String :=
  String.ofList (Path.beforeHash (Path.standing (Path.ofText source).directory link))

/-! ### Anchors of texts -/

theorem link_eq_iff {l : Link} {file : FileId} {a : Option String} :
    l = ⟨file, a⟩ ↔ l.file = file ∧ l.anchor = a := by
  obtain ⟨f, b⟩ := l
  rw [Link.mk.injEq]

theorem anchor_register (t : FileTable) (text : String) :
    (t.register text).2.anchor = (splitAnchor text).2 := by
  simp only [register]
  split <;> rfl

theorem splitAnchor_of_not_mem (h : '#' ∉ text.toList) : splitAnchor text = (text, none) := by
  rw [splitAnchor, Text.cutFirst_eq_none.mpr h]

theorem splitAnchor_of_append (hb : '#' ∉ b) (h : text.toList = b ++ '#' :: anchor.toList) :
    splitAnchor text = (String.ofList b, some anchor) := by
  rw [splitAnchor, h, Text.cutFirst_append hb]
  simp only [String.ofList_toList]

theorem exists_of_splitAnchor (h : (splitAnchor text).2 = some anchor) :
    ∃ b, '#' ∉ b ∧ text.toList = b ++ '#' :: anchor.toList := by
  rw [splitAnchor] at h
  split at h
  · next before behind hcut =>
    obtain rfl := Option.some.inj h
    exact ⟨before, Text.not_mem_of_cutFirst hcut, by rw [String.toList_ofList, Text.eq_of_cutFirst hcut]⟩
  · cases h

theorem splitAnchor_eq_none : (splitAnchor text).2 = none ↔ '#' ∉ text.toList := by
  constructor
  · intro h hmem
    cases hcut : Text.cutFirst '#' text.toList with
    | none => exact Text.cutFirst_eq_none.mp hcut hmem
    | some cut =>
      rw [splitAnchor, hcut] at h
      cases h
  · exact fun h => congrArg Prod.snd (splitAnchor_of_not_mem h)

theorem pathOf_of_splitAnchor {path : String} {a : Option String} (h : splitAnchor text = (path, a)) :
    pathOf text = .ofText path := by
  rw [← named_eq_pathOf, named, h]

/-! ### Links that are resolved -/

/-- A link is resolved to a text with its anchor behind the first `#` just when there is no `#` ahead and
the anchor stays as it is; what stands ahead is the path then. -/
theorem splitAnchor_resolved (source link anchor : String) :
    ((splitAnchor (resolved source (link ++ "#" ++ anchor)).text).2 = some anchor ↔
      '#' ∉ (ahead source link).toList ∧ Path.Stays anchor.toList) ∧
    ('#' ∉ (ahead source link).toList → Path.Stays anchor.toList →
      splitAnchor (resolved source (link ++ "#" ++ anchor)).text = (ahead source link, some anchor)) := by
  have hclear := Path.standing_clear (Path.ofText source).directory link
  have htext : (resolved source (link ++ "#" ++ anchor)).text.toList =
      Path.cleaned (Path.standing (Path.ofText source).directory link ++
        '#' :: Path.slashed anchor.toList) := by
    rw [resolved, Path.toList_resolve, Path.standing_hash]
  -- An anchor that stays has no backslash, so it is cleaned as it stands.
  have hwhole (hstays : Path.Stays anchor.toList) :
      (resolved source (link ++ "#" ++ anchor)).text.toList =
        (ahead source link).toList ++ '#' :: anchor.toList := by
    rw [htext, Path.slashed_of_not_mem hstays.1, Path.cleaned_append_hash hclear hstays, ahead,
      String.toList_ofList]
  have hsplit (hahead : '#' ∉ (ahead source link).toList) (hstays : Path.Stays anchor.toList) :
      splitAnchor (resolved source (link ++ "#" ++ anchor)).text = (ahead source link, some anchor) := by
    rw [splitAnchor_of_append hahead (hwhole hstays), String.ofList_toList]
  refine ⟨⟨fun h => ?_, fun ⟨hahead, hstays⟩ => congrArg Prod.snd (hsplit hahead hstays)⟩, hsplit⟩
  obtain ⟨b, hb, heq⟩ := exists_of_splitAnchor h
  have hslashes : '\\' ∉ Path.standing (Path.ofText source).directory link ++
      '#' :: Path.slashed anchor.toList := by
    simpa using ⟨hclear, Path.not_mem_slashed anchor.toList⟩
  have hstays : Path.Stays anchor.toList := Path.stays_of_cleaned hslashes (htext.symm.trans heq)
  exact ⟨List.append_cancel_right (heq.symm.trans (hwhole hstays)) ▸ hb, hstays⟩

/-- A link is resolved behind a root if the file has one, or the link itself. -/
theorem isSome_root?_standing (h : Path.Anchored source ∨ Path.Anchored link) :
    (Path.root? (Path.standing (Path.ofText source).directory link)).isSome = true := by
  rw [Path.standing]
  split
  · next hlink => exact hlink
  · next hlink =>
    obtain ⟨R, hsource⟩ := (h.resolve_right hlink).cleaned
    rw [(Path.root?_append hsource.anchored_directory _).1]
    exact hsource.anchored_directory

/-- Behind a root the path that a link stands for stays as it is when it is cleaned again, and so it is
what stands ahead of the anchor. -/
theorem ofText_resolved (h : Path.Anchored source ∨ Path.Anchored link) :
    Path.ofText (resolved source link).text = resolved source link ∧
      Path.ofText (ahead source link) = resolved source link := by
  have hroot := isSome_root?_standing h
  have hclear := Path.standing_clear (Path.ofText source).directory link
  have heq : resolved source link =
      Path.ofText (String.ofList (Path.standing (Path.ofText source).directory link)) :=
    Path.resolve_eq _ _
  constructor
  · have hanchored : Path.Anchored (String.ofList (Path.standing (Path.ofText source).directory link)) := by
      rw [Path.Anchored, String.toList_ofList, Path.slashed_of_not_mem hclear]
      exact hroot
    obtain ⟨R, hcleaned⟩ := hanchored.cleaned
    rw [heq, hcleaned.ofText]
  · rw [heq, Path.ofText, Path.ofText, ahead, String.toList_ofList, String.toList_ofList,
      Path.cleaned_beforeHash hclear (.inl hroot)]

/-- A `#` comes from the file or from the link. -/
theorem hash_not_mem_resolved (hsource : '#' ∉ source.toList) (hlink : '#' ∉ link.toList) :
    '#' ∉ (resolved source link).text.toList ∧ '#' ∉ (ahead source link).toList := by
  have hdirectory : '#' ∉ (Path.ofText source).directory.toList := by
    intro h
    rw [Path.directory] at h
    split at h
    · exact absurd h (by decide)
    · next before behind _ hcut =>
      refine hsource (Path.hash_mem_of_cleaned ?_)
      rw [← Path.toList_ofText, Text.eq_of_cutLast hcut]
      exact List.mem_append_left _ (by rwa [String.toList_ofList] at h)
    · exact absurd h (by decide)
  have hstanding : '#' ∉ Path.standing (Path.ofText source).directory link := by
    rw [Path.standing]
    split
    · exact fun h => hlink (Path.hash_mem_of_slashed h)
    · intro h
      rcases List.mem_append.mp h with h | h
      · exact hdirectory (Path.hash_mem_of_slashed h)
      · exact hlink (Path.hash_mem_of_slashed ((List.mem_cons.mp h).resolve_left (by decide)))
  constructor
  · rw [resolved, Path.toList_resolve]
    exact fun h => hstanding (Path.hash_mem_of_cleaned h)
  · rw [ahead, String.toList_ofList]
    exact fun h => hstanding (Path.hash_mem_of_beforeHash (Path.standing_clear _ _) h)

/-! ### Links that are registered -/

/-- Whatever the files are, a link is registered without an anchor and under the path that it stands for just
when this path has no `#` and stays as it is when it is cleaned again. At any later time the link with an
anchor gets the same file and this anchor just when there is no `#` ahead, the anchor stays as it is, and
what stands ahead is that file. Two links share a file just when what stands before the first `#` of their
paths does. Without a `#` in the file and in the link there is none ahead or in the path, and behind a root
both are the path that the link stands for. -/
theorem registerLink_anchor (t : FileTable) (source link : String) (more : List Request) :
    let first := t.registerLink source link
    let later := first.1.after more
    (first.2.anchor = none ∧ first.1.path? first.2.file = some (resolved source link) ↔
      '#' ∉ (resolved source link).text.toList ∧
        Path.ofText (resolved source link).text = resolved source link) ∧
    (∀ anchor, (later.registerLink source (link ++ "#" ++ anchor)).2 = ⟨first.2.file, some anchor⟩ ↔
      '#' ∉ (ahead source link).toList ∧ Path.Stays anchor.toList ∧
        Path.ofText (ahead source link) = pathOf (resolved source link).text) ∧
    (∀ source' link', (later.registerLink source' link').2.file = first.2.file ↔
      pathOf (resolved source' link').text = pathOf (resolved source link).text) ∧
    ('#' ∉ source.toList → '#' ∉ link.toList →
      '#' ∉ (resolved source link).text.toList ∧ '#' ∉ (ahead source link).toList) ∧
    (Path.Anchored source ∨ Path.Anchored link →
      Path.ofText (resolved source link).text = resolved source link ∧
        Path.ofText (ahead source link) = resolved source link) := by
  intro first later
  have hfile (source' link' : String) : (later.registerLink source' link').2.file = first.2.file ↔
      pathOf (resolved source' link').text = pathOf (resolved source link).text := by
    have hanswer := answer?_eq_iff (show Command.text? (.registerLink source link) = _ from rfl)
      (show Command.text? (.registerLink source' link') = _ from rfl) t more
    rwa [answer?, answer?, Option.some.injEq] at hanswer
  have hpath : first.1.path? first.2.file = some (pathOf (resolved source link).text) :=
    named_eq_pathOf _ ▸ path?_of_find? (find?_register t (resolved source link).text)
  have hanchor : first.2.anchor = none ↔ '#' ∉ (resolved source link).text.toList :=
    (anchor_register t _) ▸ splitAnchor_eq_none
  refine ⟨?_, fun anchor => ?_, hfile, hash_not_mem_resolved, ofText_resolved⟩
  · rw [hanchor, hpath, Option.some.injEq]
    refine and_congr_right fun h => ?_
    rw [pathOf_of_splitAnchor (splitAnchor_of_not_mem h)]
  · obtain ⟨hiff, hsplit⟩ := splitAnchor_resolved source link anchor
    have hsame : (later.registerLink source (link ++ "#" ++ anchor)).2 = ⟨first.2.file, some anchor⟩ ↔
        (later.registerLink source (link ++ "#" ++ anchor)).2.file = first.2.file ∧
          (splitAnchor (resolved source (link ++ "#" ++ anchor)).text).2 = some anchor := by
      rw [← anchor_register later]
      exact link_eq_iff
    rw [hsame, hfile, hiff, and_comm, and_assoc]
    refine and_congr_right fun hahead => and_congr_right fun hstays => ?_
    rw [pathOf_of_splitAnchor (hsplit hahead hstays)]

theorem registerLink_anchor_above :
    (empty.registerLink "/docs/sub/index.md" "../guide.md").2 = ⟨1, none⟩ ∧
    ∀ more anchor, Path.Stays anchor.toList →
      (((empty.registerLink "/docs/sub/index.md" "../guide.md").1.after more).registerLink
        "/docs/sub/index.md" ("../guide.md" ++ "#" ++ anchor)).2 = ⟨1, some anchor⟩ := by
  have hplain : (empty.registerLink "/docs/sub/index.md" "../guide.md").2 = ⟨1, none⟩ := by
    decide +kernel
  refine ⟨hplain, fun more anchor hstays => ?_⟩
  obtain ⟨-, hanchor, -, hclear, -⟩ := registerLink_anchor empty "/docs/sub/index.md" "../guide.md" more
  have hfirst := (hanchor anchor).mpr ⟨(hclear (by decide) (by decide)).2, hstays, by decide +kernel⟩
  rwa [hplain] at hfirst

/-- The name of a directory with a `#` in it is cut, and what is behind it is taken for an anchor. -/
theorem not_forall_registerLink : ¬ ∀ (t : FileTable) (source link anchor : String), '#' ∉ link.toList →
    ((t.registerLink source link).2.anchor = none ∧
      (t.registerLink source link).1.path? (t.registerLink source link).2.file =
        some (resolved source link)) ∧
    (t.registerLink source (link ++ "#" ++ anchor)).2 =
      ⟨(t.registerLink source link).2.file, some anchor⟩ := by
  intro h
  have hcut := (h empty "/docs/c#/index.md" "logo.png" "top" (by decide)).1.1
  have hanchor : (empty.registerLink "/docs/c#/index.md" "logo.png").2.anchor = some "/logo.png" := by
    decide +kernel
  exact Option.some_ne_none _ (hanchor.symm.trans hcut)

end DocTree.FileTable
