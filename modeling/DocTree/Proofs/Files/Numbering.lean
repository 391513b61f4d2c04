import DocTree.Proofs.Files.Ownership
import DocTree.Proofs.Files.Shape

/-!
Numbers and paths of files over whole runs. Files are numbered in the order in which they are
registered, and no operation takes a number or a path away again. As long as the paths that are handed
in are rooted, what is kept is cleaned to the end and has no anchor, so a path that is looked up as text
is found under its own number: numbers and paths determine one another.
-/

namespace DocTree.FileTable

/-- Anything that is asked of the files of a project: a change, or names, which are kept. -/
inductive Request where
  | change (c : Command)
  | name (file : FileId)
  | outputNames

def serve (t : FileTable) : Request → FileTable
  | .change c => t.perform c
  | .name file => (t.name file).1
  | .outputNames => t.outputNames.1

/-- The files after one request after the other. -/
def after (t : FileTable) (rs : List Request) : FileTable := rs.foldl serve t

/-- The paths that are handed in are rooted. A link that is handed in may be any text. -/
def Request.Absolute : Request → Prop
  | .change (.register text) => Path.Anchored text
  | .change (.registerLink source _) => Path.Anchored source
  | .change (.registerOwned text _) => Path.Anchored text
  | _ => True

/-- The text that a command registers, if it registers one. -/
def Command.text? : Command → Option String
  | .register text => some text
  | .registerLink source link => some (Path.resolve (Path.ofText source).directory link).text
  | .registerOwned text _ => some text
  | .setOwner _ _ | .disown _ => none

/-- The number with which a command answers, if it registers a text. -/
def answer? (t : FileTable) : Command → Option FileId
  | .register text => some (t.register text).2.file
  | .registerLink source link => some (t.registerLink source link).2.file
  | .registerOwned text id => some (t.registerOwned text id).2
  | .setOwner _ _ | .disown _ => none

/-- The path that a text names: what stands before its first `#`, cleaned. -/
def pathOf (text : String) : Path := .ofText (String.ofList (text.toList.takeWhile (· ≠ '#')))

variable {t t' : FileTable} {file other : FileId} {path : Path} {text : String} {c : Command}
  {rs : List Request}

/-! ### What names leave as it is -/

/-- One file named, and its name entered with its path. -/
def nameNext (state : FileTable × List (String × Path)) (entry : FileId × Path) :
    FileTable × List (String × Path) :=
  ((state.1.name entry.1).1,
    (state.1.name entry.1).2.elim state.2 fun name => Assoc.insert name entry.2 state.2)

/-- The files that no reflection owns, in the order of their numbers. -/
def unowned (t : FileTable) : List (FileId × Path) :=
  t.entries.filter fun entry => !Assoc.contains entry.1 t.owners

theorem outputNames_eq (t : FileTable) : t.outputNames = t.unowned.foldl nameNext (t, []) := rfl

/-- One table has the files and the owners of the other. -/
structure SameFiles (t t' : FileTable) : Prop where
  paths : t'.paths = t.paths
  owners : t'.owners = t.owners
  owned : t'.owned = t.owned

theorem SameFiles.refl (t : FileTable) : SameFiles t t := ⟨rfl, rfl, rfl⟩

theorem SameFiles.trans {u : FileTable} (h : SameFiles t t') (h' : SameFiles t' u) : SameFiles t u :=
  ⟨h'.paths.trans h.paths, h'.owners.trans h.owners, h'.owned.trans h.owned⟩

theorem SameFiles.path? (h : SameFiles t t') (file : FileId) : t'.path? file = t.path? file := by
  rw [FileTable.path?, FileTable.path?, h.paths]

theorem SameFiles.tidy (h : SameFiles t t') (ht : t.Tidy) : t'.Tidy where
  nodup := h.paths ▸ ht.nodup
  owners file id howner := by
    rw [h.path?]
    exact ht.owners file id (h.owners ▸ howner)
  owned id path howned := by
    rw [ownedPath?, h.owned] at howned
    exact h.paths ▸ ht.owned id path howned

theorem sameFiles_name (t : FileTable) (file : FileId) : SameFiles t (t.name file).1 := by
  rw [name]
  split
  · exact .refl t
  · exact .refl t
  · exact ⟨rfl, rfl, rfl⟩

/-- What every name that is asked for keeps is kept when one file after the other is named. -/
theorem foldl_nameNext_induction {P : FileTable → Prop}
    (hname : ∀ t file, P t → P (t.name file).1) (entries : List (FileId × Path))
    {state : FileTable × List (String × Path)} (h : P state.1) : P (entries.foldl nameNext state).1 := by
  induction entries generalizing state with
  | nil => exact h
  | cons entry rest ih => exact ih (hname _ _ h)

theorem outputNames_induction {P : FileTable → Prop}
    (hname : ∀ t file, P t → P (t.name file).1) (h : P t) : P t.outputNames.1 := by
  rw [outputNames_eq]
  exact foldl_nameNext_induction hname t.unowned h

theorem sameFiles_outputNames (t : FileTable) : SameFiles t t.outputNames.1 :=
  outputNames_induction (P := SameFiles t) (fun u file h => h.trans (sameFiles_name u file)) (.refl t)

/-! ### What each request does -/

theorem paths_setOwner (t : FileTable) (file : FileId) (id : ReflectionId) :
    (t.setOwner file id).paths = t.paths :=
  paths_foldl_setOwner [(file, id)] t

theorem paths_disown (t : FileTable) (id : ReflectionId) : (t.disown id).paths = t.paths := by
  rw [disown]
  split <;> rfl

/-- A command leaves the paths as they are or registers the text that it is handed. -/
theorem paths_perform (t : FileTable) (c : Command) :
    (t.perform c).paths = c.text?.elim t.paths fun text => (t.register text).1.paths := by
  cases c with
  | register text => rfl
  | registerLink source link => rfl
  | registerOwned text id => exact paths_setOwner ..
  | setOwner file id => exact paths_setOwner ..
  | disown id => exact paths_disown ..

theorem prefix_perform (t : FileTable) (c : Command) : t.paths <+: (t.perform c).paths := by
  rw [paths_perform]
  cases c.text? with
  | none => exact List.prefix_refl _
  | some text => exact prefix_register t text

/-- What every change of a run and every name that is asked for keeps is kept in the run. -/
theorem after_induction {P : FileTable → Prop}
    (hchange : ∀ t c, Request.change c ∈ rs → P t → P (t.perform c))
    (hname : ∀ t file, P t → P (t.name file).1) (h : P t) : P (t.after rs) := by
  induction rs generalizing t with
  | nil => exact h
  | cons r rs ih =>
    refine ih (fun t c hc => hchange t c (List.mem_cons_of_mem r hc)) ?_
    cases r with
    | change c => exact hchange t c List.mem_cons_self h
    | name file => exact hname t file h
    | outputNames => exact outputNames_induction hname h

theorem prefix_after (t : FileTable) (rs : List Request) : t.paths <+: (t.after rs).paths :=
  after_induction (P := fun u => t.paths <+: u.paths) (fun u c _ h => h.trans (prefix_perform u c))
    (fun u file h => (sameFiles_name u file).paths ▸ h) (List.prefix_refl _)

theorem Tidy.after (h : t.Tidy) (rs : List Request) : (t.after rs).Tidy :=
  after_induction (fun _ c _ h => h.perform c) (fun t file h => (sameFiles_name t file).tidy h) h

/-! ### Paths that are cleaned to the end -/

theorem named_eq_pathOf (text : String) : named text = pathOf text := by
  have hcut : ∀ s : List Char, ((Text.cutFirst '#' s).elim s fun cut => cut.1) =
      s.takeWhile (· ≠ '#') := by
    intro s
    induction s with
    | nil => rfl
    | cons ch rest ih =>
      rw [Text.cutFirst, List.takeWhile_cons]
      by_cases hch : ch = '#'
      · simp [hch]
      · rw [if_neg hch, if_pos (by simpa using hch), ← ih]
        cases Text.cutFirst '#' rest <;> rfl
  rw [named, pathOf, splitAnchor, ← hcut]
  cases Text.cutFirst '#' text.toList with
  | none => exact congrArg Path.ofText String.ofList_toList.symm
  | some cut => rfl

/-- Every path is cleaned to the end behind its root, and none has an anchor. -/
def Canonical (t : FileTable) : Prop :=
  ∀ path ∈ t.paths, (∃ r S, path.Cleaned r S) ∧ '#' ∉ path.text.toList

theorem hash_not_mem_named (text : String) : '#' ∉ (named text).text.toList := by
  intro h
  rw [named, Path.toList_ofText, splitAnchor] at h
  have hmem := Path.hash_mem_of_cleaned h
  cases hcut : Text.cutFirst '#' text.toList with
  | none =>
    rw [hcut] at hmem
    exact Text.cutFirst_eq_none.mp hcut hmem
  | some cut =>
    rw [hcut, String.toList_ofList] at hmem
    exact Text.not_mem_of_cutFirst hcut hmem

/-- What stands before the anchor of a rooted text is rooted. -/
theorem cleaned_named (h : Path.Anchored text) : ∃ r S, (named text).Cleaned r S := by
  rw [named, splitAnchor]
  cases hcut : Text.cutFirst '#' text.toList with
  | none => exact (h.cleaned).imp fun r hr => ⟨_, hr⟩
  | some cut =>
    obtain ⟨before, anchor⟩ := cut
    have hbefore : Path.Anchored (String.ofList before) := by
      rw [Path.Anchored, Text.eq_of_cutFirst hcut, Path.slashed, List.map_append] at h
      rw [Path.Anchored, String.toList_ofList, Path.slashed]
      exact (Path.root?_append_hash _ _).1 ▸ h
    exact hbefore.cleaned.imp fun r hr => ⟨_, hr⟩

theorem Canonical.register (h : t.Canonical) (htext : Path.Anchored text) :
    (t.register text).1.Canonical := by
  intro path hpath
  rcases (mem_paths_register t text).mp hpath with hpath | rfl
  · exact h path hpath
  · exact ⟨cleaned_named htext, hash_not_mem_named text⟩

theorem Canonical.of_paths (h : t.Canonical) (hpaths : t'.paths = t.paths) : t'.Canonical :=
  fun path hpath => h path (hpaths ▸ hpath)

/-- What is resolved from a file with a rooted path is rooted. -/
theorem anchored_resolve {source : String} (h : Path.Anchored source) (link : String) :
    Path.Anchored (Path.resolve (Path.ofText source).directory link).text := by
  obtain ⟨R, hsource⟩ := h.cleaned
  obtain ⟨r, S, hcleaned⟩ := hsource.anchored_directory.exists_cleaned_resolve link
  rw [Path.Anchored, Path.slashed_of_not_mem hcleaned.backslash, hcleaned.root?]
  rfl

theorem Canonical.perform (h : t.Canonical) (hc : (Request.change c).Absolute) :
    (t.perform c).Canonical := by
  cases c with
  | register text => exact h.register hc
  | registerLink source link => exact h.register (anchored_resolve hc link)
  | registerOwned text id => exact (h.register hc).of_paths (paths_setOwner ..)
  | setOwner file id => exact h.of_paths (paths_setOwner ..)
  | disown id => exact h.of_paths (paths_disown ..)

theorem Canonical.after (h : t.Canonical) (hrs : ∀ r ∈ rs, r.Absolute) : (t.after rs).Canonical :=
  after_induction (fun _ _ hc h => h.perform (hrs _ hc))
    (fun t file h => h.of_paths (sameFiles_name t file).paths) h

theorem canonical_empty : empty.Canonical := List.forall_mem_nil _

/-! ### Numbers -/

/-- The numbers of files run from the first one on without a gap. -/
theorem map_fst_entries (t : FileTable) : t.entries.map (·.1) = List.range' FileId.first t.size := by
  have hplace : t.entries.map (·.1) = (t.paths.zipIdx.map Prod.snd).map (FileId.first + ·) := by
    rw [entries, List.map_map, List.map_map]
    exact List.map_congr_left fun entry _ => Nat.add_comm entry.2 FileId.first
  rw [hplace, List.zipIdx_map_snd, size, List.map_add_range', Nat.add_zero]

theorem find?_of_paths (h : t'.paths = t.paths) (path : Path) : t'.find? path = t.find? path := by
  rw [find?, find?, h]

/-- A command that registers a text answers with the number that is found for its path from then on. -/
theorem answer?_eq (t : FileTable) (hc : c.text? = some text) :
    ∃ file, t.answer? c = some file ∧ (t.perform c).find? (pathOf text) = some file := by
  have hregister (text : String) : (t.register text).1.find? (pathOf text) =
      some (t.register text).2.file := named_eq_pathOf text ▸ find?_register t text
  cases c with
  | register text =>
    obtain rfl := Option.some.inj hc
    exact ⟨_, rfl, hregister text⟩
  | registerLink source link =>
    obtain rfl := Option.some.inj hc
    exact ⟨_, rfl, hregister _⟩
  | registerOwned text id =>
    obtain rfl := Option.some.inj hc
    exact ⟨_, rfl, (find?_of_paths (paths_setOwner ..) _).trans (hregister text)⟩
  | setOwner file id => cases hc
  | disown id => cases hc

/-- A path that is not registered gets the next number. -/
theorem answer?_of_new (hc : c.text? = some text)
    (hnew : ∀ file, t.path? file ≠ some (pathOf text)) :
    t.answer? c = some (t.size + FileId.first) ∧ (t.perform c).paths = t.paths ++ [pathOf text] := by
  obtain ⟨file, hfile, hfind⟩ := answer?_eq t hc
  have hnone : t.find? (pathOf text) = none := Option.eq_none_iff_forall_ne_some.mpr fun file hfile =>
    hnew file (path?_of_find? hfile)
  have hpaths : (t.perform c).paths = t.paths ++ [pathOf text] := by
    rw [paths_perform, hc, Option.elim_some, paths_register, named_eq_pathOf, hnone]
    rfl
  rw [find?_of_append hnone hpaths] at hfind
  exact ⟨hfile.trans hfind.symm, hpaths⟩

/-- Two registrations, whatever happens between them, get the same number just when they are of the same
path. -/
theorem answer?_eq_iff {c' : Command} {text' : String} (hc : c.text? = some text)
    (hc' : c'.text? = some text') (t : FileTable) (rs : List Request) :
    ((t.perform c).after rs).answer? c' = t.answer? c ↔ pathOf text' = pathOf text := by
  obtain ⟨file, hfile, hfind⟩ := answer?_eq t hc
  obtain ⟨file', hfile', hfind'⟩ := answer?_eq ((t.perform c).after rs) hc'
  have hlater := find?_of_prefix (prefix_perform ((t.perform c).after rs) c')
    ( find?_of_prefix (prefix_after (t.perform c) rs) hfind)
  rw [hfile, hfile', Option.some.injEq]
  constructor
  · rintro rfl
    exact Option.some.inj ((path?_of_find? hfind').symm.trans (path?_of_find? hlater))
  · intro heq
    rw [heq] at hfind'
    exact Option.some.inj (hfind'.symm.trans hlater)

/-- In every run in which the paths that are handed in are rooted, the files are numbered from the first
one on in the order of registration, number and path of a file are found from one another, no path has an
anchor, and paths stay. Two registrations get the same number just when what stands before their anchors
is cleaned to the same path, and one of a path that is not there gets the next number. -/
theorem numbering_run (rs : List Request) (hrs : ∀ r ∈ rs, r.Absolute) :
    (empty.after rs).entries.map (·.1) = List.range' FileId.first (empty.after rs).size ∧
    (∀ file path, (empty.after rs).path? file = some path →
      (empty.after rs).id? path.text = some file ∧ '#' ∉ path.text.toList ∧
        ∀ more, ((empty.after rs).after more).path? file = some path) ∧
    (∀ file text, (empty.after rs).id? text = some file →
      (empty.after rs).path? file = some (.ofText text)) ∧
    ∀ c text, c.text? = some text →
      (∀ more c' text', c'.text? = some text' →
        ((((empty.after rs).perform c).after more).answer? c' = (empty.after rs).answer? c ↔
          pathOf text' = pathOf text)) ∧
      ((∀ file, (empty.after rs).path? file ≠ some (pathOf text)) →
        (empty.after rs).answer? c = some ((empty.after rs).size + FileId.first) ∧
          ((empty.after rs).perform c).paths = (empty.after rs).paths ++ [pathOf text]) := by
  have htidy := tidy_empty.after rs
  have hcanonical := canonical_empty.after hrs
  refine ⟨map_fst_entries _, fun file path hpath => ?_, fun file text hfile => path?_of_find? hfile,
    fun c text hc => ⟨fun more c' text' hc' => answer?_eq_iff hc hc' _ more, answer?_of_new hc⟩⟩
  obtain ⟨⟨r, S, hcleaned⟩, hwhole⟩ := hcanonical path (mem_paths_of_path? hpath)
  refine ⟨?_, hwhole, fun more => path?_of_extension (prefix_after _ more) hpath⟩
  rw [id?, hcleaned.ofText]
  exact htidy.find? hpath

theorem numbering_run_linked :
    let rs : List Request := [.change (.register "/docs/./a.md#top"),
      .change (.registerLink "/docs/sub/b.md" "..\\a.md#end"),
      .change (.registerOwned "c:/x//y" 5), .name 1, .change (.disown 5), .outputNames]
    (∀ r ∈ rs, r.Absolute) ∧
    (empty.after rs).entries.map (·.1) = List.range' FileId.first (empty.after rs).size ∧
    ∀ file path, (empty.after rs).path? file = some path →
      (empty.after rs).id? path.text = some file ∧ '#' ∉ path.text.toList :=
  have habsolute : ∀ r ∈ ([.change (.register "/docs/./a.md#top"),
      .change (.registerLink "/docs/sub/b.md" "..\\a.md#end"),
      .change (.registerOwned "c:/x//y" 5), .name 1, .change (.disown 5), .outputNames] :
        List Request), r.Absolute := by
    simp only [List.forall_mem_cons, Request.Absolute, Path.Anchored]
    exact ⟨by decide, by decide, by decide, trivial, trivial, trivial, List.forall_mem_nil _⟩
  have hrun := numbering_run _ habsolute
  ⟨habsolute, hrun.1, fun file path hpath => (hrun.2.1 file path hpath).imp_right And.left⟩

end DocTree.FileTable
