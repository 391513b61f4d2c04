import DocTree.Proofs.Reading.Totality
import DocTree.Proofs.Tolerance.Deferred
import DocTree.Proofs.Tolerance.Written

/-!
What a reader does not miss. A key that is not looked up may stand anywhere in a serialized project, and
a value of the wrong type counts as absent, with one exception: a readme or a description of the wrong
type counts as an empty one, which is written.
-/

namespace DocTree

variable {b : Blur} {fields fields' : Fields} {name root : String}

/-! ### Reading into a new project -/

/-- After the first pass no reflection has groupings. -/
theorem FirstPass.ready {W : Prop} {r : Reflection} {y : Crop} {σ : Reading}
    (h : FirstPass W (.ofName name) ReflectionId.project fields root r y σ) (hσ : σ.Orderly) :
    Ready σ.revival σ.queue where
  about := h.isSome_subject?
  once := hσ.once
  bare i _ t ht := by
    rcases h.cases ht with ⟨-, rfl⟩ | ⟨hlt, hne, -⟩ | ⟨hmem, -, -⟩
    · exact .of_plain h.raw.plain
    · exact absurd (Nat.lt_one_iff.mp hlt) hne
    · exact .of_plain (h.sound.raw t hmem).plain
  graph := hσ.graph

/-- An object and what is left of it without harmless fields are read alike. -/
theorem reviveInto_leaner (h : Leaner b .reflection fields fields') (name root : String) :
    ∃ v v', Reader.reviveInto Deserializer.standard (.ofName name) ReflectionId.project fields root =
        .ok v ∧
      Reader.reviveInto Deserializer.standard (.ofName name) ReflectionId.project fields' root = .ok v' ∧
      v.blur b = v'.blur b := by
  obtain ⟨r, y, σ, hfirst, -⟩ := exists_firstPass_root False fields name root False.elim
  obtain ⟨r', y', σ', hfirst', -⟩ := exists_firstPass_root False fields' name root False.elim
  have hnear : Near b σ σ' := near_readTree h hfirst.lt rfl hfirst.read hfirst'.read
  obtain ⟨w, hw, hblur⟩ := (hfirst.ready hnear.left).carryOutAll_blur (b := b)
  obtain ⟨w', hw', hblur'⟩ := (hfirst'.ready hnear.right).carryOutAll_blur (b := b)
  have hsame : w.blur b = w'.blur b := by
    have hall := hblur []
    rw [hnear.queue, hnear.revival, hblur' []] at hall
    exact (Except.ok.inj hall).symm
  let symbols := Reader.symbolEntries σ.revival fields
  let owners := Reader.ownerEntries fields
  have hsymbols : Reader.symbolEntries σ'.revival fields' = symbols :=
    Reader.symbolEntries_leaner h hnear.revival
  have howners : Reader.ownerEntries fields' = owners := Reader.ownerEntries_leaner h
  refine ⟨owners.foldl Reader.setOwner (symbols.foldl Reader.setSymbol w),
    owners.foldl Reader.setOwner (symbols.foldl Reader.setSymbol w'), ?_, ?_, ?_⟩
  · rw [Reader.reviveInto, hfirst.read]
    exact hw _
  · rw [Reader.reviveInto, hfirst'.read, ← hsymbols, ← howners]
    exact hw' _
  · rw [← Reader.maps_blur, ← Reader.maps_blur, hsame]

/-! ### Reading a project -/

section

variable {value value' : Json} {own own' : Json}

/-- What stands under `variant`, which is what a value that is refused as no project is told by. -/
def Json.variant? : Json → Option Json
  | .obj fields => Fields.value? fields "variant"
  | _ => none

theorem Json.variant?_of_isProject {value : Json} (h : value.isProject = true) :
    value.variant? = some (.str "project") := by
  cases value with
  | obj fields =>
    have hvariant : Fields.text? fields "variant" = some "project" := of_decide_eq_true h
    obtain ⟨v, hv, hstring⟩ := Option.bind_eq_some_iff.mp hvariant
    cases v with
    | str s =>
      obtain rfl : s = "project" := Option.some.inj hstring
      exact hv
    | _ => cases hstring
  | _ => cases h

/-- An object that does not say that it is a project is refused for what it says. -/
theorem reviveWithIds_of_not_isProject (h : (Json.obj fields).isProject = false) (name : Option String)
    (root : String) : Deserializer.standard.reviveWithIds (.obj fields) name root =
      .error (.notAProject ("variant " ++ (((Json.obj fields).variant?).map Json.compact).getD "(none)")) := by
  have hfields : Reader.projectFields (.obj fields) = .error (.notAProject ("variant " ++
      (((Json.obj fields).variant?).map Json.compact).getD "(none)")) := if_neg (of_decide_eq_false h)
  rw [Deserializer.reviveWithIds, hfields]
  rfl

theorem Leaner.isProject (h : Leaner b .reflection fields fields') :
    (Json.obj fields').isProject = (Json.obj fields).isProject := by
  rw [Json.isProject, Json.isProject, h.text? rfl]

/-- A project and what is left of it without harmless fields are read alike. -/
theorem reviveWithIds_leaner (h : Leaner b .reflection fields fields')
    (hproject : (Json.obj fields).isProject = true) (name : Option String) (root : String) :
    ∃ q q' ids, Deserializer.standard.reviveWithIds (.obj fields) name root = .ok (q, ids) ∧
      Deserializer.standard.reviveWithIds (.obj fields') name root = .ok (q', ids) ∧
      q'.issues = q.issues ∧ q'.journal = q.journal ∧ q'.project.blur b = q.project.blur b := by
  have hname : Fields.text? fields' "name" = Fields.text? fields "name" := h.text? rfl
  obtain ⟨v, v', hv, hv', hsame⟩ :=
    reviveInto_leaner h ((name.or (Fields.text? fields "name")).getD "") root
  have hread := reviveWithIds_of_reviveInto hproject hv
  have hread' := reviveWithIds_of_reviveInto (h.isProject.trans hproject) (hname.symm ▸ hv')
  obtain ⟨hblurred, -, -, hids, -, -, hissues, hjournal⟩ := Revival.mk.inj hsame
  refine ⟨_, ⟨v'.project, v'.issues, v'.journal⟩, v.ids, hread, ?_, hissues.symm, hjournal.symm,
    hblurred.symm⟩
  rw [hread', hids]

/-! ### Keys that are not looked up -/

/-- The key is not looked up anywhere. -/
def Unknown (_ : Place) (key : String) (_ : Json) : Prop := key ∉ knownKeys

theorem Unknown.harmless {place : Place} {key : String} {v : Json} (h : Unknown place key v) :
    Harmless b place key v := by
  intro shape hshape
  rw [Place.shape?_eq_none h] at hshape
  cases hshape

/-- Keys that are not looked up do not matter, wherever they are inserted: the value is read as before.
Only a value that is refused for what it has under `variant` is told by what it has there. -/
theorem reviveWithIds_unknown (h : Pruned Unknown .reflection value' value) (name : Option String)
    (root : String) :
    (value'.variant? = value.variant? → Deserializer.standard.reviveWithIds value' name root =
        Deserializer.standard.reviveWithIds value name root) ∧
      (value'.variant? ≠ value.variant? → ∃ own own', value.variant? = some own ∧
        value'.variant? = some own' ∧
        Deserializer.standard.reviveWithIds value name root =
          .error (.notAProject ("variant " ++ own.compact)) ∧
        Deserializer.standard.reviveWithIds value' name root =
          .error (.notAProject ("variant " ++ own'.compact))) := by
  cases h with
  | refl => exact ⟨fun _ => rfl, fun hne => absurd rfl hne⟩
  | arr hitems => exact ⟨fun _ => rfl, fun hne => absurd rfl hne⟩
  | @obj _ f' f hfields =>
    have hleaner : Leaner .exact .reflection f' f :=
      PrunedFields.mono (fun _ _ _ => Unknown.harmless) hfields
    cases hproject : (Json.obj f').isProject with
    | true =>
      obtain ⟨q, q', ids, hq, hq', hissues, hjournal, hblur⟩ :=
        reviveWithIds_leaner hleaner hproject name root
      have hsame : q' = q := by
        rw [Project.blur_exact, Project.blur_exact] at hblur
        cases q
        cases q'
        simp_all
      have hvariant := (Json.variant?_of_isProject hproject).trans
        (Json.variant?_of_isProject (hleaner.isProject.trans hproject)).symm
      exact ⟨fun _ => by rw [hq, hq', hsame], fun hne => absurd hvariant hne⟩
    | false =>
      have hother := hleaner.isProject.trans hproject
      rw [reviveWithIds_of_not_isProject hproject, reviveWithIds_of_not_isProject hother]
      refine ⟨fun hsame => by rw [hsame], fun hne => ?_⟩
      rcases hfields.value? "variant" with ⟨hv, hv'⟩ | ⟨own', own, hv, hv', -⟩ | ⟨_, -, -, hunknown⟩
      · exact absurd (hv.trans hv'.symm) hne
      · refine ⟨own, own', hv', hv, ?_, ?_⟩
        · rw [Json.variant?, hv']
          rfl
        · rw [Json.variant?, hv]
          rfl
      · exact absurd (by decide) hunknown

/-- A project with one constant. More fields may stand in the project, in the flags of the constant and
in its type. -/
def constant (more : Fields) : Json := .obj (more ++
  [("variant", .str "project"), ("name", .str "p"), ("children", .arr [.obj
    [("id", .ofNat 1), ("name", .str "v"), ("variant", .str "declaration"), ("kind", .ofNat 32),
     ("flags", .obj (more ++ [("isConst", .bool true)])),
     ("type", .obj ([("type", .str "intrinsic"), ("name", .str "any")] ++ more))]])])

theorem reviveWithIds_unknown_constant :
    Pruned Unknown .reflection (constant [("since", .obj [("type", .null)])]) (constant []) ∧
      Deserializer.standard.reviveWithIds (constant [("since", .obj [("type", .null)])]) none "/repo" =
        Deserializer.standard.reviveWithIds (constant []) none "/repo" := by
  have hunknown : "since" ∉ knownKeys := by decide
  have hflags : PrunedFields Unknown .flags [("since", .obj [("type", .null)]), ("isConst", .bool true)]
      [("isConst", .bool true)] :=
    .drop rfl hunknown (by decide) (.refl ..)
  have htype : PrunedFields Unknown .type [("type", .str "intrinsic"), ("name", .str "any"),
      ("since", .obj [("type", .null)])] [("type", .str "intrinsic"), ("name", .str "any")] :=
    .keep (.refl ..) (.keep (.refl ..) (.drop rfl hunknown (by decide) .nil))
  have h : Pruned Unknown .reflection (constant [("since", .obj [("type", .null)])]) (constant []) :=
    .obj (.drop rfl hunknown (by decide) (.keep (.refl ..) (.keep (.refl ..) (.keep
      (.arr (.cons (.obj (.keep (.refl ..) (.keep (.refl ..) (.keep (.refl ..) (.keep (.refl ..)
        (.keep (.obj hflags) (.keep (.obj htype) .nil))))))) .nil)) .nil))))
  exact ⟨h, (reviveWithIds_unknown h none "/repo").1 rfl⟩

/-- Not every value is read as before: the message tells what stands under `variant`. -/
theorem not_forall_reviveWithIds_unknown :
    ¬ ∀ value value' : Json, Pruned Unknown .reflection value' value → ∀ name root,
      Deserializer.standard.reviveWithIds value' name root =
        Deserializer.standard.reviveWithIds value name root := by
  intro h
  have hunknown : "x" ∉ knownKeys := by decide
  have hsame := h (.obj [("variant", .obj [])]) (.obj [("variant", .obj [("x", .null)])])
    (.obj (.keep (.obj (.drop rfl hunknown (by decide) .nil)) .nil)) none "/repo"
  rw [reviveWithIds_of_not_isProject rfl, reviveWithIds_of_not_isProject rfl] at hsame
  have htext := ReviveError.notAProject.inj (Except.error.inj hsame)
  exact absurd htext (by decide)

/-! ### Values of the wrong type -/

/-- The value is not of the type that is expected of its key. -/
def IllTyped (place : Place) (key : String) (v : Json) : Prop :=
  ∃ shape, place.shape? key = some shape ∧ shape.accepts v = false

theorem IllTyped.harmless {place : Place} {key : String} {v : Json} (h : IllTyped place key v)
    (hkey : b.allows key = true) : Harmless b place key v := by
  rintro shape hshape
  obtain ⟨shape', hshape', haccepts⟩ := h
  obtain rfl : shape' = shape := Option.some.inj (hshape'.symm.trans hshape)
  exact ⟨haccepts, hkey⟩

/-- A value of the wrong type counts as absent, up to the lists that it is passed over whether they are
absent or empty. These are not written, with the exception of readmes and descriptions. -/
theorem reviveWithIds_illTyped {q : Revived} {ids : List (Nat × ReflectionId)} {name : Option String}
    (h : Pruned (fun place key v => IllTyped place key v ∧ b.allows key = true) .reflection value value')
    (hread : Deserializer.standard.reviveWithIds value name root = .ok (q, ids)) :
    ∃ q', Deserializer.standard.reviveWithIds value' name root = .ok (q', ids) ∧
      q'.issues = q.issues ∧ q'.journal = q.journal ∧ q'.project.blur b = q.project.blur b ∧
      (b.texts = false → ∀ root', (Serializer.standard.writeProject q'.project root').output =
        (Serializer.standard.writeProject q.project root').output) := by
  obtain ⟨fields, -, -, -, -, -, rfl, -⟩ := course_of_reviveWithIds hread
  cases h with
  | refl => exact ⟨q, hread, rfl, rfl, rfl, fun _ _ => rfl⟩
  | @obj _ _ fields' hfields =>
    have hleaner : Leaner b .reflection fields fields' :=
      PrunedFields.mono (fun _ _ _ hmay => hmay.1.harmless hmay.2) hfields
    have hproject : (Json.obj fields).isProject = true := by
      rw [← Bool.not_eq_false]
      intro hother
      rw [reviveWithIds_of_not_isProject hother] at hread
      cases hread
    obtain ⟨p, q', ids', hp, hq', hissues, hjournal, hblur⟩ :=
      reviveWithIds_leaner hleaner hproject name root
    obtain ⟨rfl, rfl⟩ := Prod.mk.inj (Except.ok.inj (hread.symm.trans hp))
    refine ⟨q', hq', hissues, hjournal, hblur, fun htexts root' => ?_⟩
    rw [← Project.writeProject_blur htexts q'.project, hblur, Project.writeProject_blur htexts]

/-- A project with one module. More fields may stand in both. -/
def folder (more : Fields) : Json := .obj (
  [("variant", .str "project"), ("name", .str "p"), ("children", .arr [.obj ([("id", .ofNat 1),
    ("name", .str "m"), ("variant", .str "declaration"), ("kind", .ofNat 2)] ++ more)])] ++ more)

theorem reviveWithIds_illTyped_folder :
    let clutter := [("groups", Json.null), ("comment", .str "Exported"),
      ("sources", .obj [("line", .str "first")])]
    ∃ q q' ids, Deserializer.standard.reviveWithIds (folder clutter) none "/repo" = .ok (q, ids) ∧
      Deserializer.standard.reviveWithIds (folder []) none "/repo" = .ok (q', ids) ∧
      (Serializer.standard.writeProject q'.project "/repo").output =
        (Serializer.standard.writeProject q.project "/repo").output := by
  intro clutter
  let may place key v := IllTyped place key v ∧ Blur.unwritten.allows key = true
  have hgroups : may .reflection "groups" .null := ⟨⟨_, rfl, rfl⟩, by decide⟩
  have hcomment : may .reflection "comment" (.str "Exported") := ⟨⟨_, rfl, rfl⟩, by decide⟩
  have hsources : may .reflection "sources" (.obj [("line", .str "first")]) :=
    ⟨⟨_, rfl, rfl⟩, by decide⟩
  have hclutter : PrunedFields may .reflection clutter [] :=
    .drop rfl hgroups (by decide) (.drop rfl hcomment (by decide) (.drop rfl hsources (by decide) .nil))
  have hmodule : PrunedFields may .reflection
      ([("id", .ofNat 1), ("name", .str "m"), ("variant", .str "declaration"), ("kind", .ofNat 2)] ++
        clutter)
      [("id", .ofNat 1), ("name", .str "m"), ("variant", .str "declaration"), ("kind", .ofNat 2)] :=
    .keep (.refl ..) (.keep (.refl ..) (.keep (.refl ..) (.keep (.refl ..) hclutter)))
  have h : Pruned may .reflection (folder clutter) (folder []) :=
    .obj (.keep (.refl ..) (.keep (.refl ..) (.keep (.arr (.cons (.obj hmodule) .nil)) hclutter)))
  have hsome : (Deserializer.standard.reviveWithIds (folder clutter) none "/repo").isOk = true := by
    decide +kernel
  cases hread : Deserializer.standard.reviveWithIds (folder clutter) none "/repo" with
  | error reason =>
    rw [hread] at hsome
    cases hsome
  | ok read =>
    obtain ⟨q', hq', -, -, -, hsame⟩ := reviveWithIds_illTyped (b := .unwritten) h hread
    exact ⟨read.1, q', read.2, rfl, hq', hsame rfl "/repo"⟩

/-- Not every value of the wrong type counts as absent: a readme of the wrong type is written. -/
theorem not_forall_reviveWithIds_illTyped :
    ¬ ∀ value value' root q ids, Pruned IllTyped .reflection value value' →
      Deserializer.standard.reviveWithIds value none root = .ok (q, ids) →
      ∃ q' ids', Deserializer.standard.reviveWithIds value' none root = .ok (q', ids') ∧
        (Serializer.standard.writeProject q'.project root).output =
          (Serializer.standard.writeProject q.project root).output := by
  intro h
  let readme? value := (Deserializer.standard.reviveWithIds value none "/repo").toOption.map fun read =>
    Fields.has (Serializer.standard.writeProject read.1.project "/repo").output "readme"
  have hempty : readme? (.obj [("readme", .null), ("variant", .str "project")]) = some true := by
    decide +kernel
  have habsent : readme? (.obj [("variant", .str "project")]) = some false := by decide +kernel
  cases hread : Deserializer.standard.reviveWithIds
      (.obj [("readme", .null), ("variant", .str "project")]) none "/repo" with
  | error reason =>
    simp only [readme?, hread] at hempty
    cases hempty
  | ok read =>
    obtain ⟨q', ids', hq', hsame⟩ := h _ _ _ read.1 read.2
      (.obj (.drop rfl ⟨_, rfl, rfl⟩ (by decide) (.refl ..))) hread
    simp only [readme?, hread, hq', hsame, Except.toOption, Option.map_some] at hempty habsent
    rw [hempty] at habsent
    cases habsent

end

end DocTree
