import DocTree.Proofs.Reading.Files
import DocTree.Proofs.Reading.Moved

/-!
One serialized project, read as a project of its own and as a module of another one. If it says nothing
that only a declaration can say, both readings add the same to the state, up to the numbers.
-/

namespace DocTree

/-! ### Projects without declaration fields -/

/-- The keys of what declarations have and projects do not. -/
def declarationKeys : List String :=
  ["typeParameters", "type", "signatures", "indexSignatures", "getSignature", "setSignature",
    "overwrites", "inheritedFrom", "implementationOf", "extendedTypes", "extendedBy",
    "implementedTypes", "implementedBy", "sources", "defaultValue"]

/-- Nothing stands under any of these keys. -/
def Fields.Lacks (fields : Fields) (keys : List String) : Prop :=
  ∀ key ∈ keys, fields.value? key = none

namespace Fields.Lacks

variable {fields : Fields} {keys : List String} {key : String}

theorem object? (h : fields.Lacks keys) (hkey : key ∈ keys) : fields.object? key = none := by
  rw [Fields.object?, h key hkey]
  rfl

theorem objects (h : fields.Lacks keys) (hkey : key ∈ keys) : fields.objects key = [] := by
  rw [Fields.objects, Fields.items, h key hkey]
  rfl

theorem text? (h : fields.Lacks keys) (hkey : key ∈ keys) : fields.text? key = none := by
  rw [Fields.text?, h key hkey]
  rfl

end Fields.Lacks

section Twin

variable {e : Site} {n base depth : Nat} {W : Prop} {c : Constructors} {fields : Fields}

/-- Of the fields of a declaration only the readme is left. -/
theorem Reader.declaration_of_lacks (h : fields.Lacks declarationKeys) (id : ReflectionId) :
    Reader.declaration c id fields = (do
      let readme ← Reader.parts? fields "readme"
      Reader.edit id fun r => { r with
        variant := match r.variant with
          | .declaration d => .declaration { d with
              sources := []
              defaultValue := none
              overwrites := none
              inheritedFrom := none
              implementationOf := none
              extendedTypes := []
              extendedBy := []
              implementedTypes := []
              implementedBy := []
              packageVersion := fields.text? "packageVersion"
              readme := readme }
          | variant => variant }) := by
  have hobject : ∀ key ∈ declarationKeys, fields.object? key = none := fun key => h.object?
  have hobjects : ∀ key ∈ declarationKeys, fields.objects key = [] := fun key => h.objects
  have hdefault : fields.text? "defaultValue" = none := h.text? (by decide)
  have hsources : Reader.sources fields = pure [] := by
    rw [Reader.sources, h.objects (by decide)]
    rfl
  simp only [declarationKeys, List.forall_mem_cons] at hobject hobjects
  simp only [Reader.declaration, Reader.mainType, Constructors.childrenAt, Constructors.childAt,
    Constructors.typeAt, Constructors.typesAt, hobject, hobjects, hsources, hdefault,
    Option.toList_none, ReadM.each, ReadM.collect]
  rfl

/-- The fields of a variant, read as those of a project and as those of a declaration. -/
theorem fills_twin (hc : c.Sound e W depth) (hw : fields.Within (depth + 1) W) (he : ¬ e.clean)
    (hlacks : fields.Lacks declarationKeys) (hn : n < base) :
    ∃ (w : Variant) (kids : List ReflectionId) (aims : List Aim) (y : Crop),
      Fills e n base W (fun μ => Reader.variantFields c (μ.number n) fields .project)
        (fun _ => .blank .project) (fun _ => ()) (fun μ => μ.variant w) kids aims y ∧
      Fills e n base W (fun μ => Reader.variantFields c (μ.number n) fields .declaration)
        (fun _ => .blank .declaration) (fun _ => ()) (fun μ => (μ.variant w).toModule) kids aims y := by
  obtain ⟨cs, docs, y₁, h⟩ := fills_container hc hw he hn
  have hproject := h (fun k => .project ⟨k, none, none, none⟩) (fun _ _ => rfl) (fun _ _ => rfl)
  have hdeclaration := h (fun k => .declaration
    ⟨k, [], none, [], [], [], none, none, none, none, none, none, [], [], [], [], none, none⟩)
    (fun _ _ => rfl) (fun _ _ => rfl)
  obtain ⟨ps, hps⟩ := Reader.quotes_parts? he fields "readme"
  obtain ⟨y₂, h₂⟩ := Fills.of_quotes hps
  have hn₁ := Nat.lt_add_right y₁.block.length hn
  refine ⟨.project ⟨⟨cs, docs, none, none⟩, fields.text? "packageName", fields.text? "packageVersion",
    ps⟩, _, _, _, hproject.bind hn (h₂.bind hn₁ (.edit fun _ _ => rfl)), ?_⟩
  simp only [Reader.variantFields, Reader.declaration_of_lacks hlacks]
  exact hdeclaration.bind hn (h₂.bind hn₁ (.edit fun _ _ => rfl))

/-- All standard fields, read as those of a project and as those of a declaration. -/
theorem reads_twin (hc : c.Sound e W depth) (hw : fields.Within (depth + 1) W) (he : ¬ e.clean)
    (hlacks : fields.Lacks declarationKeys) (hn : n < base) :
    ∃ (flags : Option Flags) (m : Option Comment) (w : Variant) (y : Crop),
      (∀ (μ : Relocation) (s : Reflection), s.variant = .blank .project → s.comment = none →
        Reads (μ.site e) (μ.number n) (μ.number base) (Reader.standardFields c (μ.number n) fields) s ()
          { s with flags := flags.getD s.flags, comment := m.map μ.comment, variant := μ.variant w }
          (μ.crop y)) ∧
      ∀ (μ : Relocation) (s : Reflection), s.variant = .blank .declaration → s.comment = none →
        Reads (μ.site e) (μ.number n) (μ.number base) (Reader.standardFields c (μ.number n) fields) s ()
          { s with
            flags := flags.getD s.flags
            comment := m.map μ.comment
            variant := (μ.variant w).toModule } (μ.crop y) := by
  obtain ⟨flags, m, k, hshared, -⟩ := reads_shared he fields
  obtain ⟨w, kids, aims, z, hproject, hdeclaration⟩ := fills_twin hc hw he hlacks hn
  exact ⟨flags, m, w, _, fun μ s hs hnone => hproject.standardFields hshared μ hs hnone,
    fun μ s hs hnone => hdeclaration.standardFields hshared μ hs hnone⟩

end Twin

/-! ### The first pass twice -/

theorem foldl_insert_entry (μ : Relocation) (entries table : List (Nat × ReflectionId)) :
    (entries.map μ.entry).foldl (fun t e => Assoc.insert e.1 e.2 t) (table.map μ.entry) =
      (entries.foldl (fun t e => Assoc.insert e.1 e.2 t) table).map μ.entry := by
  have hone : ∀ (key : Nat) (id : ReflectionId) (table : List (Nat × ReflectionId)),
      Assoc.insert key (μ.number id) (table.map μ.entry) = (Assoc.insert key id table).map μ.entry := by
    intro key id table
    induction table with
    | nil => rfl
    | cons first rest ih =>
      rw [List.map_cons, Assoc.insert, Renaming.entry, Assoc.insert]
      split
      · rfl
      · rw [ih, List.map_cons]
        rfl
  induction entries generalizing table with
  | nil => rfl
  | cons entry rest ih => rw [List.map_cons, List.foldl_cons, List.foldl_cons, ← ih, ← hone]; rfl

/-- One project was read on its own, and behind other reflections as a module; the second reading is the
first one moved. -/
structure Twins (μ : Relocation) (q : Project) (fields : Fields) (root : String) (r : Reflection)
    (y : Crop) (σ : Reading) (y' : Crop) (σ' : Reading) : Prop where
  first : FirstPass False (.ofName (fields.text "name")) ReflectionId.project fields root r y σ
  second : FirstPass False q (μ.number ReflectionId.project) fields root (μ.reflection r).toModule y' σ'
  block : y'.block = y.block.map μ.reflection
  queue : σ'.queue = σ.queue.map μ.work
  ids : σ'.revival.ids = σ.revival.ids.map μ.entry
  files : ∀ f path, σ.revival.project.files.path? f = some path →
    σ'.revival.project.files.path? (μ.file f) = some path

/-- Where the files are the same, a project and a module are read as twins. -/
theorem exists_twins_of_site (μ : Relocation) {q : Project} {fields : Fields} {root : String}
    (hlacks : fields.Lacks declarationKeys)
    (hq : q.get? (μ.number ReflectionId.project) =
      some (moduleOf (fields.text "name") (μ.number ReflectionId.project)))
    (hsize : q.arena.size = μ.number 1)
    (hsite : Reader.siteOf q (μ.number ReflectionId.project) fields root =
      μ.site (Reader.siteOf (.ofName (fields.text "name")) ReflectionId.project fields root))
    (hfiles : ∀ f path, (Reader.opened (.ofName (fields.text "name")) ReflectionId.project fields
        root).project.files.path? f = some path →
      (Reader.opened q (μ.number ReflectionId.project) fields root).project.files.path? (μ.file f) =
        some path) :
    ∃ r y σ y' σ', Twins μ q fields root r y σ y' σ' := by
  let p : Project := .ofName (fields.text "name")
  have hp : p.get? ReflectionId.project = some (.project (fields.text "name")) := rfl
  have hwithin : fields.Within ((Json.obj fields).depth + 1) False := ⟨Nat.le_succ _, False.elim⟩
  have hclean : ¬ (Reader.siteOf p ReflectionId.project fields root).clean := not_false
  obtain ⟨flags, m, w, y, hproject, hmodule⟩ := reads_twin
    (constructors_sound hclean (Json.obj fields).depth) hwithin hclean hlacks Nat.zero_lt_one
  -- The two readings succeed, with the same crop up to the place.
  have hread := hproject .still (.project (fields.text "name")) rfl rfl
  have hcomment : m.map Renaming.still.comment = m := by
    cases m with
    | none => rfl
    | some m => exact congrArg some (Renaming.comment_still m)
  rw [Relocation.toRenaming_still, Renaming.site_still, Renaming.crop_still, Renaming.variant_still, hcomment] at hread
  obtain ⟨σ, hrun, hgrows⟩ := readTree_grows hp hread
  have hread' := hmodule μ (moduleOf (fields.text "name") (μ.number ReflectionId.project)) rfl rfl
  rw [← hsite, ← hsize] at hread'
  obtain ⟨σ', hrun', hgrows'⟩ := readTree_grows hq hread'
  -- They are first passes.
  obtain ⟨r, z, τ, hfirst, -⟩ := exists_firstPass False fields root .project hp rfl rfl rfl False.elim
  obtain rfl : σ = τ := Except.ok.inj (hrun.symm.trans hfirst.read)
  obtain ⟨rfl, hblock, hqueue⟩ := hfirst.unique hgrows
  obtain ⟨r', z', τ', hsecond, -⟩ := exists_firstPass False fields root .declaration hq rfl rfl rfl
    False.elim
  obtain rfl : σ' = τ' := Except.ok.inj (hrun'.symm.trans hsecond.read)
  obtain ⟨rfl, hblock', hqueue'⟩ := hsecond.unique hgrows'
  refine ⟨_, z, σ, z', σ', hfirst, hsecond, ?_, ?_, ?_, ?_⟩
  · rw [← hblock', ← hblock]
    rfl
  · rw [hsecond.queue, hfirst.queue, ← hqueue', ← hqueue]
    rfl
  · rw [hgrows'.ids_opened, hgrows.ids_opened, ← foldl_insert_entry, List.map_append, List.map_map]
    rfl
  · rw [hgrows.table, hgrows'.table]
    exact hfiles

/-- Behind the reflections of any project another one is read as a module, in the same way as on its
own. -/
theorem exists_twins {q : Project} {base : Nat} {fields : Fields} (root : String)
    (hlacks : fields.Lacks declarationKeys)
    (hq : q.get? base = some (moduleOf (fields.text "name") base)) (hsize : q.arena.size = base + 1) :
    ∃ μ r y σ y' σ', μ.shift = base ∧ Twins μ q fields root r y σ y' σ' := by
  obtain ⟨file, hids, hpaths⟩ := (sameFiles_opened (.ofName (fields.text "name")) q rfl
    ReflectionId.project base fields root).exists_renaming
  let μ : Relocation := .shifted base file
  have hbase : base = μ.number ReflectionId.project := (Nat.zero_add base).symm
  obtain ⟨r, y, σ, y', σ', htwins⟩ := exists_twins_of_site μ hlacks
    (hbase ▸ hq) (hsize.trans (Nat.add_comm ..)) (hbase ▸ congrArg (Site.mk root · False) hids)
    (hbase ▸ hpaths)
  exact ⟨μ, r, y, σ, y', σ', rfl, htwins⟩

end DocTree
