import DocTree.Proofs.RoundTrip.Renamed
import DocTree.Proofs.RoundTrip.Tree

/-!
What a writer sees. A project in which every reference has been looked up, and which keeps nothing that
is not written, is written as the project from which it comes.
-/

namespace DocTree

namespace Project

/-- The second project holds portraits of the reflections of the first one, and has its symbols and
files. -/
structure Portrayed (p q : Project) : Prop where
  get? : ∀ k, q.get? k = (p.get? k).map p.portrait
  size : q.arena.size = p.arena.size
  symbolMap : q.symbolMap = p.symbolMap
  /-- No symbol is found that was not found before. -/
  lost : ∀ s, p.ofSymbol? s = none → q.ofSymbol? s = none
  paths : q.files.paths = p.files.paths
  owners : q.files.owners = p.files.owners

theorem Portrayed.contains {p q : Project} (h : p.Portrayed q) (k : ReflectionId) :
    q.contains k = p.contains k := by
  rw [Project.contains, h.get?, Option.isSome_map, Project.contains]

/-- A reference to a number leads there if the number is registered. -/
theorem targetOf?_of_fixed {p : Project} {i : ReflectionId} {t : Option ReflectionId}
    (h : (p.get? i).bind (·.target?) = some (.fixed t)) : p.targetOf? i = t.filter p.contains := by
  have hsettled : p.settled? i = some (.fixed t) := by
    rw [settled?, h]
    rfl
  rw [targetOf?, hsettled]
  cases t <;> rfl

/-- What is no reference leads nowhere. -/
theorem targetOf?_of_none {p : Project} {i : ReflectionId} (h : (p.get? i).bind (·.target?) = none) :
    p.targetOf? i = none := by
  have hsettled : p.settled? i = none := by
    rw [settled?, h]
    rfl
  rw [targetOf?, hsettled]
  rfl

theorem target?_portrait (p : Project) (r : Reflection) :
    (p.portrait r).target? = r.target?.map fun _ => .fixed (p.targetOf? r.id) := by
  rw [Reflection.target?, variant_portrait, Reflection.target?]
  cases r.variant <;> rfl

end Project

namespace Copying

variable {c d : Copying} {inside : ReflectionId → Option Json}

/-! ### Values -/

theorem symbol_congr (hroot : d.root = c.root) (s : Symbol) :
    d.writer.symbol s = c.writer.symbol s := by
  rw [symbol_written, symbol_written, symbolFields, symbolFields, hroot]

section Values

variable (h : ∀ k, d.project.contains k = c.project.contains k) (hroot : d.root = c.root)

include h hroot

theorem linkTarget?_congr (target : Option LinkTarget) :
    d.writer.linkTarget? target = c.writer.linkTarget? target := by
  match target with
  | none | some (.pending _) | some (.url _) => rfl
  | some (.symbol s) => exact congrArg some (symbol_congr hroot s)
  | some (.reflection id) =>
    have hsame : d.writer.project.contains id = c.writer.project.contains id := h id
    rw [Writer.linkTarget?, Writer.linkTarget?, hsame]

theorem part_congr (q : Part) : d.writer.part q = c.writer.part q := by
  rw [part_written, part_written, partFields, partFields]
  cases q with
  | inlineTag tag s target linkText =>
    rw [Writer.partFields, Writer.partFields, linkTarget?_congr h hroot target]
  | _ => rfl

theorem parts_congr (ps : List Part) : d.writer.parts ps = c.writer.parts ps :=
  congrArg Json.arr (List.map_congr_left fun q _ => part_congr h hroot q)

theorem comment_congr (m : Comment) : d.writer.comment m = c.writer.comment m := by
  have htags : m.blockTags.map d.writer.blockTag = m.blockTags.map c.writer.blockTag :=
    List.map_congr_left fun t _ => by
      rw [blockTag_written, blockTag_written, blockTagFields, blockTagFields,
        parts_congr h hroot]
  rw [comment_written, comment_written, commentFields, commentFields, parts_congr h hroot, htags]

theorem description_congr (ps : Option (List Part)) :
    ps.map d.writer.parts = ps.map c.writer.parts :=
  Option.map_congr fun ps _ => parts_congr h hroot ps

omit hroot in
theorem liveIds_congr (ids : List ReflectionId) : d.writer.liveIds ids = c.writer.liveIds ids := by
  have hsame : d.writer.project.contains = c.writer.project.contains := funext h
  rw [Writer.liveIds, Writer.liveIds, hsame]

theorem category_congr (k : Category) : d.writer.category k = c.writer.category k := by
  rw [category_written, category_written, categoryFields, categoryFields,
    description_congr h hroot, liveIds_congr h]

theorem categories_congr (ks : List Category) :
    ks.map d.writer.category = ks.map c.writer.category :=
  List.map_congr_left fun k _ => category_congr h hroot k

theorem group_congr (g : Group) : d.writer.group g = c.writer.group g := by
  rw [group_written, group_written, groupFields, groupFields, description_congr h hroot,
    liveIds_congr h, categories_congr h hroot]

omit h in
theorem symbolMap_congr (hmap : d.project.symbolMap = c.project.symbolMap) :
    d.writer.symbolMap = c.writer.symbolMap := by
  have hsame : d.writer.project.symbolMap = c.writer.project.symbolMap := hmap
  rw [Writer.symbolMap, Writer.symbolMap, hsame]
  exact congrArg Json.obj (List.map_congr_left fun entry _ =>
    congrArg (Prod.mk entry.1.text) (symbol_congr hroot entry.2))

theorem files_congr (hpaths : d.project.files.paths = c.project.files.paths)
    (howners : d.project.files.owners = c.project.files.owners) :
    d.writer.files d.project.files = c.writer.files c.project.files := by
  have hentries : d.project.files.entries = c.project.files.entries := by
    rw [FileTable.entries, FileTable.entries, hpaths]
  have hcontains : d.writer.project.contains = c.writer.project.contains := funext h
  have hpath : d.writer.path = c.writer.path := by
    funext p
    rw [Writer.path, Writer.path, show d.writer.root = c.writer.root from hroot]
  rw [Writer.files, Writer.files, hentries, hcontains, hpath, howners]
  rfl

end Values

/-! ### Types -/

/-- Of a type a node shows its kind alone. -/
theorem typeNode_congr (c d : Copying) {t u : Ty} (hkind : u.kind = t.kind) (fields : Fields) :
    d.writer.typeNode u fields = c.writer.typeNode t fields := by
  rw [Writer.typeNode, Writer.typeNode, hkind]
  rfl

section Mapped

variable {f : Ty → Ty}

theorem typeList_map (ts : List Ty)
    (hts : ∀ t ∈ ts, d.writer.type inside (f t) = c.writer.type inside t) :
    d.writer.typeList inside (ts.map f) = c.writer.typeList inside ts := by
  rw [typeList_eq, typeList_eq, List.map_map]
  exact List.map_congr_left hts

theorem typeOption_map (o : Option Ty)
    (ho : ∀ t ∈ o.toList, d.writer.type inside (f t) = c.writer.type inside t) :
    d.writer.typeOption inside (o.map f) = c.writer.typeOption inside o := by
  cases o with
  | none => rfl
  | some t => exact congrArg some (ho t (List.mem_singleton_self t))

theorem typeArgs_map (args : Option (List Ty))
    (hargs : ∀ t ∈ args.getD [], d.writer.type inside (f t) = c.writer.type inside t) :
    d.writer.typeArgs inside (args.map (·.map f)) = c.writer.typeArgs inside args := by
  cases args with
  | none => rfl
  | some ts => exact typeList_map ts hargs

theorem typeTail_map (tail : List (Ty × String)) (htail : ∀ t ∈ tail.map (·.1),
      d.writer.type inside (f t) = c.writer.type inside t) :
    d.writer.typeTail inside (tail.map fun entry => (f entry.1, entry.2)) =
      c.writer.typeTail inside tail := by
  induction tail with
  | nil => rfl
  | cons entry rest ih =>
    rw [List.map_cons] at htail
    rw [List.map_cons, Writer.typeTail, Writer.typeTail, htail _ (List.mem_cons_self ..),
      ih fun t ht => htail t (List.mem_cons_of_mem _ ht)]

theorem summaries_map {g : Part → Part} (hparts : ∀ ps, d.writer.parts (ps.map g) = c.writer.parts ps)
    (lists : Option (List (List Part))) :
    (lists.map (·.map (·.map g))).map (fun ps => Json.arr (ps.map d.writer.parts)) =
      lists.map fun ps => Json.arr (ps.map c.writer.parts) := by
  rw [Option.map_map]
  refine Option.map_congr fun ps _ => congrArg Json.arr ?_
  rw [List.map_map]
  exact List.map_congr_left fun p _ => hparts p

end Mapped

section Adjusted

variable {f : Ty.Change}

/-- A change that is not seen in the references alone is not seen in the whole type. -/
theorem type_adjusted (hparts : ∀ ps, d.writer.parts (ps.map f.part) = c.writer.parts ps)
    (hintrinsic : f.intrinsic = id) (hqueries : f.inQueries = true)
    (href : ∀ head args args' written,
      d.writer.refNode (f.ref head) args' written = c.writer.refNode head args written) (t : Ty) :
    d.writer.type inside (t.adjust f) = c.writer.type inside t := by
  induction t using Ty.induct with
  | h t ih =>
    cases t with
    | intrinsic name =>
      rw [Ty.adjust, hintrinsic]
      rfl
    | literal value | unknown name | reflection id => rfl
    | array x | optional x | rest x | namedTupleMember name isOptional x | operator op x =>
      rw [Ty.adjust, Writer.type, Writer.type, ih x (List.mem_singleton_self x)]
      exact typeNode_congr c d rfl _
    | indexedAccess x y =>
      rw [Ty.adjust, Writer.type, Writer.type, ih x (by simp [Ty.children]),
        ih y (by simp [Ty.children])]
      exact typeNode_congr c d rfl _
    | conditional x y z w =>
      rw [Ty.adjust, Writer.type, Writer.type, ih x (by simp [Ty.children]),
        ih y (by simp [Ty.children]), ih z (by simp [Ty.children]), ih w (by simp [Ty.children])]
      exact typeNode_congr c d rfl _
    | inferred name x | predicate name asserts x =>
      rw [Ty.adjust, Ty.adjustOption_eq, Writer.type, Writer.type, typeOption_map x ih]
      exact typeNode_congr c d rfl _
    | mapped parameter x y fixed missing z =>
      rw [Ty.adjust, Ty.adjustOption_eq, Writer.type, Writer.type, ih x (by simp [Ty.children]),
        ih y (by simp [Ty.children]),
        typeOption_map z fun t ht => ih t (List.mem_cons_of_mem _ (List.mem_cons_of_mem _ ht))]
      exact typeNode_congr c d rfl _
    | intersection xs | tuple xs =>
      rw [Ty.adjust, Ty.adjustList_eq, Writer.type, Writer.type, typeList_map xs ih]
      exact typeNode_congr c d rfl _
    | union xs lists =>
      rw [Ty.adjust, Ty.adjustList_eq, Writer.type, Writer.type, typeList_map xs ih,
        summaries_map hparts]
      exact typeNode_congr c d rfl _
    | templateLiteral head tail =>
      rw [Ty.adjust, Ty.adjustTail_eq, Writer.type, Writer.type, typeTail_map tail ih]
      exact typeNode_congr c d rfl _
    | reference head args =>
      rw [Ty.adjust, Ty.adjustArgs_eq, Writer.type, Writer.type, typeArgs_map args ih]
      exact href head args _ _
    | query head args =>
      rw [Ty.adjust, if_pos hqueries, Ty.adjustArgs_eq, Writer.type, Writer.type, typeArgs_map args ih,
        href head args]
      exact typeNode_congr c d rfl _

end Adjusted

section Portrayed

variable (h : c.project.Portrayed d.project) (hroot : d.root = c.root)
  (hid : ∀ i r, c.project.get? i = some r → r.id = i)

include h hroot hid

/-- A reference that has been looked up is written as it was before. -/
theorem refTarget_portrayed (target : RefTarget) :
    d.writer.refTarget (c.project.settleTarget target) = c.writer.refTarget target := by
  have hsame : ∀ target, d.writer.project.resolveTarget? target = d.project.resolveTarget? target ∧
      c.writer.project.resolveTarget? target = c.project.resolveTarget? target :=
    fun target => ⟨rfl, rfl⟩
  unfold Writer.refTarget
  rw [(hsame _).1, (hsame _).2]
  cases target with
  | reflection id => simp [Project.settleTarget, Project.resolveTarget?, h.contains]
  | symbol s =>
    cases hs : c.project.ofSymbol? s with
    | none =>
      simp [Project.settleTarget, Project.resolveTarget?, hs, h.lost s hs,
        symbol_congr hroot s]
    | some r =>
      obtain ⟨i, -, hi⟩ := Project.exists_of_ofSymbol? hs
      obtain rfl := hid i r hi
      have hr := Project.contains_of_get? hi
      simp [Project.settleTarget, Project.resolveTarget?, hs, h.contains, hr]
  | pending old | broken => rfl

theorem refNode_portrayed (head : Ref) (args args' : Option (List Ty)) (written : List Json) :
    d.writer.refNode (c.project.settleRef head) args' written =
      c.writer.refNode head args written := by
  have htarget := refTarget_portrayed h hroot hid head.target
  rw [Writer.refNode, Writer.refNode]
  simp only [Project.settleRef, htarget]
  rfl

/-- A type in which every reference has been looked up is written as it was before. -/
theorem type_portrayed (t : Ty) :
    d.writer.type inside (c.project.resolvedTy t) = c.writer.type inside t := by
  refine type_adjusted (fun ps => ?_) rfl rfl (fun head args args' written => ?_) t
  · exact (congrArg d.writer.parts (List.map_id ps)).trans (parts_congr h.contains hroot ps)
  · exact refNode_portrayed h hroot hid head args args' written

theorem typeField_portrayed (key : String) (o : Option Ty) :
    d.typeField inside key (o.map c.project.resolvedTy) = c.typeField inside key o := by
  cases o with
  | none => rfl
  | some t =>
    exact congrArg (fun j => Writer.valueField key (some j)) (type_portrayed h hroot hid t)

theorem typesField_portrayed (key : String) (ts : List Ty) :
    d.typesField inside key (ts.map c.project.resolvedTy) = c.typesField inside key ts := by
  rw [typesField, typesField, typeList_eq, typeList_eq, List.map_map]
  exact congrArg _ (List.map_congr_left fun t _ => type_portrayed h hroot hid t)

omit h hroot hid in
theorem source_written_congr (s : Source) : d.writer.source s = c.writer.source s := by
  rw [source_written, source_written]

omit hid in
theorem containerFields_portrayed (k : Container) :
    d.writer.containerFields inside k = c.writer.containerFields inside k := by
  have hgroups : (k.groups.getD []).map d.writer.group = (k.groups.getD []).map c.writer.group :=
    List.map_congr_left fun g _ => group_congr h.contains hroot g
  rw [Writer.containerFields, Writer.containerFields, hgroups, categories_congr h.contains hroot]

omit hid in
theorem sharedFields_portrayed (r : Reflection) :
    d.writer.sharedFields (c.project.portrait r) = c.writer.sharedFields r := by
  have htag : (c.project.portrait r).tag = r.tag := by
    rw [Reflection.tag, Project.variant_portrait, Reflection.tag]
    cases r.variant <;> rfl
  have hcomment : (r.comment.filter fun m => !m.isEmpty).map d.writer.comment =
      (r.comment.filter fun m => !m.isEmpty).map c.writer.comment :=
    Option.map_congr fun m _ => comment_congr h.contains hroot m
  rw [Writer.sharedFields, Writer.sharedFields, htag, ← hcomment]
  unfold Project.portrait Reflection.mapTarget
  split <;> rfl

omit hroot in
/-- A reference that has been looked up leads where it led. -/
theorem targetOf?_portrayed (k : ReflectionId) :
    d.project.targetOf? k = c.project.targetOf? k := by
  have hsame : d.project.contains = c.project.contains := funext h.contains
  cases hk : c.project.get? k with
  | none =>
    rw [Project.targetOf?_of_none (p := c.project) (by rw [hk]; rfl),
      Project.targetOf?_of_none (p := d.project) (by rw [h.get?, hk]; rfl)]
  | some r =>
    obtain rfl := hid k r hk
    have hportrait : (d.project.get? r.id).bind (·.target?) =
        r.target?.map fun _ => .fixed (c.project.targetOf? r.id) := by
      rw [h.get?, hk, ← Project.target?_portrait]
      rfl
    cases ht : r.target? with
    | none =>
      rw [Project.targetOf?_of_none (p := c.project) (by rw [hk]; exact ht),
        Project.targetOf?_of_none (p := d.project) (by rw [hportrait, ht]; rfl)]
    | some t =>
      rw [Project.targetOf?_of_fixed (p := d.project) (by rw [hportrait, ht]; rfl), hsame]
      cases hx : c.project.targetOf? r.id with
      | none => rfl
      | some x => exact if_pos (Option.filter_eq_some_iff.mp hx).2

theorem variantFields_portrayed (r : Reflection) :
    d.variantFields inside (c.project.portrait r) = c.variantFields inside r := by
  have hnumber : (c.project.portrait r).id = r.id := by
    unfold Project.portrait Reflection.mapTarget
    split <;> rfl
  have hsources : ∀ ss : List Source, ss.map d.writer.source = ss.map c.writer.source :=
    fun ss => List.map_congr_left fun s _ => source_written_congr s
  have htype : ∀ key o, d.typeField inside key (o.map c.project.resolvedTy) =
      c.typeField inside key o := typeField_portrayed h hroot hid
  have htypes : ∀ key ts, d.typesField inside key (ts.map c.project.resolvedTy) =
      c.typesField inside key ts := typesField_portrayed h hroot hid
  have htexts := description_congr h.contains hroot
  rw [variantFields, variantFields, Project.variant_portrait, hnumber]
  cases hv : r.variant with
  | project e =>
    simp only [Variant.mapTypes, projectFields, htexts, symbolMap_congr hroot h.symbolMap,
      files_congr h.contains hroot h.paths h.owners]
  | declaration e =>
    simp only [Variant.mapTypes, declarationFields, hsources, htype, htypes, htexts]
  | signature e => simp only [Variant.mapTypes, signatureFields, hsources, htype]
  | param e => simp only [Variant.mapTypes, htype]
  | typeParam e => simp only [Variant.mapTypes, typeParameterFields, htype]
  | reference t => simp only [targetOf?_portrayed h hid]
  | document e => simp only [Variant.mapTypes, documentFields, parts_congr h.contains hroot]

theorem objectFields_portrayed (r : Reflection) :
    d.objectFields inside (c.project.portrait r) = c.objectFields inside r := by
  have hcontainer : (c.project.portrait r).container? = r.container? := by
    rw [Reflection.container?, Project.variant_portrait, Reflection.container?]
    cases r.variant <;> rfl
  rw [objectFields, objectFields, sharedFields_portrayed h hroot, hcontainer,
    variantFields_portrayed h hroot hid,
    show d.writer.containerFields inside = c.writer.containerFields inside from
      funext (containerFields_portrayed h hroot)]

theorem reflectionWithin_portrayed (levels : Nat) (k : ReflectionId) :
    d.writer.reflectionWithin levels k = c.writer.reflectionWithin levels k := by
  induction levels generalizing k with
  | zero => rfl
  | succ levels ih =>
    cases hk : c.project.get? k with
    | none =>
      have hgone : ¬ c.project.contains k = true := Project.not_contains_iff.mpr hk
      rw [reflectionWithin_dead hgone, reflectionWithin_dead fun hin => hgone (h.contains k ▸ hin)]
    | some r =>
      have hportrait : d.project.get? k = some (c.project.portrait r) := by
        rw [h.get?, hk]
        rfl
      rw [reflectionWithin_succ hk, reflectionWithin_succ hportrait, funext ih,
        objectFields_portrayed h hroot hid]

theorem output_portrayed {r : Reflection} (hr : c.project.get? ReflectionId.project = some r) :
    (Serializer.standard.writeProject d.project d.root).output =
      (Serializer.standard.writeProject c.project c.root).output := by
  have hportrait : d.project.get? ReflectionId.project = some (c.project.portrait r) := by
    rw [h.get?, hr]
    rfl
  rw [writeProject_output hr, writeProject_output hportrait, h.size,
    funext (reflectionWithin_portrayed h hroot hid c.project.arena.size),
    objectFields_portrayed h hroot hid]

end Portrayed

end Copying

/-- A project and the one that portrays it are written alike. -/
theorem Project.Portrayed.writeProject {p q : Project} (h : p.Portrayed q) (hp : p.Keyed)
    (root : String) : (Serializer.standard.writeProject q root).output =
      (Serializer.standard.writeProject p root).output := by
  obtain ⟨r, hr, -⟩ := hp.root
  exact Copying.output_portrayed (c := .plain p root) (d := .plain q root) h rfl hp.id hr

end DocTree
