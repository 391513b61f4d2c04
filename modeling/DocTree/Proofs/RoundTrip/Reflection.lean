import DocTree.Proofs.RoundTrip.Object

/-!
Reading the reflections that were written. The children in a slot are registered one after the other;
a main type is set when it has been read; all other fields are taken over at the end.
-/

namespace DocTree

/-- All texts of a reflection: its own, those of its types and those of its groups and categories. -/
def Reflection.texts (r : Reflection) : List Part :=
  r.parts ++ r.types.flatMap Ty.parts ++
    r.container?.toList.flatMap fun k =>
      (k.groups.getD []).flatMap (fun g => g.description.getD [] ++
        (g.categories.getD []).flatMap fun k => k.description.getD []) ++
      (k.categories.getD []).flatMap fun k => k.description.getD []

namespace Copying

variable {c : Copying} {clean : Prop} {inside : ReflectionId → Option Json} {n b depth : Nat}
  {fields : Fields} {s : Reflection}

/-! ### Steps -/

theorem Copies.edit (f : Reflection → Reflection) {r : Reflection} :
    c.Copies clean n b (Reader.edit n f) r () (f r) [] [] True :=
  .of_reads (.edit f) trivial

/-- Of the reflections in a slot the registered ones are written. -/
theorem reflections_eq (hdead : ∀ x, ¬ c.project.contains x = true → inside x = none)
    (ids : List ReflectionId) : Writer.reflections inside ids = (c.live ids).filterMap inside := by
  induction ids with
  | nil => rfl
  | cons x rest ih =>
    by_cases hx : c.project.contains x = true
    · have hlive : c.live (x :: rest) = x :: c.live rest := List.filter_cons_of_pos hx
      rw [hlive, List.filterMap_cons, ← ih, Writer.reflections, List.filterMap_cons]
      rfl
    · have hlive : c.live (x :: rest) = c.live rest := List.filter_cons_of_neg hx
      rw [hlive, ← ih, Writer.reflections, List.filterMap_cons, hdead x hx]
      rfl

/-- Reflections that were written one after the other are registered one after the other in a slot. -/
theorem copies_slot {role : Role} {put : List ReflectionId → Variant}
    (hput : ∀ before i, (put before).attach? i role = some (put (before ++ [i])))
    {ids : List ReflectionId} (hids : ∀ x ∈ ids, c.Nested clean inside x) (hb : n < b)
    (hdepth : ∀ j ∈ ids.filterMap inside, j.depth ≤ depth) (before : List ReflectionId) :
    c.Copies clean n b (ReadM.each (fun inner => do
        let _ ← (Deserializer.standard.constructors depth).reflection inner role)
        ((ids.filterMap inside).filterMap Json.asObject?)) (s.holding (put before)) ()
      (s.holding (put (before ++ c.run b ids))) ids [] True := by
  induction ids generalizing b before with
  | nil =>
    rw [run, List.append_nil]
    exact .pure _ trivial
  | cons x rest ih =>
    obtain ⟨inner, hw, hread⟩ := hids x (List.mem_cons_self ..)
    have hd : (Json.obj inner).depth ≤ depth := by
      refine hdepth _ ?_
      rw [List.filterMap_cons, hw]
      exact List.mem_cons_self ..
    have hx := hread n b (s.holding (put before)) _ role depth hb (hput before b) hd
    have hone := Copies.bind hb hx (f := fun _ => pure ()) (Copies.pure () trivial)
    have hrest := ih (b := b + c.total ([x] ++ [])) (fun y hy => hids y (List.mem_cons_of_mem x hy))
      (Nat.lt_add_right _ hb) (fun j hj => hdepth j (by
        rw [List.filterMap_cons, hw]
        exact List.mem_cons_of_mem _ hj)) (before ++ [b])
    rw [List.filterMap_cons, hw, run, List.append_cons]
    exact Copies.imp (Copies.bind hb hone hrest) fun _ => trivial

/-- The slot of an array that is left out when it has no items. -/
theorem copies_childrenAt {key : String} {role : Role} (put : List ReflectionId → Variant)
    (hput : ∀ before i, (put before).attach? i role = some (put (before ++ [i])))
    {ids : List ReflectionId} (hids : ∀ x ∈ c.live ids, c.Nested clean inside x)
    (hdead : ∀ x, ¬ c.project.contains x = true → inside x = none) (hb : n < b)
    (hshallow : Shallow fields depth)
    (hkey : fields.value? key = if Writer.reflections inside ids = [] then none
      else some (.arr (Writer.reflections inside ids))) :
    c.Copies clean n b ((Deserializer.standard.constructors depth).childrenAt fields key role)
      (s.holding (put [])) () (s.holding (put (c.run b (c.live ids)))) (c.live ids) [] True := by
  have hitems : fields.items key = (c.live ids).filterMap inside :=
    (Fields.items_of_listField hkey).trans (reflections_eq hdead ids)
  rw [Constructors.childrenAt, Fields.objects, hitems]
  exact copies_slot hput hids hb (hitems ▸ hshallow.items) []

/-- The slot of one reflection, of which the last one stays. -/
theorem copies_childAt {key : String} {role : Role} (put : Option ReflectionId → Variant)
    (hput : ∀ before i, (put before).attach? i role = some (put (some i)))
    {id : Option ReflectionId} (hids : ∀ x ∈ c.live id.toList, c.Nested clean inside x)
    (hdead : ∀ x, ¬ c.project.contains x = true → inside x = none) (hb : n < b)
    (hshallow : Shallow fields depth) (hkey : fields.value? key = id.bind inside) :
    c.Copies clean n b ((Deserializer.standard.constructors depth).childAt fields key role)
      (s.holding (put none)) () (s.holding (put (c.run b (c.live id.toList)).getLast?))
      (c.live id.toList) [] True := by
  have hbind : (id.bind inside).toList = (c.live id.toList).filterMap inside := by
    rw [← reflections_eq hdead]
    cases id with
    | none => rfl
    | some x =>
      rw [Writer.reflections, Option.toList_some, List.filterMap_cons, Option.bind_some]
      cases inside x <;> rfl
  have hobject : (fields.object? key).toList =
      ((c.live id.toList).filterMap inside).filterMap Json.asObject? := by
    rw [← hbind, Fields.object?, hkey]
    cases id.bind inside with
    | none => rfl
    | some j =>
      rw [Option.bind_some, Option.toList_some, List.filterMap_cons]
      cases j.asObject? <;> rfl
  have hdepth : ∀ j ∈ (c.live id.toList).filterMap inside, j.depth ≤ depth := fun j hj =>
    hshallow key j (hkey.trans (Option.mem_toList.mp (hbind ▸ hj)))
  rw [Constructors.childAt, hobject]
  have hlast : ∀ before i, (put before.getLast?).attach? i role = some (put (before ++ [i]).getLast?) :=
    fun before i => by rw [hput, List.getLast?_append, List.getLast?_singleton, Option.some_or]
  exact copies_slot hlast hids hb hdepth []

/-- The main type is set when it has been read. -/
theorem copies_mainType (put : Option Ty → Variant)
    (hput : ∀ t, (put none).setMainType? (some t) = some (put (some t)))
    (hnone : (put none).mainType? = none) {o : Option Ty}
    (ho : ∀ t ∈ o, c.Typed clean inside n (s.holding (put none)) t) (hb : n < b)
    (hshallow : Shallow fields depth) (hkey : fields.value? "type" = c.writer.typeOption inside o) :
    c.Copies clean n b (Reader.mainType (Deserializer.standard.constructors depth) n fields)
      (s.holding (put none)) () (s.holding (put (c.tyOption b o))) (o.toList.flatMap Ty.declarations)
      [] (∀ t ∈ c.tyOption b o, t.Still) := by
  have hread := copies_typeAt? ho hb hshallow hkey
  cases o with
  | none =>
    rw [Reader.mainType]
    exact Copies.imp (Copies.bind hb hread (Copies.pure _ trivial)) And.left
  | some t =>
    obtain ⟨y, spots, hy, hspots, hP⟩ := hread
    have howned : ∀ d ∈ (c.ty b t).declarations, ∃ i s, d = b + i ∧ y.block[i]? = some s ∧
        s.parent = some n := fun d hd => by
      have hrun : d ∈ c.run b ((some t).toList.flatMap Ty.declarations) := by
        rwa [Option.toList_some, List.flatMap_singleton, ← declarations_ty]
      obtain ⟨i, s, hi, hs, hparent⟩ := hspots.laid.draft_of_mem_run hrun
      exact ⟨i, s, hi, hspots.block ▸ hs, hparent⟩
    have hset := Reads.mainType hy (hput _) hnone howned
    exact ⟨y, spots, hset, hspots, hP⟩

/-! ### Shared fields and containers -/

variable {r : Reflection}

theorem copies_shared (hleg : c.Legible) (r : Reflection) (hlisted : c.Listed clean r.parts)
    (hb : n < b) (hnone : s.comment = none) :
    c.Copies clean n b (Reader.shared n (c.objectFields inside r)) s ()
      { s with flags := r.flags.reread, comment := c.comment? r.comment } [] []
      (∀ p ∈ (c.comment? r.comment).elim [] Comment.parts, p.Still) := by
  have hflags : (c.objectFields inside r).object? "flags" = some r.flags.toFields := by
    rw [Fields.object?, value?_shared (by simp [sharedKeys])]
    simp [Writer.sharedFields]
  have hcomment : (c.objectFields inside r).object? "comment" =
      (r.comment.filter fun m => !m.isEmpty).map c.commentFields := by
    rw [Fields.object?, value?_shared (by simp [sharedKeys])]
    simp only [Writer.sharedFields]
    cases r.comment.filter fun m => !m.isEmpty with
    | none => simp
    | some m => simp [comment_written]
  have hfilled : { s with
      flags := (some r.flags.reread).getD s.flags
      comment := (c.comment? r.comment).or s.comment } =
      { s with flags := r.flags.reread, comment := c.comment? r.comment } := by
    rw [hnone, Option.or_none, Option.getD_some]
  rw [Reader.shared, hflags, hcomment, ← hfilled, comment?]
  cases hm : r.comment.filter fun m => !m.isEmpty with
  | none => exact Copies.imp (Copies.bind hb (Copies.pure none trivial) (Copies.edit _)) fun _ _ hp =>
      (List.not_mem_nil hp).elim
  | some m =>
    have hread := takes_comment hleg m (hlisted.mono fun p hp => List.mem_append_left _ (by
      rw [(Option.filter_eq_some_iff.mp hm).1]
      exact hp))
    exact Copies.imp (Copies.bind hb (Copies.map (Copies.of_takes hread)) (Copies.edit _)) And.left

/-- The reflection can be read when the reflections inside it can. -/
structure Readable (c : Copying) (clean : Prop) (inside : ReflectionId → Option Json)
    (r : Reflection) : Prop where
  legible : c.Legible
  nested : ∀ x ∈ c.inOrder r.variant, c.Nested clean inside x
  dead : ∀ x, ¬ c.project.contains x = true → inside x = none
  listed : c.Listed clean r.texts

/-- The declarations that the types own are among the reflections inside. -/
theorem mem_inOrder_of_types {v : Variant} {t : Ty} {d : ReflectionId} (ht : t ∈ v.types)
    (hd : d ∈ t.declarations) : d ∈ c.inOrder v := by
  have hmem : d ∈ v.types.flatMap Ty.declarations := List.mem_flatMap.mpr ⟨t, ht, hd⟩
  cases v with
  | declaration e =>
    simp only [Variant.types, List.flatMap_append, List.mem_append] at hmem
    simp only [inOrder, List.mem_append]
    grind
  | signature e =>
    simp only [Variant.types, List.flatMap_append, List.mem_append] at hmem
    simp only [inOrder, List.mem_append]
    grind
  | param e => exact hmem
  | typeParam e => rwa [Variant.types, List.flatMap_append] at hmem
  | project e | reference e | document e => cases ht

theorem Readable.typed (h : c.Readable clean inside r)
    (hs : ∀ i, s.variant.attach? i .typeLiteral = some s.variant) {t : Ty} (ht : t ∈ r.types) :
    c.Typed clean inside n s t := by
  refine Copying.typed h.legible t
    (fun d hd => typed_reflection (h.nested d (mem_inOrder_of_types ht hd)) hs) ?_
  exact h.listed.mono fun p hp => List.mem_append_left _ <|
    List.mem_append_right _ (List.mem_flatMap.mpr ⟨t, ht, hp⟩)

theorem Readable.listed_groups (h : c.Readable clean inside r) {k : Container}
    (hk : r.container? = some k) {g : Group} (hg : g ∈ k.groups.getD []) :
    c.Listed clean (g.description.getD []) ∧
      ∀ m ∈ g.categories.getD [], c.Listed clean (m.description.getD []) := by
  have hall : ∀ p, p ∈ (g.description.getD [] ++
      (g.categories.getD []).flatMap fun m => m.description.getD []) → p ∈ r.texts := fun p hp => by
    rw [Reflection.texts, hk, Option.toList_some, List.flatMap_cons]
    exact List.mem_append_right _ <| List.mem_append_left _ <| List.mem_append_left _ <|
      List.mem_flatMap.mpr ⟨g, hg, hp⟩
  exact ⟨h.listed.mono fun p hp => hall p (List.mem_append_left _ hp), fun m hm =>
    h.listed.mono fun p hp => hall p (List.mem_append_right _ (List.mem_flatMap.mpr ⟨m, hm, hp⟩))⟩

theorem Readable.listed_categories (h : c.Readable clean inside r) {k : Container}
    (hk : r.container? = some k) {m : Category} (hm : m ∈ k.categories.getD []) :
    c.Listed clean (m.description.getD []) :=
  h.listed.mono fun p hp => by
    rw [Reflection.texts, hk, Option.toList_some, List.flatMap_cons]
    exact List.mem_append_right _ <| List.mem_append_left _ <| List.mem_append_right _ <|
      List.mem_flatMap.mpr ⟨m, hm, hp⟩

theorem copies_container (h : c.Readable clean inside r)
    (put : List ReflectionId → List ReflectionId → Variant)
    (hchildren : ∀ before i, (put before []).attach? i .children = some (put (before ++ [i]) []))
    (hdocuments : ∀ ids before i,
      (put ids before).attach? i .documents = some (put ids (before ++ [i])))
    {k : Container} (hk : r.container? = some k)
    (hinside : ∀ x ∈ c.live k.children ++ c.live k.documents, c.Nested clean inside x) (hb : n < b)
    (hshallow : Shallow (c.objectFields inside r) depth) :
    c.Copies clean n b (Reader.container (Deserializer.standard.constructors depth) n
        (c.objectFields inside r)) (s.holding (put [] [])) ()
      (s.holding (put (c.run b (c.live k.children))
        (c.run (b + c.total (c.live k.children)) (c.live k.documents))))
      (c.live k.children ++ c.live k.documents) (c.groupWork n r) True := by
  have hvalue : ∀ {key}, key ∈ containerKeys → (c.objectFields inside r).value? key =
      (c.writer.containerFields inside k).value? key := fun hkey => value?_container hk hkey
  have hgroups := takes_groups? h.legible (c.objectFields inside r) (k.groups.getD [])
    ((hvalue (by simp [containerKeys])).trans (by simp [Writer.containerFields]))
    fun g hg => h.listed_groups hk hg
  have hcategories := takes_categories? h.legible (c.objectFields inside r) (k.categories.getD [])
    ((hvalue (by simp [containerKeys])).trans (by simp [Writer.containerFields]))
    fun m hm => h.listed_categories hk hm
  have hdefer : ∀ {b' : Nat} {r' : Reflection}, c.Copies clean n b'
      (if (c.groups? k.groups).isSome || (c.categories? k.categories).isSome then
        ReadM.defer (.groupings n (c.groups? k.groups) (c.categories? k.categories))
      else pure ()) r' () r' [] (c.groupWork n r) True := fun {b' r'} => by
    rw [groupWork, hk]
    by_cases hsome : ((c.groups? k.groups).isSome || (c.categories? k.categories).isSome) = true
    · simp only [if_pos hsome]
      exact .defer _ (decide_eq_true rfl) trivial
    · simp only [if_neg hsome]
      exact .pure _ trivial
  refine Copies.of_eq (Copies.imp
    (Copies.bind hb (copies_childrenAt (put · []) hchildren
      (fun x hx => hinside x (List.mem_append_left _ hx)) h.dead hb hshallow
      ((hvalue (by simp [containerKeys])).trans (by simp [Writer.containerFields])))
    (Copies.bind (by omega) (copies_childrenAt (put _) (hdocuments _)
      (fun x hx => hinside x (List.mem_append_right _ hx)) h.dead (by omega) hshallow
      ((hvalue (by simp [containerKeys])).trans (by simp [Writer.containerFields])))
    (Copies.bind (by omega) (Copies.of_takes hgroups)
    (Copies.bind (by omega) (Copies.of_takes hcategories) hdefer)))) fun _ => trivial)
    (by simp only [List.append_nil]) (by simp only [List.nil_append])

/-! ### Variants -/

/-- Nothing in the variant waits for a new number. -/
def Quiet (v : Variant) : Prop := (∀ t ∈ v.types, t.Still) ∧ ∀ p ∈ v.parts, p.Still

/-- The fields of the variant of a reflection are read, after its shared fields. -/
def Filled (c : Copying) (clean : Prop) (inside : ReflectionId → Option Json) (n b depth : Nat)
    (s r : Reflection) (blank : Variant) : Prop :=
  c.Copies clean n b (Reader.variantFields (Deserializer.standard.constructors depth) n
      (c.objectFields inside r) r.tag) (s.holding blank) () (s.holding (c.variant b r.variant))
    (c.inOrder r.variant) (c.groupWork n r ++ c.targetWork n r) (Quiet (c.variant b r.variant))

theorem filled_param (h : c.Readable clean inside r) {d : Parameter} (hv : r.variant = .param d)
    (hb : n < b) (hshallow : Shallow (c.objectFields inside r) depth) :
    c.Filled clean inside n b depth s r (.param ⟨none, none⟩) := by
  have hwork : c.groupWork n r ++ c.targetWork n r = [] := by
    simp [groupWork, targetWork, Reflection.container?, hv]
  have hdefault : (c.objectFields inside r).text? "defaultValue" = d.defaultValue := by
    rw [Fields.text?, value?_variant .param (by simp [variantKeys]), variantFields, hv]
    simp [typeField]
  have htype : (c.objectFields inside r).value? "type" = c.writer.typeOption inside d.type := by
    rw [value?_variant .param (by simp [variantKeys]), variantFields, hv]
    simp [typeField]
  have ht : ∀ t ∈ d.type, t ∈ r.types := fun t ht => by
    simpa [Reflection.types, Variant.types, hv] using ht
  rw [Filled, hwork, Reflection.tag, hv]
  simp only [Variant.tag, Reader.variantFields, Reader.parameter, hdefault]
  refine Copies.of_eq (Copies.imp (Copies.bind hb
    (copies_mainType (fun o => .param ⟨o, none⟩) (fun _ => rfl) rfl
      (fun t hmem => h.typed (fun _ => rfl) (ht t hmem)) hb hshallow htype)
    (Copies.edit _)) fun hstill => ⟨fun t ht => ?_, fun p hp => ?_⟩) (List.append_nil _) rfl
  · exact hstill.1 t (Option.mem_toList.mp ht)
  · exact (List.not_mem_nil hp).elim

theorem ofWord?_word (v : Option Variance) : (v.map (·.word)).bind Variance.ofWord? = v := by
  cases v with
  | none => rfl
  | some v => cases v <;> decide

theorem filled_typeParam (h : c.Readable clean inside r) {d : TypeParameter}
    (hv : r.variant = .typeParam d) (hb : n < b)
    (hshallow : Shallow (c.objectFields inside r) depth) :
    c.Filled clean inside n b depth s r (.typeParam ⟨none, none, none⟩) := by
  have hwork : c.groupWork n r ++ c.targetWork n r = [] := by
    simp [groupWork, targetWork, Reflection.container?, hv]
  have hvariance : ((c.objectFields inside r).text? "varianceModifier").bind Variance.ofWord? =
      d.variance := by
    have hvalue : (c.objectFields inside r).value? "varianceModifier" =
        (d.variance.map (·.word)).map .str := by
      rw [value?_variant .typeParam (by simp [variantKeys]), variantFields, hv]
      simp [typeParameterFields, typeField]
    rw [Fields.text?, hvalue, Json.bind_asString?, ofWord?_word]
  have htype : (c.objectFields inside r).value? "type" = c.writer.typeOption inside d.type := by
    rw [value?_variant .typeParam (by simp [variantKeys]), variantFields, hv]
    simp [typeParameterFields, typeField]
  have hdefault : (c.objectFields inside r).value? "default" =
      c.writer.typeOption inside d.default := by
    rw [value?_variant .typeParam (by simp [variantKeys]), variantFields, hv]
    simp [typeParameterFields, typeField]
  have htypes : ∀ t, t ∈ d.type ∨ t ∈ d.default → t ∈ r.types := fun t ht => by
    simpa [Reflection.types, Variant.types, hv] using ht
  rw [Filled, hwork, Reflection.tag, hv]
  simp only [Variant.tag, Reader.variantFields, Reader.typeParameter, hvariance]
  refine Copies.of_eq (Copies.imp (Copies.bind hb
    (copies_mainType (fun o => .typeParam ⟨o, none, none⟩) (fun _ => rfl) rfl
      (fun t ht => h.typed (fun _ => rfl) (htypes t (.inl ht))) hb hshallow htype)
    (Copies.bind (by omega) (copies_typeAt?
      (fun t ht => h.typed (fun _ => rfl) (htypes t (.inr ht))) (by omega) hshallow hdefault)
    (Copies.edit _))) fun hstill => ⟨fun t ht => ?_, fun p hp => ?_⟩)
    (by simp only [List.append_nil]; rfl) rfl
  · rcases List.mem_append.mp ht with ht | ht
    · exact hstill.1 t (Option.mem_toList.mp ht)
    · exact hstill.2.1 t (Option.mem_toList.mp ht)
  · exact (List.not_mem_nil hp).elim

theorem filled_reference (h : c.Readable clean inside r) {t : ReferenceTarget}
    (hv : r.variant = .reference t) :
    c.Filled clean inside n b depth s r (.reference .broken) := by
  have hgroup : c.groupWork n r = [] := by simp [groupWork, Reflection.container?, hv]
  have hvalue : (c.objectFields inside r).value? "target" =
      some ((c.project.targetOf? r.id).elim (.ofInt ReflectionId.absent) .ofNat) := by
    rw [value?_variant .reference (by simp [variantKeys]), variantFields, hv]
    simp
  have hquiet : Quiet (c.variant b r.variant) := by
    rw [hv]
    exact ⟨fun _ ht => (List.not_mem_nil ht).elim, fun _ hp => (List.not_mem_nil hp).elim⟩
  rw [Filled, hgroup, List.nil_append, targetWork, Reflection.tag]
  rw [hv] at hquiet ⊢
  simp only [Variant.tag, Reader.variantFields, Reader.referenceTarget, Fields.word?, hvalue,
    Option.bind_some]
  cases htarget : c.project.targetOf? r.id with
  | none => exact .pure _ hquiet
  | some old =>
    have hlive : c.project.contains old = true := (Option.filter_eq_some_iff.mp htarget).2
    have hword : Json.asWord? (.ofNat old) = some old := by
      rw [Json.asWord?_ofNat, if_pos (lt_wordBound h.legible hlive)]
    simp only [Option.elim_some, hword]
    exact .defer _ (decide_eq_true rfl) hquiet

theorem filled_document (h : c.Readable clean inside r) {d : Document}
    (hv : r.variant = .document d) (hb : n < b) :
    c.Filled clean inside n b depth s r (.document ⟨[], []⟩) := by
  have hwork : c.groupWork n r ++ c.targetWork n r = [] := by
    simp [groupWork, targetWork, Reflection.container?, hv]
  have hcontent : (c.objectFields inside r).value? "content" = some (c.writer.parts d.content) := by
    rw [value?_variant .document (by simp [variantKeys]), variantFields, hv]
    simp [documentFields]
  have hfront : ((c.objectFields inside r).object? "frontmatter").getD [] = d.frontmatter := by
    rw [Fields.object?, value?_variant .document (by simp [variantKeys]), variantFields, hv]
    cases hnil : d.frontmatter <;> simp [documentFields, hnil]
  have hlisted : c.Listed clean d.content := h.listed.mono fun p hp => by
    rw [Reflection.texts, Reflection.parts_eq, hv]
    exact List.mem_append_left _ <| List.mem_append_left _ (List.mem_append_right _ hp)
  rw [Filled, hwork, Reflection.tag, hv]
  simp only [Variant.tag, Reader.variantFields, Reader.document, hcontent, hfront]
  exact Copies.imp (Copies.bind hb (Copies.of_takes (takes_parts h.legible d.content hlisted))
    (Copies.edit _)) fun hstill => ⟨fun t ht => (List.not_mem_nil ht).elim, hstill.1⟩

theorem filled_signature (h : c.Readable clean inside r) {d : Signature}
    (hv : r.variant = .signature d) (hb : n < b)
    (hshallow : Shallow (c.objectFields inside r) depth) :
    c.Filled clean inside n b depth s r (.signature ⟨[], [], [], none, none, none, none⟩) := by
  have hwork : c.groupWork n r ++ c.targetWork n r = [] := by
    simp [groupWork, targetWork, Reflection.container?, hv]
  have hd : c.HoldsSignature inside d (c.objectFields inside r) := holdsSignature hv
  have htypes : ∀ t, t ∈ d.type ∨ t ∈ d.overwrites ∨ t ∈ d.inheritedFrom ∨
      t ∈ d.implementationOf → t ∈ r.types := fun t ht => by
    simpa [Reflection.types, Variant.types, hv] using ht
  have hinner : ∀ x, x ∈ c.live d.typeParameters ∨ x ∈ c.live d.parameters →
      c.Nested clean inside x := fun x hx => h.nested x (by
    simp only [hv, inOrder, List.append_assoc, List.mem_append]
    grind)
  rw [Filled, hwork, Reflection.tag, hv]
  simp only [Variant.tag, Reader.variantFields, Reader.signature]
  refine Copies.of_eq (Copies.imp (Copies.bind hb (Copies.of_takes (takes_sources _ _ hd.sources))
    (Copies.bind hb (copies_childrenAt
      (fun ids => .signature ⟨[], [], ids, none, none, none, none⟩) (fun _ _ => rfl)
      (fun x hx => hinner x (.inl hx)) h.dead hb hshallow hd.typeParameters)
    (Copies.bind (by omega) (copies_childrenAt
      (fun ids => .signature ⟨[], ids, _, none, none, none, none⟩) (fun _ _ => rfl)
      (fun x hx => hinner x (.inr hx)) h.dead (by omega) hshallow hd.parameters)
    (Copies.bind (by omega) (copies_mainType
      (fun o => .signature ⟨[], _, _, o, none, none, none⟩) (fun _ => rfl) rfl
      (fun t ht => h.typed (fun _ => rfl) (htypes t (.inl ht))) (by omega) hshallow hd.type)
    (Copies.bind (by omega) (copies_typeAt?
      (fun t ht => h.typed (fun _ => rfl) (htypes t (.inr (.inl ht)))) (by omega) hshallow
      hd.overwrites)
    (Copies.bind (by omega) (copies_typeAt?
      (fun t ht => h.typed (fun _ => rfl) (htypes t (.inr (.inr (.inl ht))))) (by omega) hshallow
      hd.inheritedFrom)
    (Copies.bind (by omega) (copies_typeAt?
      (fun t ht => h.typed (fun _ => rfl) (htypes t (.inr (.inr (.inr ht))))) (by omega) hshallow
      hd.implementationOf)
    (Copies.edit _)))))))) fun hstill => ⟨fun t ht => ?_, fun p hp => ?_⟩)
    (by simp only [List.append_nil, List.nil_append, inOrder, List.append_assoc]) rfl
  · obtain ⟨-, -, -, h1, h2, h3, h4, -⟩ := hstill
    simp only [variant, Variant.types, signature, List.mem_append, Option.mem_toList] at ht
    rcases ht with ((ht | ht) | ht) | ht
    · exact h1 t ht
    · exact h2 t ht
    · exact h3 t ht
    · exact h4 t ht
  · exact (List.not_mem_nil hp).elim

/-- A declaration that holds its children alone. -/
def blank (k : Container) : Declaration :=
  ⟨k, [], none, [], [], [], none, none, none, none, none, none, [], [], [], [], none, none⟩

/-- What a declaration says beside its container is read after it. -/
theorem copies_declaration (h : c.Readable clean inside r) {d : Declaration}
    (hv : r.variant = .declaration d) (hb : n < b)
    (hshallow : Shallow (c.objectFields inside r) depth) :
    c.Copies clean n (b + c.total (c.live d.container.children) +
        c.total (c.live d.container.documents))
      (Reader.declaration (Deserializer.standard.constructors depth) n (c.objectFields inside r))
      (s.holding (.declaration (blank (c.container b d.container)))) ()
      (s.holding (.declaration (c.declaration b d)))
      (c.live d.typeParameters ++ (d.type.toList.flatMap Ty.declarations ++ (c.live d.signatures ++
        (c.live d.indexSignatures ++ (c.live d.getSignature.toList ++
        (c.live d.setSignature.toList ++ (d.overwrites.toList.flatMap Ty.declarations ++
        (d.inheritedFrom.toList.flatMap Ty.declarations ++
        (d.implementationOf.toList.flatMap Ty.declarations ++
        (d.extendedTypes.flatMap Ty.declarations ++ (d.extendedBy.flatMap Ty.declarations ++
        (d.implementedTypes.flatMap Ty.declarations ++
          d.implementedBy.flatMap Ty.declarations)))))))))))) []
      (Quiet (.declaration (c.declaration b d))) := by
  have hd : c.HoldsDeclaration inside d (c.objectFields inside r) := holdsDeclaration hv
  have hdefault : (c.objectFields inside r).text? "defaultValue" = d.defaultValue := by
    rw [Fields.text?, hd.defaultValue, Json.bind_asString?]
  have hversion : (c.objectFields inside r).text? "packageVersion" = d.packageVersion := by
    rw [Fields.text?, hd.packageVersion, Json.bind_asString?]
  have htypes : ∀ t, t ∈ d.type ∨ t ∈ d.overwrites ∨ t ∈ d.inheritedFrom ∨ t ∈ d.implementationOf ∨
      t ∈ d.extendedTypes ∨ t ∈ d.extendedBy ∨ t ∈ d.implementedTypes ∨ t ∈ d.implementedBy →
      t ∈ r.types := fun t ht => by
    simpa [Reflection.types, Variant.types, hv] using ht
  have hinner : ∀ x, x ∈ c.live d.typeParameters ∨ x ∈ c.live d.signatures ∨
      x ∈ c.live d.indexSignatures ∨ x ∈ c.live d.getSignature.toList ∨
      x ∈ c.live d.setSignature.toList → c.Nested clean inside x := fun x hx => h.nested x (by
    simp only [hv, inOrder, List.append_assoc, List.mem_append]
    grind)
  have hlisted : c.Listed clean (d.readme.getD []) := h.listed.mono fun p hp => by
    rw [Reflection.texts, Reflection.parts_eq, hv]
    exact List.mem_append_left _ <| List.mem_append_left _ (List.mem_append_right _ hp)
  rw [Reader.declaration, hdefault, hversion]
  -- One field after the other, in the order in which the reader takes them.
  refine Copies.of_eq (Copies.imp
    (Copies.bind (by omega) (Copies.of_takes (takes_sources _ d.sources hd.sources))
    (Copies.bind (by omega) (copies_childrenAt
      (fun ids => .declaration ⟨c.container b d.container, [], none, ids, [], [], none, none, none,
        none, none, none, [], [], [], [], none, none⟩) (fun _ _ => rfl)
      (fun x hx => hinner x (.inl hx)) h.dead (by omega) hshallow hd.typeParameters)
    (Copies.bind (by omega) (copies_mainType
      (fun o => .declaration ⟨c.container b d.container, [], o, _, [], [], none, none, none,
        none, none, none, [], [], [], [], none, none⟩) (fun _ => rfl) rfl
      (fun t ht => h.typed (fun _ => rfl) (htypes t (.inl ht))) (by omega) hshallow hd.type)
    (Copies.bind (by omega) (copies_childrenAt
      (fun ids => .declaration ⟨c.container b d.container, [], _, _, ids, [], none, none, none,
        none, none, none, [], [], [], [], none, none⟩) (fun _ _ => rfl)
      (fun x hx => hinner x (.inr (.inl hx))) h.dead (by omega) hshallow hd.signatures)
    (Copies.bind (by omega) (copies_childrenAt
      (fun ids => .declaration ⟨c.container b d.container, [], _, _, _, ids, none, none, none,
        none, none, none, [], [], [], [], none, none⟩) (fun _ _ => rfl)
      (fun x hx => hinner x (.inr (.inr (.inl hx)))) h.dead (by omega) hshallow hd.indexSignatures)
    (Copies.bind (by omega) (copies_childAt
      (fun id => .declaration ⟨c.container b d.container, [], _, _, _, _, id, none, none,
        none, none, none, [], [], [], [], none, none⟩) (fun _ _ => rfl)
      (fun x hx => hinner x (.inr (.inr (.inr (.inl hx))))) h.dead (by omega) hshallow
      hd.getSignature)
    (Copies.bind (by omega) (copies_childAt
      (fun id => .declaration ⟨c.container b d.container, [], _, _, _, _, _, id, none,
        none, none, none, [], [], [], [], none, none⟩) (fun _ _ => rfl)
      (fun x hx => hinner x (.inr (.inr (.inr (.inr hx))))) h.dead (by omega) hshallow
      hd.setSignature)
    (Copies.bind (by omega) (copies_typeAt?
      (fun t ht => h.typed (fun _ => rfl) (htypes t (.inr (.inl ht)))) (by omega) hshallow
      hd.overwrites)
    (Copies.bind (by omega) (copies_typeAt?
      (fun t ht => h.typed (fun _ => rfl) (htypes t (.inr (.inr (.inl ht))))) (by omega) hshallow
      hd.inheritedFrom)
    (Copies.bind (by omega) (copies_typeAt?
      (fun t ht => h.typed (fun _ => rfl) (htypes t (.inr (.inr (.inr (.inl ht))))))
      (by omega) hshallow hd.implementationOf)
    (Copies.bind (by omega) (copies_typesAt
      (fun t ht => h.typed (fun _ => rfl) (htypes t (.inr (.inr (.inr (.inr (.inl ht)))))))
      (by omega) hshallow (Fields.items_of_listField hd.extendedTypes))
    (Copies.bind (by omega) (copies_typesAt
      (fun t ht => h.typed (fun _ => rfl) (htypes t (.inr (.inr (.inr (.inr (.inr (.inl ht))))))))
      (by omega) hshallow (Fields.items_of_listField hd.extendedBy))
    (Copies.bind (by omega) (copies_typesAt
      (fun t ht => h.typed (fun _ => rfl)
        (htypes t (.inr (.inr (.inr (.inr (.inr (.inr (.inl ht)))))))))
      (by omega) hshallow (Fields.items_of_listField hd.implementedTypes))
    (Copies.bind (by omega) (copies_typesAt
      (fun t ht => h.typed (fun _ => rfl)
        (htypes t (.inr (.inr (.inr (.inr (.inr (.inr (.inr ht)))))))))
      (by omega) hshallow (Fields.items_of_listField hd.implementedBy))
    (Copies.bind (by omega) (Copies.of_takes (takes_parts? h.legible _ "readme" d.readme
      hd.readme hlisted))
    (Copies.edit _)))))))))))))))) fun hstill => ⟨fun t ht => ?_, fun p hp => ?_⟩)
    (by simp only [List.append_nil, List.nil_append]) rfl
  · obtain ⟨-, -, h1, -, -, -, -, h2, h3, h4, h5, h6, h7, h8, -⟩ := hstill
    simp only [Variant.types, declaration, List.mem_append, Option.mem_toList] at ht
    rcases ht with ((((((ht | ht) | ht) | ht) | ht) | ht) | ht) | ht
    · exact h1 t ht
    · exact h2 t ht
    · exact h3 t ht
    · exact h4 t ht
    · exact h5 t ht
    · exact h6 t ht
    · exact h7 t ht
    · exact h8 t ht
  · obtain ⟨-, -, -, -, -, -, -, -, -, -, -, -, -, -, h1, -⟩ := hstill
    exact h1 p hp

theorem filled_declaration (h : c.Readable clean inside r) {d : Declaration}
    (hv : r.variant = .declaration d) (hb : n < b)
    (hshallow : Shallow (c.objectFields inside r) depth) :
    c.Filled clean inside n b depth s r (.declaration (blank .empty)) := by
  have hcontainer := copies_container (s := s) h
    (fun children documents => .declaration (blank ⟨children, documents, none, none⟩))
    (fun _ _ => rfl) (fun _ _ _ => rfl) (k := d.container) (by rw [Reflection.container?, hv])
    (fun x hx => h.nested x (by
      simp only [hv, inOrder, List.append_assoc, List.mem_append] at hx ⊢
      grind)) hb hshallow
  have hrest := copies_declaration (s := s) h hv hb hshallow
  rw [Nat.add_assoc, ← total_append] at hrest
  have hwork : c.targetWork n r = [] := by rw [targetWork, hv]
  rw [Filled, hwork, Reflection.tag, hv]
  refine Copies.of_eq (Copies.imp (Copies.bind hb hcontainer hrest) And.right) ?_ rfl
  simp only [inOrder, List.append_assoc]

theorem filled_project (h : c.Readable clean inside r) {d : ProjectData}
    (hv : r.variant = .project d) (hb : n < b)
    (hshallow : Shallow (c.objectFields inside r) depth) :
    c.Filled clean inside n b depth s r (.project ⟨.empty, none, none, none⟩) := by
  have hcontainer := copies_container (s := s) h
    (fun children documents => .project ⟨⟨children, documents, none, none⟩, none, none, none⟩)
    (fun _ _ => rfl) (fun _ _ _ => rfl) (k := d.container) (by rw [Reflection.container?, hv])
    (fun x hx => h.nested x (by rwa [hv])) hb hshallow
  have hvalue : ∀ {key v}, key ∈ variantKeys .project → (c.projectFields d).value? key = v →
      (c.objectFields inside r).value? key = v := fun hkey hd => by
    rw [value?_variant .project hkey, variantFields, hv, ← hd]
  have hname : (c.objectFields inside r).text? "packageName" = d.packageName := by
    rw [Fields.text?, hvalue (by simp [variantKeys]) rfl]
    simp [projectFields]
  have hversion : (c.objectFields inside r).text? "packageVersion" = d.packageVersion := by
    rw [Fields.text?, hvalue (by simp [variantKeys]) rfl]
    simp [projectFields]
  have hlisted : c.Listed clean (d.readme.getD []) := h.listed.mono fun p hp => by
    rw [Reflection.texts, Reflection.parts_eq, hv]
    exact List.mem_append_left _ <| List.mem_append_left _ (List.mem_append_right _ hp)
  have hreadme := takes_parts? h.legible (c.objectFields inside r) "readme" d.readme
    (hvalue (by simp [variantKeys]) (by simp [projectFields])) hlisted
  have hwork : c.targetWork n r = [] := by rw [targetWork, hv]
  rw [Filled, hwork, Reflection.tag, hv]
  simp only [Variant.tag, Reader.variantFields, Reader.projectData, hname, hversion]
  exact Copies.of_eq (Copies.imp (Copies.bind hb hcontainer
    (Copies.bind (Nat.lt_add_right _ hb) (Copies.of_takes hreadme) (Copies.edit _)))
    fun hstill => ⟨fun t ht => (List.not_mem_nil ht).elim, hstill.2.1⟩) (List.append_nil _) rfl

/-- The fields of the variant fill a bare reflection. -/
theorem filled_bare (h : c.Readable clean inside r) (hb : n < b)
    (hshallow : Shallow (c.objectFields inside r) depth) :
    c.Filled clean inside n b depth s r (bare r).variant := by
  rw [bare]
  cases hv : r.variant with
  | project d => exact filled_project h hv hb hshallow
  | declaration d => exact filled_declaration h hv hb hshallow
  | signature d => exact filled_signature h hv hb hshallow
  | param d => exact filled_param h hv hb hshallow
  | typeParam d => exact filled_typeParam h hv hb hshallow
  | reference t => exact filled_reference h hv
  | document d => exact filled_document h hv hb

end Copying

end DocTree
