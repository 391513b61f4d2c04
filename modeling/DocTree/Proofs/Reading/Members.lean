import DocTree.Proofs.Reading.Fills

/-!
Reading the fields of a reflection of each variant. In the end the variant holds what was read: its
slots and types name exactly the children that were registered, and what it points at is among what was
read.
-/

namespace DocTree

/-- What a variant holds before its fields are read. -/
def Variant.blank : VariantTag → Variant
  | .project => .project ⟨.empty, none, none, none⟩
  | .declaration => .declaration
    ⟨.empty, [], none, [], [], [], none, none, none, none, none, none, [], [], [], [], none, none⟩
  | .signature => .signature ⟨[], [], [], none, none, none, none⟩
  | .param => .param ⟨none, none⟩
  | .typeParam => .typeParam ⟨none, none, none⟩
  | .reference => .reference .broken
  | .document => .document ⟨[], []⟩

/-- The reflections that the types and texts of a variant point at. -/
def Variant.aims (v : Variant) : List Aim := v.types.flatMap Ty.aims ++ Part.aims v.parts

variable {e : Site} {n base depth : Nat} {W : Prop} {c : Constructors} {fields : Fields}

/-- After the action the variant is `w`, and nothing was read in vain. -/
def FillsTo (e : Site) (n base : Nat) (W : Prop) (m : Relocation → ReadM Unit)
    (v : Relocation → Variant) (w : Variant) : Prop :=
  ∃ (kids : List ReflectionId) (aims : List Aim) (y : Crop),
    Fills e n base W m v (fun _ => ()) (fun μ => μ.variant w) kids aims y ∧
      kids.Perm w.childIds ∧ (∀ x ∈ w.aims, x ∈ aims) ∧ w.Plain

section Variants

variable (hc : c.Sound e W depth) (hw : fields.Within (depth + 1) W) (he : ¬ e.clean)
include hc hw

/-! ### Containers -/

include he in
/-- Children and documents, in whatever variant they are put. -/
theorem fills_container (hn : n < base) :
    ∃ (cs docs : List ReflectionId) (y : Crop), ∀ put : Container → Variant,
      (∀ k i, (put k).attach? i .children = some (put { k with children := k.children ++ [i] })) →
      (∀ k i, (put k).attach? i .documents = some (put { k with documents := k.documents ++ [i] })) →
      Fills e n base W (fun μ => Reader.container c (μ.number n) fields) (fun _ => put .empty)
        (fun _ => ()) (fun μ => put ⟨cs.map μ.number, docs.map μ.number, none, none⟩) (cs ++ docs) []
        y := by
  have hchildren : ∀ o ∈ fields.objects "children", o.Within depth W := fun _ ho => hw.objects ho
  have hdocuments : ∀ o ∈ fields.objects "documents", o.Within depth W := fun _ ho => hw.objects ho
  obtain ⟨cs, y₁, h₁⟩ := fills_objects hc .children hchildren hn
  have hn₁ := Nat.lt_add_right y₁.block.length hn
  obtain ⟨docs, y₂, h₂⟩ := fills_objects hc .documents hdocuments hn₁
  have hn₂ := Nat.lt_add_right y₂.block.length hn₁
  obtain ⟨gs, hgs⟩ := Reader.quotes_groups? he fields
  obtain ⟨ks, hks⟩ := Reader.quotes_categories? he fields
  obtain ⟨y₃, h₃⟩ := Fills.of_quotes hgs
  have hn₃ := Nat.lt_add_right y₃.block.length hn₂
  obtain ⟨y₄, h₄⟩ := Fills.of_quotes hks
  let work : Deferred := .groupings n gs ks
  have hold : ∀ x ∈ work.aims, x.isOld = true := by
    intro x hx
    rcases List.mem_append.mp hx with hx | hx
    · exact hgs.isOld x hx
    · exact hks.isOld x hx
  let last : Crop := if gs.isSome || ks.isSome then .work work else .none
  have hlast : ∀ (next : Nat) (v : Relocation → Variant), Fills e n next W
      (fun μ => if (gs.map (·.map μ.draftGroup)).isSome || (ks.map (·.map μ.draftCategory)).isSome then
        ReadM.defer (.groupings (μ.number n) (gs.map (·.map μ.draftGroup))
          (ks.map (·.map μ.draftCategory))) else Pure.pure ()) v (fun _ => ()) v [] [] last := by
    intro next v
    simp only [Option.isSome_map, last]
    split
    · exact .defer rfl hold
    · exact .pure _
  refine ⟨cs, docs, y₁ ++ (y₂ ++ (y₃ ++ (y₄ ++ last))), fun put hchild hdocument => ?_⟩
  have hcs := h₁ (fun _ ids => put ⟨ids, [], none, none⟩) (fun _ _ _ => hchild _ _) []
  have hdocs := h₂ (fun μ ids => put ⟨cs.map μ.number, ids, none, none⟩)
    (fun _ _ _ => hdocument _ _) []
  exact Fills.congr (hcs.bind hn (hdocs.bind hn₁ (h₃.bind hn₂ (h₄.bind hn₃ (hlast _ _)))))
    (by simp) (by simp)

/-! ### Variants -/

include he in
theorem fills_project (hn : n < base) : ∃ w : Variant, w.tag = .project ∧
    FillsTo e n base W (fun μ => Reader.variantFields c (μ.number n) fields .project)
      (fun _ => .blank .project) w := by
  obtain ⟨cs, docs, y₁, h⟩ := fills_container hc hw he hn
  have h₁ := h (fun k => .project ⟨k, none, none, none⟩) (fun _ _ => rfl) (fun _ _ => rfl)
  obtain ⟨ps, hps⟩ := Reader.quotes_parts? he fields "readme"
  obtain ⟨y₂, h₂⟩ := Fills.of_quotes hps
  have hn₁ := Nat.lt_add_right y₁.block.length hn
  let w : Variant := .project ⟨⟨cs, docs, none, none⟩, fields.text? "packageName",
    fields.text? "packageVersion", ps⟩
  refine ⟨w, rfl, _, _, _, h₁.bind hn (h₂.bind hn₁ (.edit fun _ _ => rfl)), ?_, ?_, rfl, rfl⟩
  · rw [Variant.childIds_eq]
    simp [w, Variant.slots]
  · intro x hx
    simpa [w, Variant.aims, Variant.types, Variant.parts] using hx

theorem fills_param (hn : n < base) : ∃ w : Variant, w.tag = .param ∧
    FillsTo e n base W (fun μ => Reader.variantFields c (μ.number n) fields .param)
      (fun _ => .blank .param) w := by
  obtain ⟨t, y₁, h₁⟩ := fills_mainType hc (fun _ t => .param ⟨t, none⟩) (fun _ _ => rfl) (fun _ => rfl)
    (fun _ _ => rfl) hw hn
  let w : Variant := .param ⟨t, fields.text? "defaultValue"⟩
  refine ⟨w, rfl, _, _, _, h₁.bind hn (.edit fun _ _ => rfl), ?_, ?_, trivial⟩
  · rw [Variant.childIds_eq]
    simp [w, Variant.slots, Variant.literals, Variant.types]
  · intro x hx
    simpa [w, Variant.aims, Variant.types, Variant.parts] using hx

theorem fills_typeParam (hn : n < base) : ∃ w : Variant, w.tag = .typeParam ∧
    FillsTo e n base W (fun μ => Reader.variantFields c (μ.number n) fields .typeParam)
      (fun _ => .blank .typeParam) w := by
  obtain ⟨t, y₁, h₁⟩ := fills_mainType hc (fun _ t => .typeParam ⟨t, none, none⟩) (fun _ _ => rfl)
    (fun _ => rfl) (fun _ _ => rfl) hw hn
  have hn₁ := Nat.lt_add_right y₁.block.length hn
  obtain ⟨d, y₂, hd, -⟩ := hc.typeAt hw hn₁ "default"
  have h₂ := Fills.of_gathers (v := fun μ => .typeParam ⟨t.map μ.ty, none, none⟩) hd fun _ _ => rfl
  let w : Variant := .typeParam
    ⟨t, d, (fields.text? "varianceModifier").bind Variance.ofWord?⟩
  refine ⟨w, rfl, _, _, _, h₁.bind hn (h₂.bind hn₁ (.edit fun _ _ => rfl)), ?_, ?_, trivial⟩
  · rw [Variant.childIds_eq]
    simp [w, Variant.slots, Variant.literals, Variant.types]
  · intro x hx
    simpa [w, Variant.aims, Variant.types, Variant.parts] using hx

theorem fills_signature (hn : n < base) : ∃ w : Variant, w.tag = .signature ∧
    FillsTo e n base W (fun μ => Reader.variantFields c (μ.number n) fields .signature)
      (fun _ => .blank .signature) w := by
  obtain ⟨ss, hss⟩ := Reader.quotes_sources (e := e) fields
  obtain ⟨y₁, h₁⟩ := Fills.of_quotes hss
  have hn₁ := Nat.lt_add_right y₁.block.length hn
  obtain ⟨tps, y₂, h₂⟩ := fills_childrenAt hc .typeParameter
    (fun _ ids => .signature ⟨[], [], ids, none, none, none, none⟩) (fun _ _ _ => rfl) hw
    "typeParameters" hn₁
  have hn₂ := Nat.lt_add_right y₂.block.length hn₁
  obtain ⟨ps, y₃, h₃⟩ := fills_childrenAt hc .parameters
    (fun μ ids => .signature ⟨[], ids, tps.map μ.number, none, none, none, none⟩) (fun _ _ _ => rfl)
    hw "parameters" hn₂
  have hn₃ := Nat.lt_add_right y₃.block.length hn₂
  obtain ⟨t, y₄, h₄⟩ := fills_mainType hc (fun μ t =>
    .signature ⟨[], ps.map μ.number, tps.map μ.number, t, none, none, none⟩) (fun _ _ => rfl)
    (fun _ => rfl) (fun _ _ => rfl) hw hn₃
  have hn₄ := Nat.lt_add_right y₄.block.length hn₃
  let v : Relocation → Variant := fun μ =>
    .signature ⟨[], ps.map μ.number, tps.map μ.number, t.map μ.ty, none, none, none⟩
  have hv : ∀ μ, (v μ).OwnsTypes := fun _ _ => rfl
  obtain ⟨o₁, y₅, h₅, -⟩ := hc.typeAt hw hn₄ "overwrites"
  have hn₅ := Nat.lt_add_right y₅.block.length hn₄
  obtain ⟨o₂, y₆, h₆, -⟩ := hc.typeAt hw hn₅ "inheritedFrom"
  have hn₆ := Nat.lt_add_right y₆.block.length hn₅
  obtain ⟨o₃, y₇, h₇, -⟩ := hc.typeAt hw hn₆ "implementationOf"
  let w : Variant := .signature ⟨ss, ps, tps, t, o₁, o₂, o₃⟩
  refine ⟨w, rfl, _, _, _, h₁.bind hn (h₂.bind hn₁ (h₃.bind hn₂ (h₄.bind hn₃
    ((Fills.of_gathers h₅ hv).bind hn₄ ((Fills.of_gathers h₆ hv).bind hn₅
    ((Fills.of_gathers h₇ hv).bind hn₆ (.edit fun _ _ => rfl))))))), ?_, ?_, trivial⟩
  · rw [Variant.childIds_eq, List.perm_iff_count]
    intro x
    simp only [w, Variant.slots, Variant.literals, Variant.types, List.flatMap_append,
      List.flatMap_cons, List.flatMap_nil, List.count_append, List.count_nil]
    omega
  · intro x hx
    simpa [w, Variant.aims, Variant.types, Variant.parts, or_assoc] using hx

omit hc hw in
theorem fills_reference : ∃ w : Variant, w.tag = .reference ∧
    FillsTo e n base W (fun μ => Reader.variantFields c (μ.number n) fields .reference)
      (fun _ => .blank .reference) w := by
  have hread : ∃ y : Crop, Fills e n base W (fun μ => Reader.referenceTarget (μ.number n) fields)
      (fun _ => .blank .reference) (fun _ => ()) (fun _ => .blank .reference) [] [] y := by
    unfold Reader.referenceTarget
    split
    · next old _ => exact ⟨_, Fills.defer (d := .target n old) rfl (by simp [Deferred.aims])⟩
    · exact ⟨_, .pure _⟩
  obtain ⟨y, h⟩ := hread
  refine ⟨.blank .reference, rfl, _, _, y, h, ?_, ?_, rfl⟩
  · exact .refl _
  · intro x hx
    cases hx

omit hc hw in
include he in
theorem fills_document (hn : n < base) : ∃ w : Variant, w.tag = .document ∧
    FillsTo e n base W (fun μ => Reader.variantFields c (μ.number n) fields .document)
      (fun _ => .blank .document) w := by
  obtain ⟨ps, hps⟩ := Reader.quotes_parts he (fields.value? "content")
  obtain ⟨y₁, h₁⟩ := Fills.of_quotes hps
  let w : Variant := .document ⟨ps, (fields.object? "frontmatter").getD []⟩
  refine ⟨w, rfl, _, _, _, h₁.bind hn (.edit fun _ _ => rfl), ?_, ?_, trivial⟩
  · rw [Variant.childIds_eq]
    simp [w, Variant.slots]
  · intro x hx
    simpa [w, Variant.aims, Variant.types, Variant.parts] using hx

include he in
/-- The fields of a declaration, its children and documents having been read. -/
theorem fills_declared (k : Container) (hn : n < base) :
    ∃ (d : Declaration) (kids : List ReflectionId) (aims : List Aim) (y : Crop), d.container = k ∧
      Fills e n base W (fun μ => Reader.declaration c (μ.number n) fields)
        (fun μ => .declaration ⟨μ.container k, [], none, [], [], [], none, none, none, none, none, none,
          [], [], [], [], none, none⟩) (fun _ => ()) (fun μ => μ.variant (.declaration d)) kids aims y ∧
      (k.children ++ k.documents ++ kids).Perm (Variant.declaration d).childIds ∧
      ∀ x ∈ (Variant.declaration d).aims, x ∈ aims := by
  obtain ⟨ss, hss⟩ := Reader.quotes_sources (e := e) fields
  obtain ⟨y₁, h₁⟩ := Fills.of_quotes hss
  have hn₁ := Nat.lt_add_right y₁.block.length hn
  -- The children of a declaration enter their slots one key after the other.
  obtain ⟨tps, y₂, h₂⟩ := fills_childrenAt hc .typeParameter (fun μ ids => .declaration
    ⟨μ.container k, [], none, ids, [], [], none, none, none, none, none, none, [], [], [], [], none,
      none⟩) (fun _ _ _ => rfl) hw "typeParameters" hn₁
  have hn₂ := Nat.lt_add_right y₂.block.length hn₁
  obtain ⟨t, y₃, h₃⟩ := fills_mainType hc (fun μ t => .declaration
    ⟨μ.container k, [], t, tps.map μ.number, [], [], none, none, none, none, none, none, [], [], [], [],
      none, none⟩) (fun _ _ => rfl) (fun _ => rfl) (fun _ _ => rfl) hw hn₂
  have hn₃ := Nat.lt_add_right y₃.block.length hn₂
  obtain ⟨sigs, y₄, h₄⟩ := fills_childrenAt hc .signatures (fun μ ids => .declaration
    ⟨μ.container k, [], t.map μ.ty, tps.map μ.number, ids, [], none, none, none, none, none, none, [],
      [], [], [], none, none⟩) (fun _ _ _ => rfl) hw "signatures" hn₃
  have hn₄ := Nat.lt_add_right y₄.block.length hn₃
  obtain ⟨isigs, y₅, h₅⟩ := fills_childrenAt hc .indexSignature (fun μ ids => .declaration
    ⟨μ.container k, [], t.map μ.ty, tps.map μ.number, sigs.map μ.number, ids, none, none, none, none,
      none, none, [], [], [], [], none, none⟩) (fun _ _ _ => rfl) hw "indexSignatures" hn₄
  have hn₅ := Nat.lt_add_right y₅.block.length hn₄
  obtain ⟨get, y₆, h₆⟩ := fills_childAt hc .getSignature (fun μ id => .declaration
    ⟨μ.container k, [], t.map μ.ty, tps.map μ.number, sigs.map μ.number, isigs.map μ.number, id, none,
      none, none, none, none, [], [], [], [], none, none⟩) (fun _ _ _ => rfl) hw "getSignature" hn₅
  have hn₆ := Nat.lt_add_right y₆.block.length hn₅
  obtain ⟨set, y₇, h₇⟩ := fills_childAt hc .setSignature (fun μ id => .declaration
    ⟨μ.container k, [], t.map μ.ty, tps.map μ.number, sigs.map μ.number, isigs.map μ.number,
      get.map μ.number, id, none, none, none, none, [], [], [], [], none, none⟩) (fun _ _ _ => rfl) hw
    "setSignature" hn₆
  have hn₇ := Nat.lt_add_right y₇.block.length hn₆
  -- The types are held until all of them have been read.
  let v : Relocation → Variant := fun μ => .declaration
    ⟨μ.container k, [], t.map μ.ty, tps.map μ.number, sigs.map μ.number, isigs.map μ.number,
      get.map μ.number, set.map μ.number, none, none, none, none, [], [], [], [], none, none⟩
  have hv : ∀ μ, (v μ).OwnsTypes := fun _ _ => rfl
  obtain ⟨o₁, z₁, t₁, -⟩ := hc.typeAt hw hn₇ "overwrites"
  have hm₁ := Nat.lt_add_right z₁.block.length hn₇
  obtain ⟨o₂, z₂, t₂, -⟩ := hc.typeAt hw hm₁ "inheritedFrom"
  have hm₂ := Nat.lt_add_right z₂.block.length hm₁
  obtain ⟨o₃, z₃, t₃, -⟩ := hc.typeAt hw hm₂ "implementationOf"
  have hm₃ := Nat.lt_add_right z₃.block.length hm₂
  obtain ⟨l₁, z₄, t₄⟩ := hc.typesAt hw hm₃ "extendedTypes"
  have hm₄ := Nat.lt_add_right z₄.block.length hm₃
  obtain ⟨l₂, z₅, t₅⟩ := hc.typesAt hw hm₄ "extendedBy"
  have hm₅ := Nat.lt_add_right z₅.block.length hm₄
  obtain ⟨l₃, z₆, t₆⟩ := hc.typesAt hw hm₅ "implementedTypes"
  have hm₆ := Nat.lt_add_right z₆.block.length hm₅
  obtain ⟨l₄, z₇, t₇⟩ := hc.typesAt hw hm₆ "implementedBy"
  have hm₇ := Nat.lt_add_right z₇.block.length hm₆
  obtain ⟨ps, hps⟩ := Reader.quotes_parts? he fields "readme"
  obtain ⟨z₈, h₈⟩ := Fills.of_quotes hps
  let d : Declaration := ⟨k, ss, t, tps, sigs, isigs, get, set, fields.text? "defaultValue", o₁, o₂, o₃,
    l₁, l₂, l₃, l₄, fields.text? "packageVersion", ps⟩
  have htypes : (Variant.declaration d).types =
      t.toList ++ o₁.toList ++ o₂.toList ++ o₃.toList ++ l₁ ++ l₂ ++ l₃ ++ l₄ := rfl
  refine ⟨d, _, _, _, rfl, h₁.bind hn (h₂.bind hn₁ (h₃.bind hn₂ (h₄.bind hn₃ (h₅.bind hn₄
    (h₆.bind hn₅ (h₇.bind hn₆ ((Fills.of_gathers t₁ hv).bind hn₇ ((Fills.of_gathers t₂ hv).bind hm₁
    ((Fills.of_gathers t₃ hv).bind hm₂ ((Fills.of_gathers t₄ hv).bind hm₃
    ((Fills.of_gathers t₅ hv).bind hm₄ ((Fills.of_gathers t₆ hv).bind hm₅
    ((Fills.of_gathers t₇ hv).bind hm₆ (h₈.bind hm₇ (.edit fun _ _ => rfl))))))))))))))), ?_, ?_⟩
  · rw [Variant.childIds_eq, List.perm_iff_count]
    intro x
    simp only [d, Variant.slots, Variant.literals, htypes, List.flatMap_append, List.flatMap_cons,
      List.flatMap_nil, List.count_append, List.count_nil]
    omega
  · intro x hx
    rw [Variant.aims, htypes] at hx
    simpa [Variant.parts, or_assoc] using hx

include he in
theorem fills_declaration (hn : n < base) : ∃ w : Variant, w.tag = .declaration ∧
    FillsTo e n base W (fun μ => Reader.variantFields c (μ.number n) fields .declaration)
      (fun _ => .blank .declaration) w := by
  obtain ⟨cs, docs, y₁, h⟩ := fills_container hc hw he hn
  have h₁ := h (fun k => .declaration
    ⟨k, [], none, [], [], [], none, none, none, none, none, none, [], [], [], [], none, none⟩)
    (fun _ _ => rfl) (fun _ _ => rfl)
  obtain ⟨d, kids, aims, y₂, hd, h₂, hkids, haims⟩ := fills_declared hc hw he ⟨cs, docs, none, none⟩
    (Nat.lt_add_right y₁.block.length hn)
  refine ⟨.declaration d, rfl, _, _, _, h₁.bind hn h₂, hkids, haims, ?_⟩
  rw [Variant.Plain, hd]
  exact ⟨rfl, rfl⟩

include he in
/-- The fields of every variant. -/
theorem fills_variant (tag : VariantTag) (hn : n < base) : ∃ w : Variant, w.tag = tag ∧
    FillsTo e n base W (fun μ => Reader.variantFields c (μ.number n) fields tag)
      (fun _ => .blank tag) w := by
  cases tag with
  | project => exact fills_project hc hw he hn
  | declaration => exact fills_declaration hc hw he hn
  | signature => exact fills_signature hc hw hn
  | param => exact fills_param hc hw hn
  | typeParam => exact fills_typeParam hc hw hn
  | reference => exact fills_reference
  | document => exact fills_document he hn

end Variants

end DocTree
