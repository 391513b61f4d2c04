import DocTree.Proofs.Reading.Texts

/-!
Reading any type. The parts of a type are read one after the other, and the declarations in them are
registered on the way. A type that comes about owns exactly these declarations; one that lacks a part is
dropped, and then the declarations that were registered for it are owned by nothing. `Makes` follows the
parts that are in hand while a type is made.
-/

namespace DocTree

/-! ### What a type owns and points at -/

theorem Ty.mem_aims {t : Ty} {x : Aim} : x ∈ t.aims ↔
    (∃ entry, t.ref? = some entry ∧ entry.1.target.aim? = some x) ∨
      x ∈ Part.aims (t.summaries?.getD []).flatten ∨ ∃ a ∈ t.children, x ∈ a.aims := by
  rw [aims, references_eq, parts_eq]
  simp only [Part.aims, aims, List.filterMap_append, List.mem_append, List.mem_filterMap,
    List.mem_flatMap, Option.mem_toList]
  grind

/-- Nothing is owned, pointed at or said at the root of the type. -/
def Ty.Plain (t : Ty) : Prop := t.declaration? = none ∧ t.ref? = none ∧ t.summaries? = none

theorem Ty.Plain.declarations {t : Ty} (h : t.Plain) :
    t.children.flatMap Ty.declarations = t.declarations := eq_declarations h.1 rfl

theorem Ty.Plain.aims {t : Ty} (h : t.Plain) {x : Aim} (hx : x ∈ t.aims) :
    x ∈ t.children.flatMap Ty.aims := by
  rcases mem_aims.mp hx with ⟨entry, hentry, -⟩ | hx | ⟨a, ha, hx⟩
  · rw [h.2.1] at hentry
    cases hentry
  · rw [h.2.2] at hx
    cases hx
  · exact List.mem_flatMap.mpr ⟨a, ha, hx⟩

variable {e : Site} {n base depth : Nat} {W : Prop} {fields : Fields} {c : Constructors}

/-- What constructors make of the objects within some depth: a type with all that it owns, or a
reflection in a slot of the active one. -/
structure Constructors.Sound (c : Constructors) (e : Site) (W : Prop) (depth : Nat) : Prop where
  type : ∀ fields : Fields, fields.Within depth W → ∀ n base, n < base →
    ∃ (a : Option Ty) (y : Crop), Gathers e n base W (fun _ => c.type fields) (fun μ => a.map μ.ty)
      (a.toList.flatMap Ty.declarations) (a.toList.flatMap Ty.aims) y ∧
      (∀ t ∈ a, fields.typeKind? = some t.kind) ∧
      (W → fields.typeKind?.isSome = true → a.isSome = true)
  reflection : ∀ (fields : Fields) (role : Role), fields.Within depth W → ∀ n base, n < base →
    ∃ (id : Option ReflectionId) (y : Crop), (∀ i ∈ id, i = base) ∧ y.Sound n base W id.toList ∧
      (∀ (μ : Relocation) (r : Reflection) (v : Variant),
        r.variant.attach? (μ.number base) role = some v →
        Reads (μ.site e) (μ.number n) (μ.number base) (c.reflection fields role) r
          (id.map μ.number) (id.elim r fun _ => r.holding v) (μ.crop y)) ∧
      (W → ∀ tag, fields.variantTag? = some tag → tag ≠ .project → id.isSome = true)

namespace Constructors.Sound

theorem typeAt (h : c.Sound e W depth) (hw : fields.Within (depth + 1) W) (hn : n < base)
    (key : String) : ∃ (a : Option Ty) (y : Crop),
      Gathers e n base W (fun _ => c.typeAt fields key) (fun μ => a.map μ.ty)
        (a.toList.flatMap Ty.declarations) (a.toList.flatMap Ty.aims) y ∧
      (W → ∀ inner, fields.object? key = some inner → inner.typeKind?.isSome = true →
        ∃ t, a = some t ∧ inner.typeKind? = some t.kind) := by
  cases hinner : fields.object? key with
  | none =>
    refine ⟨Option.none, .none, ?_, ?_⟩
    · simp only [Constructors.typeAt, hinner]
      exact .pure _
    · intro _ inner heq
      cases heq
  | some inner =>
    obtain ⟨a, y, hread, hkind, hsome⟩ := h.type inner (hw.object? hinner) n base hn
    refine ⟨a, y, ?_, ?_⟩
    · simp only [Constructors.typeAt, hinner]
      exact hread
    · intro hW inner' heq hknown
      obtain rfl := Option.some.inj heq
      obtain ⟨t, rfl⟩ := Option.isSome_iff_exists.mp (hsome hW hknown)
      exact ⟨t, rfl, hkind t rfl⟩

theorem typesAt (h : c.Sound e W depth) (hw : fields.Within (depth + 1) W) (hn : n < base)
    (key : String) : ∃ (ts : List Ty) (y : Crop),
      Gathers e n base W (fun _ => c.typesAt fields key) (fun μ => ts.map μ.ty)
        (ts.flatMap Ty.declarations) (ts.flatMap Ty.aims) y := by
  refine Gathers.collect hn ?_
  intro inner hinner base hn
  obtain ⟨a, y, hread, -, -⟩ := h.type inner (hw.objects hinner) n base hn
  exact ⟨a, y, hread⟩

end Constructors.Sound

/-! ### Types in the making -/

/-- With the types `ts` in hand, the action makes a type of this kind of them and of what it reads
itself, or drops them all, which it does not if `W` holds. -/
def Makes (e : Site) (n base : Nat) (W : Prop) (kind : TypeKind) (ts : List Ty)
    (m : Relocation → ReadM (Option Ty)) : Prop :=
  ∃ (a : Option Ty) (ds : List ReflectionId) (aims : List Aim) (y : Crop),
    Gathers e n base W m (fun μ => a.map μ.ty) ds aims y ∧ (a = none → ¬ W ∧ ds = []) ∧
      ∀ t, a = some t → t.kind = kind ∧ (ts.flatMap Ty.declarations ++ ds).Perm t.declarations ∧
        ∀ x ∈ t.aims, x ∈ ts.flatMap Ty.aims ++ aims

namespace Makes

variable {kind : TypeKind} {ts : List Ty} {m : Relocation → ReadM (Option Ty)} {ds : List ReflectionId}
  {aims : List Aim} {y : Crop}

theorem of_gathers {t : Ty} (hkind : t.kind = kind)
    (h : Gathers e n base W m (fun μ => some (μ.ty t)) ds aims y)
    (hds : (ts.flatMap Ty.declarations ++ ds).Perm t.declarations)
    (haims : ∀ x ∈ t.aims, x ∈ ts.flatMap Ty.aims ++ aims) : Makes e n base W kind ts m := by
  refine ⟨some t, ds, aims, y, h, ?_, ?_⟩
  · intro hnone
    cases hnone
  · intro t' ht'
    obtain rfl := Option.some.inj ht'
    exact ⟨hkind, hds, haims⟩

/-- The type is dropped. -/
theorem dropped (hW : ¬ W) : Makes e n base W kind ts fun _ => Pure.pure none :=
  ⟨none, [], [], .none, .pure _, fun _ => ⟨hW, rfl⟩, fun _ h => by cases h⟩

/-- A part without which the type is dropped. -/
theorem need {m : ReadM (Option Ty)} {g : Relocation → Option Ty → ReadM (Option Ty)} (hn : n < base)
    (h : ∃ (a : Option Ty) (y : Crop), Gathers e n base W (fun _ => m) (fun μ => a.map μ.ty)
      (a.toList.flatMap Ty.declarations) (a.toList.flatMap Ty.aims) y ∧ (W → a.isSome = true))
    (hnone : ∀ μ, g μ none = Pure.pure none)
    (hsome : ∀ t next, n < next → Makes e n next W kind (ts ++ [t]) fun μ => g μ (some (μ.ty t))) :
    Makes e n base W kind ts fun μ => m >>= g μ := by
  obtain ⟨a, y, hread, hW⟩ := h
  cases a with
  | none =>
    have hdrop : ¬ W := by
      intro h
      cases hW h
    refine ⟨none, [], [], y ++ .none, ?_, fun _ => ⟨hdrop, rfl⟩, fun _ h => by cases h⟩
    refine hread.bind hn ?_
    have hpure : (fun μ : Relocation => g μ (Option.map μ.ty none)) = fun _ => Pure.pure none :=
      funext hnone
    rw [hpure]
    exact .pure _
  | some t =>
    obtain ⟨b, es, aims, z, hrest, hdrop, hmade⟩ :=
      hsome t (base + y.block.length) (Nat.lt_add_right _ hn)
    have hboth := hread.bind hn hrest
    simp only [Option.toList_some, List.flatMap_singleton] at hboth
    cases b with
    | none =>
      have hW := (hdrop rfl).1
      exact ⟨none, [], [], y ++ z, hboth.drop hW, fun _ => ⟨hW, rfl⟩, fun _ h => by cases h⟩
    | some u =>
      obtain ⟨hkind, hds, haims⟩ := hmade u rfl
      simp only [List.flatMap_append, List.flatMap_singleton, List.append_assoc] at hds haims
      exact of_gathers hkind hboth hds haims

/-- All parts are in hand. -/
theorem done {b : Relocation → Ty} (t : Ty) (hb : ∀ μ, b μ = μ.ty t) (hkind : t.kind = kind)
    (ht : t.Plain) (hchildren : t.children = ts) : Makes e n base W kind ts fun μ => Pure.pure (some (b μ)) := by
  have hpure : Gathers e n base W (fun μ => Pure.pure (some (b μ))) (fun μ => some (μ.ty t)) [] []
      .none := by
    simp only [hb]
    exact .pure _
  refine of_gathers hkind hpure ?_ ?_
  · rw [List.append_nil, ← hchildren, ht.declarations]
  · intro x hx
    rw [List.append_nil, ← hchildren]
    exact ht.aims hx

/-- The last parts are read, and then all parts are in hand. -/
theorem finish {α : Type} {m : ReadM α} {a : Relocation → α} {b : Relocation → α → Ty} (us : List Ty)
    (h : Gathers e n base W (fun _ => m) a (us.flatMap Ty.declarations) (us.flatMap Ty.aims) y) (t : Ty)
    (hb : ∀ μ, b μ (a μ) = μ.ty t) (hkind : t.kind = kind) (ht : t.Plain)
    (hchildren : t.children = ts ++ us) : Makes e n base W kind ts fun μ => m >>= fun x => Pure.pure (some (b μ x)) := by
  have hread := h.give (g := fun μ x => some (b μ x)) fun μ => congrArg some (hb μ)
  refine of_gathers hkind hread ?_ ?_
  · rw [← List.flatMap_append, ← hchildren, ht.declarations]
  · intro x hx
    rw [← List.flatMap_append, ← hchildren]
    exact ht.aims hx

end Makes

/-! ### Builders -/

section Builders

variable (hc : c.Sound e W depth) (hw : fields.Within (depth + 1) W)
include hc hw

/-- A part that a type of this kind needs. -/
theorem gathers_needed {kind : TypeKind} (hkind : fields.typeKind? = some kind) {key : String}
    (hkey : key ∈ kind.needs) (hn : n < base) :
    ∃ (a : Option Ty) (y : Crop), Gathers e n base W (fun _ => c.typeAt fields key)
      (fun μ => a.map μ.ty) (a.toList.flatMap Ty.declarations) (a.toList.flatMap Ty.aims) y ∧
      (W → a.isSome = true) := by
  obtain ⟨a, y, hread, hsome⟩ := hc.typeAt hw hn key
  refine ⟨a, y, hread, ?_⟩
  intro hW
  obtain ⟨inner, hinner, hknown⟩ := (hw.wholeType hW kind hkind).2 key hkey
  obtain ⟨t, rfl, -⟩ := hsome hW inner hinner hknown
  rfl

theorem makes_around {kind : TypeKind} (hkind : fields.typeKind? = some kind) {key : String}
    {make : Ty → Ty} (hkey : key ∈ kind.needs)
    (hmake : ∀ (μ : Relocation) t, make (μ.ty t) = μ.ty (make t)) (hmade : ∀ t, (make t).kind = kind)
    (hplain : ∀ t, (make t).Plain) (hchildren : ∀ t, (make t).children = [t]) (hn : n < base) :
    Makes e n base W kind [] fun _ => Reader.around key make c fields := by
  refine Makes.need hn (gathers_needed hc hw hkind hkey hn) (fun _ => rfl) ?_
  intro t next _
  exact .done (make t) (fun μ => hmake μ t) (hmade t) (hplain t) (hchildren t)

theorem makes_conditional (hkind : fields.typeKind? = some .conditional) (hn : n < base) :
    Makes e n base W .conditional [] fun _ => Reader.typeBuilder .conditional c fields := by
  refine Makes.need hn (gathers_needed hc hw hkind (by decide) hn) (fun _ => rfl) ?_
  intro check _ hn
  refine Makes.need hn (gathers_needed hc hw hkind (by decide) hn) (fun _ => rfl) ?_
  intro extend _ hn
  refine Makes.need hn (gathers_needed hc hw hkind (by decide) hn) (fun _ => rfl) ?_
  intro yes _ hn
  refine Makes.need hn (gathers_needed hc hw hkind (by decide) hn) (fun _ => rfl) ?_
  intro no _ _
  exact .done (.conditional check extend yes no) (fun _ => rfl) rfl ⟨rfl, rfl, rfl⟩ rfl

theorem makes_indexedAccess (hkind : fields.typeKind? = some .indexedAccess) (hn : n < base) :
    Makes e n base W .indexedAccess [] fun _ => Reader.typeBuilder .indexedAccess c fields := by
  refine Makes.need hn (gathers_needed hc hw hkind (by decide) hn) (fun _ => rfl) ?_
  intro object _ hn
  refine Makes.need hn (gathers_needed hc hw hkind (by decide) hn) (fun _ => rfl) ?_
  intro index _ _
  exact .done (.indexedAccess object index) (fun _ => rfl) rfl ⟨rfl, rfl, rfl⟩ rfl

theorem makes_mapped (hkind : fields.typeKind? = some .mapped) (hn : n < base) :
    Makes e n base W .mapped [] fun _ => Reader.typeBuilder .mapped c fields := by
  let modifier (key : String) := (fields.text? key).bind Modifier.ofSign?
  refine Makes.need hn (gathers_needed hc hw hkind (by decide) hn) (fun _ => rfl) ?_
  intro source _ hn
  refine Makes.need hn (gathers_needed hc hw hkind (by decide) hn) (fun _ => rfl) ?_
  intro template _ hn
  obtain ⟨name, y, hname, -⟩ := hc.typeAt hw hn "nameType"
  exact .finish name.toList hname (.mapped (fields.text "parameter") source template
    (modifier "readonlyModifier") (modifier "optionalModifier") name)
    (fun μ => by rw [Renaming.ty, Renaming.tyOption_eq]) rfl ⟨rfl, rfl, rfl⟩ (by cases name <;> rfl)

/-- A type with one part that may be absent. -/
theorem makes_option {kind : TypeKind} {key : String} {make : Option Ty → Ty}
    (hmake : ∀ (μ : Relocation) a, make (a.map μ.ty) = μ.ty (make a))
    (hmade : ∀ a, (make a).kind = kind) (hplain : ∀ a, (make a).Plain)
    (hchildren : ∀ a, (make a).children = a.toList) (hn : n < base) :
    Makes e n base W kind [] fun _ => do return some (make (← c.typeAt fields key)) := by
  obtain ⟨a, y, hread, -⟩ := hc.typeAt hw hn key
  exact .finish a.toList hread (make a) (fun μ => hmake μ a) (hmade a) (hplain a) (hchildren a)

/-- A type with a list of parts. -/
theorem makes_list {kind : TypeKind} {key : String} {make : List Ty → Ty}
    (hmake : ∀ (μ : Relocation) ts, make (ts.map μ.ty) = μ.ty (make ts))
    (hmade : ∀ ts, (make ts).kind = kind) (hplain : ∀ ts, (make ts).Plain)
    (hchildren : ∀ ts, (make ts).children = ts) (hn : n < base) :
    Makes e n base W kind [] fun _ => do return some (make (← c.typesAt fields key)) := by
  obtain ⟨ts, y, hread⟩ := hc.typesAt hw hn key
  exact .finish ts hread (make ts) (fun μ => hmake μ ts) (hmade ts) (hplain ts) (hchildren ts)

theorem makes_operator (hkind : fields.typeKind? = some .typeOperator) (hn : n < base) :
    Makes e n base W .typeOperator [] fun _ => Reader.typeBuilder .typeOperator c fields := by
  cases hoperator : (fields.text? "operator").bind Operator.ofWord? with
  | none =>
    have hdrop : ¬ W := by
      intro hW
      have hknown : ((fields.text? "operator").bind Operator.ofWord?).isSome = true :=
        (hw.wholeType hW _ hkind).1
      rw [hoperator] at hknown
      cases hknown
    simp only [Reader.typeBuilder, hoperator]
    exact .dropped hdrop
  | some operator =>
    simp only [Reader.typeBuilder, hoperator]
    exact makes_around hc hw hkind (by decide) (fun _ _ => rfl) (fun _ => rfl) (fun _ => ⟨rfl, rfl, rfl⟩)
      (fun _ => rfl) hn

omit hc in
theorem makes_literal (hkind : fields.typeKind? = some .literal) :
    Makes e n base W .literal [] fun _ => Reader.typeBuilder .literal c fields := by
  cases hvalue : Reader.literal? (fields.value? "value") with
  | none =>
    have hdrop : ¬ W := by
      intro hW
      have hknown : (Reader.literal? (fields.value? "value")).isSome = true :=
        (hw.wholeType hW _ hkind).1
      rw [hvalue] at hknown
      cases hknown
    simp only [Reader.typeBuilder, hvalue]
    exact .dropped hdrop
  | some value =>
    simp only [Reader.typeBuilder, hvalue]
    exact .done (.literal value) (fun _ => rfl) rfl ⟨rfl, rfl, rfl⟩ rfl

/-- A declaration that the type owns is registered. -/
theorem makes_reflection (hkind : fields.typeKind? = some .reflection) (hn : n < base) :
    Makes e n base W .reflection [] fun _ => Reader.typeBuilder .reflection c fields := by
  simp only [Reader.typeBuilder]
  cases hinner : fields.object? "declaration" with
  | none =>
    have hdrop : ¬ W := by
      intro hW
      obtain ⟨inner, tag, heq, -⟩ := (hw.wholeType hW _ hkind).1
      rw [hinner] at heq
      cases heq
    exact .dropped hdrop
  | some inner =>
    obtain ⟨id, y, -, hsound, hreads, hmade⟩ :=
      hc.reflection inner .typeLiteral (hw.object? hinner) n base hn
    have hread : Gathers e n base W (fun _ => c.reflection inner .typeLiteral)
        (fun μ => id.map μ.number) id.toList [] y := by
      refine ⟨?_, hsound, .nil⟩
      intro μ r hr
      have hsame : (id.elim r fun _ => r.holding r.variant) = r := by cases id <;> rfl
      have hat := hreads μ r r.variant (hr _)
      rwa [hsame] at hat
    cases id with
    | none =>
      have hdrop : ¬ W := by
        intro hW
        obtain ⟨inner', tag, heq, htag, hne⟩ := (hw.wholeType hW _ hkind).1
        rw [hinner] at heq
        obtain rfl := Option.some.inj heq
        cases hmade hW tag htag hne
      exact ⟨none, [], [], y, hread.give fun _ => rfl, fun _ => ⟨hdrop, rfl⟩, fun _ h => by cases h⟩
    | some d =>
      have hgive := hread.give (b := fun μ => some (μ.ty (.reflection d)))
        (g := fun _ o => o.map .reflection) fun _ => rfl
      refine .of_gathers rfl hgive (.refl _) ?_
      intro x hx
      rcases Ty.mem_aims.mp hx with ⟨entry, hentry, -⟩ | hx | ⟨a, ha, -⟩
      · cases hentry
      · cases hx
      · cases ha

/-! #### References -/

omit hc hw in
theorem quotes_refTarget (value : Option Json) : ∃ target : RefTarget,
    Quotes e (fun _ => Reader.refTarget value) (fun μ => μ.refTarget target)
      target.aim?.toList := by
  match value with
  | some (.num (.int (.ofNat n))) =>
    by_cases hn : n < Json.wordBound
    · refine ⟨.pending n, ?_⟩
      simp only [Reader.refTarget, if_pos hn]
      exact (Quotes.bump n).give fun _ => rfl
    · refine ⟨.broken, ?_⟩
      simp only [Reader.refTarget, if_neg hn]
      exact .pure _
  | some (.obj symbol) =>
    obtain ⟨s, hs⟩ := Reader.exists_symbol? e.root symbol
    have haims : ((s.map RefTarget.symbol).getD .broken).aim?.toList = [] := by cases s <;> rfl
    refine ⟨(s.map .symbol).getD .broken, haims ▸ Quotes.ask ?_⟩
    intro μ v hroot _ n base r
    have hmove : μ.refTarget ((s.map RefTarget.symbol).getD .broken) =
        (s.map RefTarget.symbol).getD .broken := by cases s <;> rfl
    rw [hs v hroot, hmove]
    exact Reads.pure _
  | none | some .null | some (.bool _) | some (.str _) | some (.num (.float _))
  | some (.num (.int (.negSucc _))) | some (.arr _) => exact ⟨.broken, .pure _⟩

/-- Type arguments, where they are, and the type that is made with them. -/
theorem gathers_args (make : Relocation → Option (List Ty) → Ty) (hn : n < base) :
    ∃ (args : Option (List Ty)) (y : Crop), Gathers e n base W
      (fun μ => if fields.has "typeArguments" then
          (some <$> c.typesAt fields "typeArguments") >>= fun args => Pure.pure (some (make μ args))
        else Pure.pure none >>= fun args => Pure.pure (some (make μ args)))
      (fun μ => some (make μ (args.map (·.map μ.ty)))) ((args.getD []).flatMap Ty.declarations)
      ((args.getD []).flatMap Ty.aims) y := by
  split
  · obtain ⟨ts, y, hread⟩ := hc.typesAt hw hn "typeArguments"
    have hsome := hread.map (g := some) (b := fun μ => some (ts.map μ.ty)) fun _ => rfl
    exact ⟨some ts, y, hsome.give fun _ => rfl⟩
  · exact ⟨none, .none, .give (.pure _) fun _ => rfl⟩

theorem makes_reference (hn : n < base) :
    Makes e n base W .reference [] fun _ => Reader.typeBuilder .reference c fields := by
  obtain ⟨target, htarget⟩ := quotes_refTarget (e := e) (fields.value? "target")
  obtain ⟨y, hy⟩ := Gathers.of_quotes (n := n) (W := W) htarget
  let head : Ref := ⟨fields.text "name", target, fields.text? "qualifiedName", fields.text? "package",
    fields.text? "externalUrl", fields.flag "refersToTypeParameter", fields.flag "preferValues"⟩
  obtain ⟨args, z, hz⟩ := gathers_args hc hw (fun μ args => .reference (μ.ref head) args)
    (Nat.lt_add_right y.block.length hn)
  have hmake : ∀ μ : Relocation, Ty.reference (μ.ref head) (args.map (·.map μ.ty)) =
      μ.ty (.reference head args) := fun μ => by rw [Renaming.ty, Renaming.tyArgs_eq]
  simp only [hmake] at hz
  refine .of_gathers (t := .reference head args) rfl (hy.bind hn hz) ?_ ?_
  · rw [Ty.declarations_eq]
    exact .refl _
  · intro x hx
    rw [List.flatMap_nil, List.nil_append]
    rcases Ty.mem_aims.mp hx with ⟨entry, hentry, hx⟩ | hx | ⟨a, ha, hx⟩
    · obtain rfl := Option.some.inj hentry
      exact List.mem_append_left _ (Option.mem_toList.mpr hx)
    · cases hx
    · exact List.mem_append_right _ (List.mem_flatMap.mpr ⟨a, ha, hx⟩)

theorem makes_query (hkind : fields.typeKind? = some .query) (hn : n < base) :
    Makes e n base W .query [] fun _ => Reader.typeBuilder .query c fields := by
  obtain ⟨a, y, hread, hsome⟩ := hc.typeAt hw hn "queryType"
  by_cases hquery : ∃ head args, a = some (.reference head args)
  · obtain ⟨head, args, rfl⟩ := hquery
    have hdeclarations : (Ty.query head args).declarations = (Ty.reference head args).declarations := by
      rw [Ty.declarations_eq, Ty.declarations_eq (.reference head args)]
      rfl
    refine .of_gathers (t := .query head args) rfl (hread.bind hn (.pure _)) ?_ ?_
    · simp [hdeclarations]
    · intro x hx
      have hsame : x ∈ (Ty.reference head args).aims := Ty.mem_aims.mpr (Ty.mem_aims.mp hx)
      simpa using hsame
  · have hdrop : ¬ W := by
      intro hW
      obtain ⟨inner, hinner, htag⟩ : ∃ inner, fields.object? "queryType" = some inner ∧
          inner.typeKind? = some .reference := (hw.wholeType hW _ hkind).1
      obtain ⟨t, rfl, hmade⟩ := hsome hW inner hinner (by rw [htag]; rfl)
      rw [htag] at hmade
      cases t with
      | reference head args => exact hquery ⟨head, args, rfl⟩
      | _ => cases hmade
    refine ⟨none, [], [], y ++ .none,
      Gathers.drop (hread.bind hn (?_ : Gathers e n _ W _ _ [] [] .none)) hdrop,
      fun _ => ⟨hdrop, rfl⟩, fun _ h => by cases h⟩
    cases a with
    | none => exact Gathers.pure (fun _ => none)
    | some t =>
      cases t with
      | reference head args => exact absurd ⟨head, args, rfl⟩ hquery
      | _ => exact Gathers.pure (fun _ => none)

/-! #### Templates and unions -/

theorem makes_template (hn : n < base) :
    Makes e n base W .templateLiteral [] fun _ => Reader.typeBuilder .templateLiteral c fields := by
  have hitem : ∀ item ∈ fields.items "tail", ∀ base, n < base → ∃ (b : Option (Ty × String)) (y : Crop),
      Gathers e n base W (fun _ => Reader.span c item)
        (fun μ => b.map fun entry => (μ.ty entry.1, entry.2))
        (b.toList.flatMap fun entry => entry.1.declarations)
        (b.toList.flatMap fun entry => entry.1.aims) y := by
    intro item hitem base hn
    unfold Reader.span
    split
    · next type text =>
      have hinner : Fields.Within type depth W := by
        obtain ⟨hdepth, hwhole⟩ := hw.item hitem
        refine ⟨Nat.le_trans (Nat.le_of_lt (Json.depth_lt_of_mem (List.mem_cons_self ..))) hdepth, ?_⟩
        intro hW inner hholds
        exact hwhole hW inner (.item (List.mem_cons_self ..) hholds)
      obtain ⟨a, y, hread, -, -⟩ := hc.type type hinner n base hn
      refine ⟨a.map fun t => (t, text.asString?.getD ""), y, ?_⟩
      have hgive := hread.give (g := fun _ o => o.map fun t => (t, text.asString?.getD ""))
        (b := fun μ => (a.map fun t => (t, text.asString?.getD "")).map
          fun entry => (μ.ty entry.1, entry.2)) fun μ => by cases a <;> rfl
      cases a <;> exact hgive
    · exact ⟨none, .none, .pure _⟩
  obtain ⟨tail, y, hread⟩ := Gathers.collect hn hitem
  have hgive := hread.give (g := fun _ tail => some (Ty.templateLiteral (fields.text "head") tail))
    (b := fun μ => some (μ.ty (.templateLiteral (fields.text "head") tail))) fun μ => by
      rw [Renaming.ty, Renaming.tyTail_eq]
  have hplain : (Ty.templateLiteral (fields.text "head") tail).Plain := ⟨rfl, rfl, rfl⟩
  refine .of_gathers rfl hgive ?_ ?_
  · rw [← hplain.declarations, Ty.children, List.flatMap_map]
    exact .refl _
  · intro x hx
    have hx := hplain.aims hx
    rwa [Ty.children, List.flatMap_map] at hx

omit hc hw in
theorem quotes_summaries (he : ¬ e.clean) (fields : Fields) : ∃ lists : Option (List (List Part)),
    Quotes e (fun _ => Reader.summaries fields) (fun μ => lists.map (·.map (·.map μ.part)))
      (Part.aims (lists.getD []).flatten) := by
  unfold Reader.summaries
  split
  · exact ⟨none, .pure _⟩
  · next lists _ =>
    have hitem : ∀ list ∈ lists, ∃ ps : Option (List Part),
        Quotes e (fun _ => do return some (← Reader.parts (some list)))
          (fun μ => ps.map (·.map μ.part)) (ps.toList.flatMap Part.aims) := by
      intro list _
      obtain ⟨ps, hps⟩ := Reader.quotes_parts he (some list)
      exact ⟨some ps, Quotes.mono (hps.give fun _ => rfl) (by simp)⟩
    obtain ⟨made, hmade⟩ := Quotes.collect lists hitem
    refine ⟨some made, Quotes.mono (hmade.give fun _ => rfl) ?_⟩
    intro x hx
    rwa [Part.aims, Option.getD_some, List.filterMap_flatten] at hx

theorem makes_union (he : ¬ e.clean) (hn : n < base) :
    Makes e n base W .union [] fun _ => Reader.typeBuilder .union c fields := by
  obtain ⟨ts, y, hread⟩ := hc.typesAt hw hn "types"
  obtain ⟨lists, hlists⟩ := quotes_summaries he fields
  obtain ⟨z, hz⟩ := Gathers.of_quotes (n := n) (W := W) hlists
  refine .of_gathers (t := .union ts lists) rfl (hread.bind hn (hz.give fun μ => ?_)) ?_ ?_
  · rw [Renaming.ty, Renaming.tyList_eq]
  · rw [Ty.declarations_eq, List.append_nil]
    exact .refl _
  · intro x hx
    rw [List.flatMap_nil, List.nil_append]
    rcases Ty.mem_aims.mp hx with ⟨entry, hentry, -⟩ | hx | ⟨a, ha, hx⟩
    · cases hentry
    · exact List.mem_append_right _ hx
    · exact List.mem_append_left _ (List.mem_flatMap.mpr ⟨a, ha, hx⟩)

/-- Every kind of type. -/
theorem makes_type (he : ¬ e.clean) {kind : TypeKind} (hkind : fields.typeKind? = some kind)
    (hn : n < base) : Makes e n base W kind [] fun _ => Reader.typeBuilder kind c fields := by
  cases kind with
  | array | optional | rest =>
    exact makes_around hc hw hkind (by decide) (fun _ _ => rfl) (fun _ => rfl) (fun _ => ⟨rfl, rfl, rfl⟩)
      (fun _ => rfl) hn
  | namedTupleMember =>
    exact makes_around hc hw hkind (by decide) (fun _ _ => rfl) (fun _ => rfl) (fun _ => ⟨rfl, rfl, rfl⟩)
      (fun _ => rfl) hn
  | conditional => exact makes_conditional hc hw hkind hn
  | indexedAccess => exact makes_indexedAccess hc hw hkind hn
  | mapped => exact makes_mapped hc hw hkind hn
  | inferred | predicate =>
    exact makes_option hc hw (fun _ _ => by rw [Renaming.ty, Renaming.tyOption_eq])
      (fun _ => rfl) (fun _ => ⟨rfl, rfl, rfl⟩) (fun _ => rfl) hn
  | intersection | tuple =>
    exact makes_list hc hw (fun _ _ => by rw [Renaming.ty, Renaming.tyList_eq])
      (fun _ => rfl) (fun _ => ⟨rfl, rfl, rfl⟩) (fun _ => rfl) hn
  | intrinsic => exact .done (.intrinsic _) (fun _ => rfl) rfl ⟨rfl, rfl, rfl⟩ rfl
  | unknown => exact .done (.unknown _) (fun _ => rfl) rfl ⟨rfl, rfl, rfl⟩ rfl
  | literal => exact makes_literal hw hkind
  | query => exact makes_query hc hw hkind hn
  | reference => exact makes_reference hc hw hn
  | reflection => exact makes_reflection hc hw hkind hn
  | templateLiteral => exact makes_template hc hw hn
  | typeOperator => exact makes_operator hc hw hkind hn
  | union => exact makes_union hc hw he hn

end Builders

end DocTree
