import DocTree.Proofs.Reading.Walk
import DocTree.Proofs.Registry.Referencing
import DocTree.Writer.Reflection

/-!
What writing leaves of a project. It looks up the references and the symbols in what it writes and keeps
the outcome; numbers, parents and the tables stay, so that every symbol leads where it led before. In
the types that are written, each reference outside of queries is settled at its place, and no other
reference is.
-/

namespace DocTree

open Project

/-! ### Settled types -/

namespace Ty

/-- A change that does nothing the second time does nothing to a changed type. -/
theorem adjust_adjust {c : Change} (href : ∀ r, c.ref (c.ref r) = c.ref r)
    (hintrinsic : ∀ n, c.intrinsic (c.intrinsic n) = c.intrinsic n)
    (hpart : ∀ q, c.part (c.part q) = c.part q) (t : Ty) :
    (t.adjust c).adjust c = t.adjust c := by
  induction t using Ty.induct with
  | h t ih =>
    have hlist : ∀ ts : List Ty, (∀ a ∈ ts, a ∈ t.children) →
        adjustList c (adjustList c ts) = adjustList c ts := by
      intro ts hts
      rw [adjustList_eq, adjustList_eq, List.map_map]
      exact List.map_congr_left fun a ha => ih a (hts a ha)
    cases t with
    | intrinsic name => simp only [adjust, hintrinsic]
    | literal value | reflection id | unknown name => rfl
    | array a | optional a | rest a | namedTupleMember name isOptional a | operator op a =>
      simp only [adjust, ih a (by simp [children])]
    | indexedAccess x y => simp only [adjust, ih x (by simp [children]), ih y (by simp [children])]
    | conditional x y z w =>
      simp only [adjust, ih x (by simp [children]), ih y (by simp [children]),
        ih z (by simp [children]), ih w (by simp [children])]
    | inferred name bound | predicate name asserts bound =>
      cases bound with
      | none => rfl
      | some a => simp only [adjust, adjustOption, ih a (by simp [children])]
    | mapped parameter x y fixed missing nameType =>
      cases nameType with
      | none => simp only [adjust, adjustOption, ih x (by simp [children]), ih y (by simp [children])]
      | some a =>
        simp only [adjust, adjustOption, ih x (by simp [children]), ih y (by simp [children]),
          ih a (by simp [children])]
    | intersection ts | tuple ts => simp only [adjust, hlist ts fun a ha => ha]
    | union ts summaries =>
      simp only [adjust, hlist ts fun a ha => ha, Option.map_map, List.map_map, Function.comp_def,
        hpart]
    | templateLiteral head tail =>
      simp only [adjust, adjustTail_eq, List.map_map, Function.comp_def]
      congr 1
      refine List.map_congr_left fun entry hentry => ?_
      rw [ih entry.1 (List.mem_map.mpr ⟨entry, hentry, rfl⟩)]
    | query head args =>
      cases hq : c.inQueries with
      | false => simp only [adjust, hq, Bool.false_eq_true, if_false]
      | true =>
        cases args with
        | none => simp only [adjust, hq, if_true, adjustArgs, href]
        | some ts => simp only [adjust, hq, if_true, adjustArgs, href, hlist ts fun a ha => ha]
    | reference head args =>
      cases args with
      | none => simp only [adjust, adjustArgs, href]
      | some ts => simp only [adjust, adjustArgs, href, hlist ts fun a ha => ha]

theorem kind_adjust (c : Change) (t : Ty) : (t.adjust c).kind = t.kind := by
  cases t with
  | query head args =>
    rw [adjust]
    split <;> rfl
  | _ => rfl

/-- The reference at a place in a type, which is reached from child to child. Queries are written from
copies, so none in them counts. -/
def refAt? : List Nat → Ty → Option Ref
  | [], .reference head _ => some head
  | [], _ => none
  | i :: way, t => if t.kind = .query then none else t.children[i]?.bind (refAt? way)

/-- A change of the references changes the one at each place. -/
theorem refAt?_adjust (c : Change) (way : List Nat) (t : Ty) :
    (t.adjust c).refAt? way = (t.refAt? way).map c.ref := by
  induction way generalizing t with
  | nil =>
    cases t with
    | query head args =>
      rw [adjust]
      split <;> rfl
    | _ => rfl
  | cons i way ih =>
    rw [refAt?, refAt?, kind_adjust]
    by_cases hquery : t.kind = .query
    · rw [if_pos hquery, if_pos hquery]
      rfl
    · rw [if_neg hquery, if_neg hquery, children_adjust fun h => absurd h hquery, List.getElem?_map]
      cases t.children[i]? with
      | none => rfl
      | some a => exact ih a

end Ty

namespace Project

variable {p q : Project} {i : ReflectionId} {s : Symbol}

theorem settleRef_settleRef (p : Project) (r : Ref) : p.settleRef (p.settleRef r) = p.settleRef r := by
  rw [settleRef, settleRef]
  cases ht : r.target with
  | symbol s =>
    rw [settleTarget]
    cases hs : p.ofSymbol? s with
    | none => simp only [Option.elim_none, settleTarget, hs]
    | some r' => rfl
  | _ => rfl

/-- Where a symbol leads depends on the index and on the outline. -/
theorem ofSymbol?_of_outline (hindex : q.symbolIndex = p.symbolIndex) (hout : q.outline = p.outline)
    (s : Symbol) : (q.ofSymbol? s).map (·.id) = (p.ofSymbol? s).map (·.id) := by
  have hall : (q.allOfSymbol s).map Reflection.outline = (p.allOfSymbol s).map Reflection.outline := by
    have hheld : ∀ i, (q.get? i).map Reflection.outline = (p.get? i).map Reflection.outline := by
      intro i
      rw [outline_get?, outline_get?, hout]
    rw [allOfSymbol, allOfSymbol, indexed, indexed, hindex, List.map_filterMap, List.map_filterMap]
    exact congrArg (List.filterMap · _) (funext hheld)
  have hboth : ∀ p : Project, (p.ofSymbol? s).map Reflection.outline =
      (((p.allOfSymbol s).map Reflection.outline).find? fun o => !decide (o.2 = .reference)).or
        ((p.allOfSymbol s).map Reflection.outline).head? := by
    intro p
    rw [ofSymbol?, List.find?_map, List.head?_map, Option.map_or]
    rfl
  have hsame : (q.ofSymbol? s).map Reflection.outline = (p.ofSymbol? s).map Reflection.outline := by
    rw [hboth, hboth, hall]
  have hid := congrArg (Option.map fun o : Reflection × VariantTag => o.1.id) hsame
  simpa only [Option.map_map, Function.comp_def, Reflection.outline] using hid

theorem settleRef_of_outline (hindex : q.symbolIndex = p.symbolIndex) (hout : q.outline = p.outline) :
    q.settleRef = p.settleRef := by
  funext r
  rw [settleRef, settleRef]
  cases ht : r.target with
  | symbol s =>
    have hs := ofSymbol?_of_outline hindex hout s
    rw [settleTarget, settleTarget]
    cases hq : q.ofSymbol? s with
    | none =>
      rw [hq, Option.map_none, eq_comm, Option.map_eq_none_iff] at hs
      rw [hs]
    | some r' =>
      rw [hq, Option.map_some, eq_comm, Option.map_eq_some_iff] at hs
      obtain ⟨t, ht, hid⟩ := hs
      rw [ht, Option.elim_some, Option.elim_some, hid]
  | _ => rfl

end Project

namespace Writer

variable {p : Project} {id i : ReflectionId}

theorem settledType_settledType (p : Project) (t : Ty) :
    settledType p (settledType p t) = settledType p t :=
  Ty.adjust_adjust p.settleRef_settleRef (fun _ => rfl) (fun _ => rfl) t

/-! ### One reflection -/

variable {serializer : Serializer}

/-- The types of a reflection, with the variant by which they are written. -/
def typed (r : Reflection) : VariantTag × List Ty := (r.tag, r.types)

/-- The types settled, if the serializer writes those of the variant. -/
def settledTyped (serializer : Serializer) (p : Project) (entry : VariantTag × List Ty) :
    VariantTag × List Ty :=
  (entry.1, if typesWritten serializer entry.1 then entry.2.map (settledType p) else entry.2)

theorem settledTyped_settledTyped (serializer : Serializer) (p : Project)
    (entry : VariantTag × List Ty) :
    settledTyped serializer p (settledTyped serializer p entry) = settledTyped serializer p entry := by
  by_cases hwritten : typesWritten serializer entry.1 = true
  · simp [settledTyped, hwritten, Function.comp_def, settledType_settledType]
  · simp [settledTyped, hwritten]

theorem outline_mapTypes (f : Ty → Ty) (r : Reflection) : (r.mapTypes f).outline = r.outline := by
  refine Reflection.outline_mk _ ?_
  cases hv : r.variant <;> simp only [Variant.mapTypes, hv, Variant.tag, Reflection.tag]

theorem target?_mapTypes (f : Ty → Ty) (r : Reflection) : (r.mapTypes f).target? = r.target? := by
  cases hv : r.variant <;> simp only [Reflection.mapTypes, Reflection.target?, Variant.mapTypes, hv]

theorem outline_settledReflection (serializer : Serializer) (p : Project) (r : Reflection) :
    (settledReflection serializer p r).outline = r.outline := by
  rw [settledReflection]
  split
  · exact outline_mapTypes _ r
  · rfl

theorem target?_settledReflection (serializer : Serializer) (p : Project) (r : Reflection) :
    (settledReflection serializer p r).target? = r.target? := by
  rw [settledReflection]
  split
  · exact target?_mapTypes _ r
  · rfl

theorem typed_settledReflection (serializer : Serializer) (p : Project) (r : Reflection) :
    typed (settledReflection serializer p r) = settledTyped serializer p (typed r) := by
  have htag : (settledReflection serializer p r).tag = r.tag :=
    Reflection.tag_of_outline (outline_settledReflection serializer p r)
  refine Prod.ext htag ?_
  change (settledReflection serializer p r).types =
    if typesWritten serializer r.tag then r.types.map (settledType p) else r.types
  rw [settledReflection]
  split
  · exact Variant.types_mapTypes _ r.variant
  · rfl

theorem typed_of_looked (h : Looked p q) (i : ReflectionId) :
    (q.get? i).map typed = (p.get? i).map typed := by
  have huntargeted : ∀ r : Reflection, typed r.untargeted = typed r := by
    intro r
    cases hv : r.variant <;> simp only [typed, Reflection.untargeted, Reflection.mapTarget, hv,
      Reflection.tag, Variant.tag, Reflection.types, Variant.types]
  have hheld := congrArg (Option.map typed) (h.held i)
  simpa only [Option.map_map, Function.comp_def, huntargeted] using hheld

/-- Writing a reflection may look up where it leads, and then settles its types. -/
theorem settleOne_eq (serializer : Serializer) (p : Project) (id : ReflectionId) :
    ∃ q, Looked p q ∧ (p.Sound → q.Sound) ∧
      settleOne serializer p id = q.update id (settledReflection serializer p) := by
  by_cases hreference : serializer.writes .reflection (.variant .reference) = true
  · exact ⟨p.settle id, looked_settle p id, fun h => h.referenceTarget, by simp [settleOne, hreference]⟩
  · exact ⟨p, .refl p, fun h => h, by simp [settleOne, hreference]⟩

theorem outline_settleOne (serializer : Serializer) (p : Project) (id : ReflectionId) :
    (settleOne serializer p id).outline = p.outline := by
  obtain ⟨q, hlooked, -, heq⟩ := settleOne_eq serializer p id
  rw [heq, outline_update (outline_settledReflection serializer p), hlooked.outline]

theorem symbolIndex_settleOne (serializer : Serializer) (p : Project) (id : ReflectionId) :
    (settleOne serializer p id).symbolIndex = p.symbolIndex := by
  obtain ⟨q, hlooked, -, heq⟩ := settleOne_eq serializer p id
  rw [heq, symbolIndex_update, hlooked.symbolIndex]

theorem sound_settleOne (h : p.Sound) (id : ReflectionId) : (settleOne serializer p id).Sound := by
  obtain ⟨q, -, hsound, heq⟩ := settleOne_eq serializer p id
  have hq := hsound h
  have hout : (q.update id (settledReflection serializer p)).outline = q.outline :=
    outline_update (outline_settledReflection serializer p)
  rw [heq]
  refine ⟨hq.numbered.of_outline hout fun i => ?_, hq.graph.of_outline hout (fun i => ?_)
    (graph_update _)⟩
  · rw [registeredChildren, registered_update]
    rfl
  · rw [get?_update]
    split
    · cases q.get? i with
      | none => rfl
      | some r => exact target?_settledReflection serializer p r
    · rfl

/-- The types of the reflection are settled, and those of no other one. -/
theorem typed_settleOne (serializer : Serializer) (p : Project) (id i : ReflectionId) :
    ((settleOne serializer p id).get? i).map typed =
      if id = i then ((p.get? i).map typed).map (settledTyped serializer p)
      else (p.get? i).map typed := by
  obtain ⟨q, hlooked, -, heq⟩ := settleOne_eq serializer p id
  rw [heq, get?_update, ← typed_of_looked hlooked i]
  split
  · rw [Option.map_map, Option.map_map]
    exact congrArg (Option.map · _) (funext (typed_settledReflection serializer p))
  · rfl

/-! ### Everything that is written -/

theorem settledTyped_settleOne (serializer : Serializer) (p : Project) (id : ReflectionId) :
    settledTyped serializer (settleOne serializer p id) = settledTyped serializer p := by
  have hsettled : settledType (settleOne serializer p id) = settledType p := by
    funext t
    rw [settledType, settledType, settleRef_of_outline (symbolIndex_settleOne serializer p id)
      (outline_settleOne serializer p id)]
  funext entry
  rw [settledTyped, settledTyped, hsettled]

/-- However often a reflection is written, its types are settled once. -/
theorem typed_foldl_settleOne (serializer : Serializer) (ids : List ReflectionId) (p : Project)
    (i : ReflectionId) :
    ((ids.foldl (settleOne serializer) p).get? i).map typed =
      if i ∈ ids then ((p.get? i).map typed).map (settledTyped serializer p)
      else (p.get? i).map typed := by
  induction ids generalizing p with
  | nil => rfl
  | cons id ids ih =>
    rw [List.foldl_cons, ih, settledTyped_settleOne, typed_settleOne]
    by_cases hid : id = i
    · by_cases hi : i ∈ ids
      · simp [hid, hi, Function.comp_def, settledTyped_settledTyped]
      · simp [hid, hi]
    · simp [hid, Ne.symm hid]

theorem sound_settle (h : p.Sound) (ids : List ReflectionId) : (settle serializer p ids).Sound := by
  have hfold : ∀ (ids : List ReflectionId) (p : Project), p.Sound →
      (ids.foldl (settleOne serializer) p).Sound := by
    intro ids
    induction ids with
    | nil => exact fun p h => h
    | cons id ids ih => exact fun p h => ih _ (sound_settleOne h id)
  exact hfold _ p h

/-- The types of a reflection are looked up when a serializer writes a project: it comes to the
reflection from the root, and writes the types of its variant. -/
def settles (serializer : Serializer) (p : Project) (i : ReflectionId) : Bool :=
  i ∈ reachedWithin serializer p (levels p) ReflectionId.project &&
    (p.get? i).any fun r => typesWritten serializer r.tag

/-- In what was written every stored type is settled, and no other. -/
theorem types_writeProject (serializer : Serializer) (p : Project) (root : String) (i : ReflectionId) :
    ((serializer.writeProject p root).project.get? i).map (·.types) = (p.get? i).map fun r =>
      if settles serializer p i then r.types.map (settledType p) else r.types := by
  have hall := typed_foldl_settleOne serializer
    (reachedWithin serializer p (levels p) ReflectionId.project) p i
  have htypes : ((serializer.writeProject p root).project.get? i).map (·.types) =
      (((serializer.writeProject p root).project.get? i).map typed).map (·.2) := by
    rw [Option.map_map]
    rfl
  have hproject : (serializer.writeProject p root).project =
      (reachedWithin serializer p (levels p) ReflectionId.project).foldl (settleOne serializer) p := by
    change settle serializer p [ReflectionId.project] = _
    rw [settle, List.flatMap_singleton]
  rw [htypes, hproject, hall]
  cases hr : p.get? i with
  | none => split <;> rfl
  | some r =>
    rw [settles, hr, Option.any_some]
    by_cases hi : i ∈ reachedWithin serializer p (levels p) ReflectionId.project
    · by_cases hwritten : typesWritten serializer r.tag = true <;>
        simp [hi, hwritten, typed, settledTyped]
    · simp [hi, typed]

end Writer

/-! ### Places of references -/

namespace Project

variable {p : Project}

/-- Where a reference stands: in which reflection, in which of its types, and the way to it from child to
child. -/
structure Place where
  holder : ReflectionId
  type : Nat
  way : List Nat

/-- The reference at a place. -/
def refAt? (p : Project) (place : Place) : Option Ref :=
  (p.get? place.holder).bind fun r => r.types[place.type]?.bind (Ty.refAt? place.way)

/-- When a project is written, the references in what is looked up are looked up at their places, and no
others. -/
theorem refAt?_writeProject (serializer : Serializer) (p : Project) (root : String) (place : Place) :
    (serializer.writeProject p root).project.refAt? place = (p.refAt? place).map fun head =>
      if Writer.settles serializer p place.holder then p.settleRef head else head := by
  have hrefs : ∀ q : Project, q.refAt? place = ((q.get? place.holder).map (·.types)).bind
      fun ts => ts[place.type]?.bind (Ty.refAt? place.way) := by
    intro q
    rw [Option.bind_map]
    rfl
  rw [hrefs, hrefs, Writer.types_writeProject]
  cases p.get? place.holder with
  | none => rfl
  | some r =>
    simp only [Option.map_some, Option.bind_some]
    split
    · rw [List.getElem?_map]
      cases r.types[place.type]? with
      | none => rfl
      | some t => exact Ty.refAt?_adjust _ place.way t
    · exact Option.map_id'.symm

end Project

end DocTree
