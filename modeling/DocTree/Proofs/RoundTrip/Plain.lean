import DocTree.Proofs.RoundTrip.Counterparts
import DocTree.Proofs.RoundTrip.Lookup
import DocTree.Proofs.RoundTrip.Number

/-!
Types without declarations, written, read and resolved. A type comes back as it was, at every depth,
but for what it mentions, for numbers that have no written form of their own, and for type arguments
of which there are none.
-/

namespace DocTree

open Decimal (Double)

/-! ### Literals -/

/-- Zero has no sign where it is written, and what is no finite number is written as null. -/
def Literal.settled : Literal → Literal
  | .number x => if x.isFinite then .number (if x = .zero true then .zero false else x) else .null
  | value => value

theorem Literal.reread_eq (value : Literal) : value.reread = value.settled := by
  have hzero : (Double.zero true).toInt? = some 0 := by decide +kernel
  have hne {x : Double} (h : x.toInt? ≠ some 0) : x ≠ .zero true := fun hx => h (hx ▸ hzero)
  cases value with
  | number x =>
    simp only [reread, settled]
    cases hx : x.toInt? with
    | none =>
      rw [if_neg (hne fun h => by cases hx.symm.trans h)]
    | some n =>
      simp only [Double.isFinite_of_toInt? hx, if_true]
      split
      · next hsmall =>
        rw [Double.ofInt_of_toInt? hx (Nat.lt_of_le_of_lt hsmall (by decide))]
      · next hlarge =>
        have hn : n ≠ 0 := fun h => hlarge (h ▸ Nat.zero_le _)
        rw [if_neg (hne fun h => hn (Option.some.inj (hx.symm.trans h)))]
  | string s | bigInt negative digits | boolean b | null => rfl

/-! ### What becomes of types -/

namespace Counterparts

variable (k : Counterparts) (p : Project)

/-- Where a named type leads: to the counterpart of what it leads to in the project. What is not
found there stays a symbol if it is one. -/
def refTarget (target : RefTarget) : RefTarget :=
  match p.resolveTarget? target with
  | some id => (k.id id).elim .broken .reflection
  | none =>
    match target with
    | .symbol s => .symbol (k.symbol s)
    | _ => .broken

def ref (head : Ref) : Ref := { head with target := k.refTarget p head.target }

/-- What changes of a type apart from the types inside it. An empty list of type arguments is
none. -/
def node : Ty → Ty
  | .query head args => .query (k.ref p head) (args.filter (!·.isEmpty))
  | .reference head args => .reference (k.ref p head) (args.filter (!·.isEmpty))
  | .literal value => .literal value.settled
  | .union types lists => .union types (lists.map (·.map (·.map k.part)))
  | t => t

/-- A type with the counterparts of what it mentions, at every depth. -/
noncomputable def ty (t : Ty) : Ty := t.everywhere (k.node p)

theorem ty_eq (t : Ty) : k.ty p t = k.node p (t.mapChildren (k.ty p)) := t.everywhere_eq _

end Counterparts

/-! ### New numbers in a copied type -/

namespace Copying

variable {c : Copying} {v : Revival} {k : Counterparts} {g : Ty → Ty}

theorem Matches.newRef (h : c.Matches v k) (hleg : c.Legible) (target : RefTarget) :
    Reader.newRef v (c.refTarget target) = k.refTarget c.project target := by
  unfold Copying.refTarget Counterparts.refTarget
  cases hfound : c.project.resolveTarget? target with
  | some id =>
    have hid := h.id id
    rw [if_pos (hleg.contains_of_resolveTarget? hfound)] at hid
    exact congrArg (Option.elim · RefTarget.broken RefTarget.reflection) hid.symm
  | none =>
    cases target with
    | symbol s => exact congrArg (fun f => RefTarget.symbol (f s)) h.symbol.symm
    | reflection _ | pending _ | broken => rfl

theorem map_tyList {l : List Ty} (h : ∀ a ∈ l, ∀ b, Reader.newType v (c.ty b a) = g a) (b : Nat) :
    (c.tyList b l).map (Reader.newType v) = l.map g := by
  induction l generalizing b with
  | nil => rfl
  | cons t rest ih =>
    rw [tyList, List.map_cons, List.map_cons, h t (List.mem_cons_self ..) b,
      ih fun a ha => h a (List.mem_cons_of_mem t ha)]

theorem map_tyOption {o : Option Ty} (h : ∀ a ∈ o, ∀ b, Reader.newType v (c.ty b a) = g a)
    (b : Nat) : (c.tyOption b o).map (Reader.newType v) = o.map g := by
  cases o with
  | none => rfl
  | some t => exact congrArg some (h t rfl b)

theorem map_tyArgs {args : Option (List Ty)}
    (h : ∀ a ∈ args.getD [], ∀ b, Reader.newType v (c.ty b a) = g a) (b : Nat) :
    (c.tyArgs b args).map (·.map (Reader.newType v)) =
      (args.map (·.map g)).filter (!·.isEmpty) := by
  rcases args with _ | _ | ⟨t, ts⟩
  · rfl
  · rfl
  · exact congrArg some (map_tyList h b)

theorem map_tyTail {tail : List (Ty × String)}
    (h : ∀ a ∈ tail.map (·.1), ∀ b, Reader.newType v (c.ty b a) = g a) (b : Nat) :
    (c.tyTail b tail).map (fun entry => (Reader.newType v entry.1, entry.2)) =
      tail.map fun entry => (g entry.1, entry.2) := by
  induction tail generalizing b with
  | nil => rfl
  | cons entry rest ih =>
    obtain ⟨t, text⟩ := entry
    rw [tyTail, List.map_cons, List.map_cons, h t (List.mem_cons_self ..) b,
      ih fun a ha => h a (List.mem_cons_of_mem t ha)]

theorem newType_eq_mapChildren {t : Ty} (href : t.ref? = none) (hsummaries : t.summaries? = none) :
    Reader.newType v t = t.mapChildren (Reader.newType v) :=
  Ty.adjust_eq_mapChildren href hsummaries rfl

/-- A type without declarations, written and read again, is the same type of the counterparts. -/
theorem Matches.newType (h : c.Matches v k) (hleg : c.Legible) (t : Ty) (ht : t.declarations = [])
    (b : Nat) : Reader.newType v (c.ty b t) = k.ty c.project t := by
  induction t using Ty.induct generalizing b with
  | h t ih =>
    have hchild : ∀ a ∈ t.children, ∀ b, Reader.newType v (c.ty b a) = k.ty c.project a :=
      fun a ha => ih a ha <| List.eq_nil_iff_forall_not_mem.mpr fun d hd =>
        List.not_mem_nil (ht ▸ Ty.mem_declarations_of_mem_children ha hd)
    rw [Counterparts.ty_eq]
    -- Only heads, literals and summaries change at the type itself; elsewhere the change is inside.
    cases t with
    | query head args =>
      rw [ty, Ty.newType_query, map_tyArgs hchild, ref, h.newRef hleg]
      rfl
    | reference head args =>
      rw [ty, Ty.newType_reference, map_tyArgs hchild, ref, h.newRef hleg]
      rfl
    | union ts lists =>
      have hlists : (lists.map c.summaries).map (·.map (·.map (Reader.newPart v))) =
          lists.map (·.map (·.map k.part)) := by
        simp only [Option.map_map, Function.comp_def, summaries, List.map_map, h.newParts]
      rw [ty, Ty.newType_union, map_tyList (l := ts) hchild, hlists]
      rfl
    | literal value => exact congrArg Ty.literal value.reread_eq
    | reflection d => cases ht
    | intrinsic name | unknown name => rfl
    | intersection ts | tuple ts =>
      rw [newType_eq_mapChildren rfl rfl, ty, Ty.mapChildren, map_tyList (l := ts) hchild]
      rfl
    | templateLiteral head tail =>
      rw [newType_eq_mapChildren rfl rfl, ty, Ty.mapChildren, map_tyTail hchild]
      rfl
    | inferred name o | predicate name asserts o =>
      rw [newType_eq_mapChildren rfl rfl, ty, Ty.mapChildren,
        map_tyOption fun a ha => hchild a (Option.mem_toList.mpr ha)]
      rfl
    | mapped parameter x y fixed missing o =>
      have hname : ∀ a ∈ o, ∀ b, Reader.newType v (c.ty b a) = k.ty c.project a := fun a ha =>
        hchild a <| List.mem_cons_of_mem _ (List.mem_cons_of_mem _ (Option.mem_toList.mpr ha))
      simp only [Ty.children, List.forall_mem_cons] at hchild
      rw [newType_eq_mapChildren rfl rfl, ty, Ty.mapChildren, hchild.1, hchild.2.1,
        map_tyOption hname]
      rfl
    | _ =>
      simp only [Ty.children, List.forall_mem_cons] at hchild
      rw [newType_eq_mapChildren rfl rfl]
      simp only [ty, Ty.mapChildren, Counterparts.node, hchild]

/-- A type without declarations can be read while some reflection is, when it was written. -/
theorem exists_read {clean : Prop} (hleg : c.Legible) {inside : ReflectionId → Option Json} {t : Ty}
    (ht : t.declarations = []) (hlisted : c.Listed clean t.parts) {σ : Reading}
    (hroot : σ.revival.root = c.root) (hfiles : σ.revival.fileIds = c.files)
    (hactive : σ.revival.project.contains σ.revival.activeReflection = true) :
    ∃ fields, c.writer.type inside t = .obj fields ∧ ∀ depth, (Json.obj fields).depth ≤ depth →
      ∃ σ', ((Deserializer.standard.constructors depth).type fields).run σ =
          .ok (some (c.ty σ.revival.project.arena.size t), σ') ∧
        (clean → σ'.revival.issues = σ.revival.issues) := by
  obtain ⟨r, hr⟩ := Project.contains_iff.mp hactive
  have hview : View (c.site clean) σ.revival.activeReflection σ.revival.project.arena.size r σ :=
    ⟨rfl, rfl, hr, hroot, hfiles⟩
  have htyped : c.Typed clean inside σ.revival.activeReflection r t :=
    typed hleg t (fun d hd => absurd (ht ▸ hd) List.not_mem_nil) hlisted
  obtain ⟨fields, hwritten, hread⟩ := htyped
  refine ⟨fields, hwritten, fun depth hdepth => ?_⟩
  obtain ⟨y, spots, hreads, -, -⟩ := hread _ depth hview.lt hdepth
  obtain ⟨σ', hrun, hgrows⟩ := hreads σ hview
  exact ⟨σ', hrun, hgrows.issues⟩

end Copying

/-! ### Types in a project -/

namespace Project

variable {p : Project}

/-- What is found for what a project mentions, when its reflections and files get these numbers. -/
def counterparts (p : Project) (root : String) (files : List (Nat × FileId))
    (m : ReflectionId → ReflectionId) : Counterparts where
  id i := if p.contains i then some (m i) else none
  file file := if file < Json.wordBound then files.lookup file else none
  symbol := Symbol.reread root

/-- A type without declarations is written with a project and read while some reflection is. When its
numbers are then replaced by new ones, it is the same type as before of the counterparts of what it
mentions, and none of its numbers is missing. Nothing is amiss when every file that it links to is
listed. -/
theorem type_written (hp : p.Keyed) (hsize : p.arena.size ≤ Json.wordBound) (root : String)
    (declaration : ReflectionId → Option Json) {t : Ty} (ht : t.declarations = []) {σ : Reading}
    (hroot : σ.revival.root = root)
    (hactive : σ.revival.project.contains σ.revival.activeReflection = true)
    (m : ReflectionId → ReflectionId) :
    ∃ fields, Writer.type ⟨.standard, p, root⟩ declaration t = .obj fields ∧
      ∀ depth, (Json.obj fields).depth ≤ depth →
        ∃ t' σ', ((Deserializer.standard.constructors depth).type fields).run σ =
            .ok (some t', σ') ∧
          ((∀ q ∈ t.parts, ∀ file, q.file? = some file →
              file < Json.wordBound ∧ (σ.revival.fileId? file).isSome = true) →
            σ'.revival.issues = σ.revival.issues) ∧
          ∀ v : Revival, (∀ i, p.contains i = true → v.id? i = some (m i)) →
            Reader.newType v t' = (p.counterparts root σ.revival.fileIds m).ty p t ∧
            Reader.missingRefs v t' = [] ∧ Reader.missingLinks v t'.parts = [] := by
  let c : Copying := ⟨p, root, σ.revival.fileIds, fun _ => 0⟩
  have hleg : c.Legible := ⟨hp.id, hp.nested, hsize⟩
  have hlisted : c.Listed (∀ q ∈ t.parts, ∀ file, q.file? = some file →
      file < Json.wordBound ∧ (σ.revival.fileId? file).isSome = true) t.parts := by
    intro hall q hq file hfile
    obtain ⟨hlt, hsome⟩ := hall q hq file hfile
    rwa [Copying.file?, if_pos hlt]
  obtain ⟨fields, hwritten, hread⟩ := Copying.exists_read hleg ht hlisted hroot rfl hactive
  refine ⟨fields, hwritten, fun depth hdepth => ?_⟩
  obtain ⟨σ', hrun, hissues⟩ := hread depth hdepth
  refine ⟨_, σ', hrun, hissues, fun v hv => ?_⟩
  have hmatches : c.Matches v (p.counterparts root σ.revival.fileIds m) := by
    refine ⟨fun i => ?_, rfl, rfl⟩
    change (if p.contains i then some (m i) else none) = if p.contains i then v.id? i else none
    split
    · next hi => exact (hv i hi).symm
    · rfl
  have hcovered : c.Covered v := fun i hi => by
    rw [hv i hi]
    rfl
  refine ⟨hmatches.newType hleg t ht _, Copying.missingRefs_ty hleg hcovered _ t, ?_⟩
  refine Copying.missingLinks_parts hcovered fun q hq => ?_
  rw [Copying.parts_ty] at hq
  obtain ⟨q', -, rfl⟩ := List.mem_map.mp hq
  exact ⟨q', rfl⟩

/-- The union of an array of what a symbol leads to, of a zero with a sign and of what is still
pending. The first of them has a summary with a link to nothing. -/
def looseType : Ty :=
  .union [.array (.reference (.ofSymbol "x" sharedSymbol) (some [])),
    .literal (.number (.zero true)), .query (.ofTarget "y" (.pending 1)) none]
    (some [[.inlineTag "@link" "x" (some (.reflection 9)) none]])

/-- A revival that has new numbers for a namespace and a function. -/
def twoRenumbered : Revival :=
  { Revival.start (.ofName "q") "/repo" with ids := [(0, 0), (1, 5), (2, 6)] }

/-- The symbol leads to the function, whose new number is 6. -/
theorem type_written_looseType : ∃ fields,
    Writer.type ⟨.standard, twoOfSymbol, "/repo"⟩ (fun _ => none) looseType = .obj fields ∧
      ∃ t' σ', ((Deserializer.standard.constructors (Json.obj fields).depth).type fields).run
          ⟨twoRenumbered, []⟩ = .ok (some t', σ') ∧
        σ'.revival.issues = [] ∧
        Reader.newType twoRenumbered t' =
          .union [.array (.reference
              { Ref.ofSymbol "x" sharedSymbol with target := .reflection 6 } none),
            .literal (.number (.zero false)), .query (.broken "y") none]
            (some [[.inlineTag "@link" "x" none none]]) := by
  have hsound : twoOfSymbol.Sound :=
    (sound_ofName "p").run (fun _ _ => Command.Builds.keepsOutline) built_twoOfSymbol
  obtain ⟨fields, hwritten, hread⟩ := type_written (t := looseType) hsound.keyed (by decide) "/repo"
    (fun _ => none) rfl (σ := ⟨twoRenumbered, []⟩) rfl rfl (fun i => if i = 0 then 0 else i + 4)
  obtain ⟨t', σ', hrun, hissues, hnew⟩ := hread _ (Nat.le_refl _)
  refine ⟨fields, hwritten, t', σ', hrun, hissues fun q hq file hfile => ?_, ?_⟩
  · rw [List.mem_singleton.mp hq] at hfile
    cases hfile
  · have hids : ∀ i, twoOfSymbol.contains i = true →
        twoRenumbered.id? i = some (if i = 0 then 0 else i + 4) := by
      intro i hi
      rcases i with _ | _ | _ | i
      · rfl
      · rfl
      · rfl
      · cases hi
    have hfound : twoOfSymbol.resolveTarget? (.symbol sharedSymbol) = some 2 := by decide +kernel
    have hpending : twoOfSymbol.resolveTarget? (.pending 1) = none := rfl
    have hlive : twoOfSymbol.contains 2 = true := rfl
    have hdead : twoOfSymbol.contains 9 = false := rfl
    have hfinite : (Double.zero true).isFinite = true := by decide
    rw [(hnew twoRenumbered hids).1]
    simp [looseType, Counterparts.ty_eq, Counterparts.node, Ty.mapChildren, Counterparts.ref,
      Counterparts.refTarget, Ref.ofSymbol, Ref.ofTarget, Ref.broken, hfound, hpending, hlive, hdead,
      Literal.settled, hfinite, Counterparts.part, Counterparts.link?, counterparts]

end Project

end DocTree
