import DocTree.Proofs.Display.Bare
import DocTree.Proofs.Display.Reader

/-!
What is shown of a type says which type it is, but for the documentation of the members of its unions
and for where its references lead. For types of references, arrays, accesses, operators, tuples,
conditional types, intersections and unions the reader gives the type back: behind the text of a type
stand, begun and not finished, only parts of that type, and they bind as strongly as the type does.
-/

namespace DocTree.Ty

/-- A name that is a word and no word of the language of types. -/
structure Identifier (name : String) : Prop where
  ne : name.toList ≠ []
  letters : ∀ c ∈ name.toList, isLetter c = true
  free : name ∉ ["keyof", "unique", "readonly", "extends"]

/-- Types that are made of references, type arguments, arrays, accesses, operators, tuples, conditional
types, intersections and unions. The members of an intersection are no intersections and those of a
union no unions. -/
inductive Legible : Ty → Prop where
  | name {head : Ref} : Identifier head.name → Legible (.reference head none)
  | applied {head : Ref} {args : List Ty} : Identifier head.name → args ≠ [] →
      (∀ a ∈ args, Legible a) → Legible (.reference head (some args))
  | array {a : Ty} : Legible a → Legible (.array a)
  | indexedAccess {object index : Ty} : Legible object → Legible index →
      Legible (.indexedAccess object index)
  | operator {op : Operator} {target : Ty} : Legible target → Legible (.operator op target)
  | tuple {elements : List Ty} : (∀ a ∈ elements, Legible a) → Legible (.tuple elements)
  | conditional {check extend yes no : Ty} : Legible check → Legible extend → Legible yes → Legible no →
      Legible (.conditional check extend yes no)
  | intersection {types : List Ty} : 2 ≤ types.length → (∀ a ∈ types, Legible a) →
      (∀ a ∈ types, a.kind ≠ .intersection) → Legible (.intersection types)
  | union {types : List Ty} {summaries : Option (List (List Part))} : 2 ≤ types.length →
      (∀ a ∈ types, Legible a) → (∀ a ∈ types, a.kind ≠ .union) → Legible (.union types summaries)

variable {t u a : Ty} {k j : Strength} {text after : List Char} {fs ps : List Frame}

/-- Nothing among these types binds weaker than a conditional type. -/
theorem Legible.conditional_le (h : Legible t) : Strength.conditional ≤ t.strength := by
  cases h <;> simp only [strength] <;> decide

theorem wrapped_anything (t : Ty) (text : String) : t.wrapped .anything text = text :=
  if_neg (Nat.not_lt_zero _)

/-! ### Texts that are read -/

/-- A text is read as a type wherever there is so much room. Behind it stand, begun and not finished,
parts of the type that bind so strongly. -/
def ReadsAs (k : Strength) (text : List Char) (t : Ty) : Prop :=
  ∀ fs after, room fs ≤ k → Outside after → ∃ ps last,
    run ⟨fs, none⟩ (text ++ after) = run ⟨ps ++ fs, some last⟩ after ∧
      (∀ f ∈ ps, k ≤ f.strength) ∧ closeAll ps last = t

namespace ReadsAs

theorem mono (h : ReadsAs k text t) (hjk : j ≤ k) : ReadsAs j text t := by
  intro fs after hroom hafter
  obtain ⟨ps, last, hrun, hps, hlast⟩ := h fs after (Nat.le_trans hroom hjk) hafter
  exact ⟨ps, last, hrun, fun f hf => Nat.le_trans hjk (hps f hf), hlast⟩

/-- A text behind which nothing is left unfinished. -/
theorem of_run (h : ∀ fs after, Outside after →
    run ⟨fs, none⟩ (text ++ after) = run ⟨fs, some t⟩ after) : ReadsAs k text t := by
  intro fs after _ hafter
  exact ⟨[], t, h fs after hafter, fun f hf => absurd hf List.not_mem_nil, rfl⟩

theorem run_primary (h : ReadsAs .primary text t) (fs : List Frame) (hafter : Outside after) :
    run ⟨fs, none⟩ (text ++ after) = run ⟨fs, some t⟩ after := by
  have hroom : room fs ≤ Strength.primary := Nat.le_trans (room_le_operator fs) (by decide)
  obtain ⟨ps, last, hrun, hps, hlast⟩ := h fs after hroom hafter
  cases ps with
  | nil => rw [hrun, ← hlast]; rfl
  | cons f ps =>
    exact absurd (hps f List.mem_cons_self) (Nat.not_le_of_lt f.strength_lt_primary)

/-- In parentheses or not, a type is read where it is asked for. -/
theorem wrapped (h : ReadsAs t.strength t.display.toList u)
    (hleast : Strength.conditional ≤ t.strength) (k : Strength) :
    ReadsAs k (t.wrapped k t.display).toList u := by
  rw [Ty.wrapped]
  split
  · refine of_run fun fs after _ => ?_
    obtain ⟨ps, last, hrun, hps, hlast⟩ :=
      h (.group :: fs) (')' :: after) (Nat.zero_le _) (outside_mark rfl)
    have hshown : ("(" ++ t.display ++ ")").toList ++ after =
        '(' :: (t.display.toList ++ ')' :: after) := by
      simp [String.toList_append]
    rw [hshown]
    change run ⟨.group :: fs, none⟩ (t.display.toList ++ ')' :: after) = _
    rw [hrun, run_closeGroup fun f hf => Nat.le_trans hleast (hps f hf), hlast]
  · next hle => exact h.mono (Nat.le_of_not_lt hle)

end ReadsAs

/-! ### Members -/

/-- The texts of types with a separator between them, read member by member: all but the last are put
into what has been begun. -/
theorem run_members {separator : String} {asked : Strength} (frame : List Ty → Frame) (fs : List Frame)
    (hroom : ∀ before, (frame before).asked ≤ k)
    (hseparator : ∀ text, Outside (separator.toList ++ text))
    (hjoin : ∀ {ps before last text}, (∀ f ∈ ps, k ≤ f.strength) →
      run ⟨ps ++ frame before :: fs, some last⟩ (separator.toList ++ text) =
        run ⟨frame (before ++ [closeAll ps last]) :: fs, none⟩ text)
    (a : Ty) (as before : List Ty)
    (hreads : ∀ b ∈ a :: as, ReadsAs k (b.wrapped asked b.display).toList b.bare)
    (hafter : Outside after) : ∃ ps init last,
      run ⟨frame before :: fs, none⟩ ((displayList separator asked (a :: as)).toList ++ after) =
        run ⟨ps ++ frame (before ++ init) :: fs, some last⟩ after ∧
      (∀ f ∈ ps, k ≤ f.strength) ∧ init ++ [closeAll ps last] = bareList (a :: as) := by
  have hfirst := hreads a List.mem_cons_self
  induction as generalizing a before with
  | nil =>
    obtain ⟨ps, last, hrun, hps, hlast⟩ := hfirst (frame before :: fs) after (hroom before) hafter
    refine ⟨ps, [], last, ?_, hps, by rw [hlast]; rfl⟩
    rw [displayList, displayMore, String.append_empty, hrun, List.append_nil]
  | cons b bs ih =>
    have hshown : (displayList separator asked (a :: b :: bs)).toList ++ after =
        (a.wrapped asked a.display).toList ++ (separator.toList ++
          ((displayList separator asked (b :: bs)).toList ++ after)) := by
      simp [displayList, displayMore, String.toList_append]
    obtain ⟨ps, last, hrun, hps, hlast⟩ := hfirst (frame before :: fs) _ (hroom before) (hseparator _)
    obtain ⟨qs, init, last', hrun', hqs, hinit⟩ := ih b (before ++ [a.bare])
      (fun c hc => hreads c (List.mem_cons_of_mem a hc)) (hreads b (by simp))
    refine ⟨qs, a.bare :: init, last', ?_, hqs, by rw [List.cons_append, hinit]; rfl⟩
    rw [hshown, hrun, hjoin hps, hlast, hrun', List.append_assoc, List.singleton_append]

/-! ### One kind of type after the other -/

theorem readsAs_word {name : String} (hname : Identifier name) (fs : List Frame)
    (hafter : Outside after) : run ⟨fs, none⟩ (name.toList ++ after) =
      run ⟨fs, some (.reference (.broken name) none)⟩ after := by
  have hword : Operator.ofWord? name = none := by
    have hfree := hname.free
    simp only [List.mem_cons, not_or] at hfree
    simp [Operator.ofWord?, Operator.word, Ne.symm hfree.1, Ne.symm hfree.2.1, Ne.symm hfree.2.2.1]
  rw [run, tokens_word hname.ne hname.letters hafter, List.foldl_cons, step, beforeOperand,
    String.ofList_toList, hword]
  rfl

theorem readsAs_operator {op : Operator} {target : Ty}
    (h : ReadsAs .operator (target.wrapped .operator target.display).toList target.bare) :
    ReadsAs .operator (Ty.operator op target).display.toList (.operator op target.bare) := by
  intro fs after _ hafter
  obtain ⟨ps, last, hrun, hps, hlast⟩ := h (.operator op :: fs) after (Nat.le_refl _) hafter
  refine ⟨ps ++ [.operator op], last, ?_, fun f hf => ?_, ?_⟩
  · have hword : run ⟨fs, none⟩ (op.word.toList ++ (" ".toList ++
        ((target.wrapped .operator target.display).toList ++ after))) =
          run ⟨.operator op :: fs, none⟩
            ((target.wrapped .operator target.display).toList ++ after) := by
      cases op <;> rfl
    simp only [display, String.toList_append, List.append_assoc]
    rw [hword, hrun]
    simp
  · rcases List.mem_append.mp hf with hf | hf
    · exact hps f hf
    · obtain rfl := List.mem_singleton.mp hf
      exact Nat.le_refl _
  · rw [closeAll_concat, hlast, Frame.close]

theorem readsAs_conditional {check extend yes no : Ty}
    (hcheck : ReadsAs .aboveConditional (check.wrapped .aboveConditional check.display).toList
      check.bare)
    (hextend : ReadsAs .aboveConditional (extend.wrapped .aboveConditional extend.display).toList
      extend.bare)
    (hyes : ReadsAs .conditional yes.display.toList yes.bare)
    (hno : ReadsAs .conditional no.display.toList no.bare) :
    ReadsAs .conditional (Ty.conditional check extend yes no).display.toList
      (.conditional check.bare extend.bare yes.bare no.bare) := by
  intro fs after hroom hafter
  have hbegin : ∀ text, Outside (" extends ".toList ++ text) := fun _ => outside_mark rfl
  have hquestion : ∀ text, Outside (" ? ".toList ++ text) := fun _ => outside_mark rfl
  have hcolon : ∀ text, Outside (" : ".toList ++ text) := fun _ => outside_mark rfl
  have hunion : ∀ {ps : List Frame}, (∀ f ∈ ps, Strength.aboveConditional ≤ f.strength) →
      ∀ f ∈ ps, Strength.union ≤ f.strength := fun hps f hf => f.union_le_strength (hps f hf)
  obtain ⟨ps, last, hrun, hps, hlast⟩ := hcheck fs _ (Nat.le_trans hroom (by decide)) (hbegin _)
  obtain ⟨qs, last', hrun', hqs, hlast'⟩ :=
    hextend (.condition check.bare :: fs) _ (Nat.le_refl _) (hquestion _)
  obtain ⟨ys, last'', hrun'', hys, hlast''⟩ :=
    hyes (.branches check.bare extend.bare :: fs) _ (Nat.zero_le _) (hcolon _)
  obtain ⟨ns, last''', hrun''', hns, hlast'''⟩ :=
    hno (.otherwise check.bare extend.bare yes.bare :: fs) after (Nat.zero_le _) hafter
  refine ⟨ns ++ [.otherwise check.bare extend.bare yes.bare], last''', ?_, fun f hf => ?_, ?_⟩
  · simp only [display, String.toList_append, List.append_assoc]
    rw [hrun, run_extends (hunion hps) (strength_lt_of_room (by decide) hroom (by decide)), hlast,
      hrun', run_question (hunion hqs), hlast', hrun'', run_colon hys, hlast'', hrun''']
    simp
  · rcases List.mem_append.mp hf with hf | hf
    · exact hns f hf
    · obtain rfl := List.mem_singleton.mp hf
      exact Nat.le_refl _
  · rw [closeAll_concat, hlast''', Frame.close]

theorem readsAs_array (h : ReadsAs .primary (a.wrapped .primary a.display).toList a.bare) :
    ReadsAs k (Ty.array a).display.toList (.array a.bare) := by
  refine ReadsAs.of_run fun fs after _ => ?_
  have houtside : Outside ("[]".toList ++ after) := outside_mark rfl
  simp only [display, String.toList_append, List.append_assoc]
  rw [h.run_primary fs houtside]
  rfl

theorem readsAs_indexedAccess {object index : Ty}
    (hobject : ReadsAs .primary (object.wrapped .primary object.display).toList object.bare)
    (hindex : ReadsAs .conditional index.display.toList index.bare) :
    ReadsAs k (Ty.indexedAccess object index).display.toList
      (.indexedAccess object.bare index.bare) := by
  refine ReadsAs.of_run fun fs after hafter => ?_
  obtain ⟨ps, last, hrun, hps, hlast⟩ :=
    hindex (.index object.bare :: fs) (']' :: after) (Nat.zero_le _) (outside_mark rfl)
  have houtside : ∀ text, Outside ("[".toList ++ text) := fun _ => outside_mark rfl
  simp only [display, String.toList_append, List.append_assoc]
  rw [hobject.run_primary fs (houtside _)]
  change run ⟨.index object.bare :: fs, none⟩ (index.display.toList ++ ']' :: after) = _
  rw [hrun, run_closeIndex hps, hlast]

/-- The members of a list, with commas between them. -/
theorem run_elements (frame : List Ty → Frame) (fs : List Frame)
    (hroom : ∀ before, (frame before).asked = .anything)
    (hjoin : ∀ {ps before last text}, (∀ f ∈ ps, Strength.conditional ≤ f.strength) →
      run ⟨ps ++ frame before :: fs, some last⟩ (", ".toList ++ text) =
        run ⟨frame (before ++ [closeAll ps last]) :: fs, none⟩ text)
    {as : List Ty} (hne : as ≠ [])
    (hreads : ∀ b ∈ as, ReadsAs .conditional b.display.toList b.bare)
    (hafter : Outside after) : ∃ ps init last,
      run ⟨frame [] :: fs, none⟩ ((displayList ", " .anything as).toList ++ after) =
        run ⟨ps ++ frame init :: fs, some last⟩ after ∧
      (∀ f ∈ ps, Strength.conditional ≤ f.strength) ∧ init ++ [closeAll ps last] = bareList as := by
  cases as with
  | nil => exact absurd rfl hne
  | cons b bs =>
    have houtside : ∀ text, Outside (", ".toList ++ text) := fun _ => outside_mark rfl
    refine run_members frame fs (fun before => ?_) houtside hjoin b bs [] (fun c hc => ?_) hafter
    · rw [hroom]
      decide
    · rw [wrapped_anything]
      exact hreads c hc

theorem readsAs_tuple {elements : List Ty}
    (h : ∀ b ∈ elements, ReadsAs .conditional b.display.toList b.bare) :
    ReadsAs k (Ty.tuple elements).display.toList (.tuple (bareList elements)) := by
  refine ReadsAs.of_run fun fs after _ => ?_
  have hclose : Outside (']' :: after) := outside_mark rfl
  simp only [display, String.toList_append, List.append_assoc]
  change run ⟨.tuple [] :: fs, none⟩ (_ ++ ']' :: after) = _
  by_cases hne : elements = []
  · subst hne
    rfl
  · obtain ⟨ps, init, last, hrun, hps, hinit⟩ := run_elements .tuple fs (fun _ => rfl)
      run_comma_tuple hne h hclose
    rw [hrun, run_closeTuple hps, hinit]

theorem readsAs_applied {head : Ref} {args : List Ty} (hname : Identifier head.name) (hne : args ≠ [])
    (h : ∀ b ∈ args, ReadsAs .conditional b.display.toList b.bare) :
    ReadsAs k (Ty.reference head (some args)).display.toList
      (.reference (.broken head.name) (some (bareList args))) := by
  refine ReadsAs.of_run fun fs after _ => ?_
  have hclose : Outside ('>' :: after) := outside_mark rfl
  have hshown : (Ty.reference head (some args)).display.toList ++ after =
      head.name.toList ++ '<' :: ((displayList ", " .anything args).toList ++ '>' :: after) := by
    cases args with
    | nil => exact absurd rfl hne
    | cons b bs =>
      rw [display, displayArgs, displayList, wrapped_anything]
      simp [String.toList_append]
  rw [hshown, readsAs_word hname fs (outside_mark rfl)]
  change run ⟨.args head.name [] :: fs, none⟩ (_ ++ '>' :: after) = _
  obtain ⟨ps, init, last, hrun, hps, hinit⟩ := run_elements (.args head.name) fs (fun _ => rfl)
    (fun hps => run_comma_args hps) hne h hclose
  rw [hrun, run_closeArgs hps, hinit]

/-- At least two members with a separator between them. The first separator begins what the others
continue. -/
theorem readsAs_joined {separator : String} {asked : Strength} (frame : List Ty → Frame)
    (join : List Ty → Ty) (hroom : ∀ before, (frame before).asked ≤ k) (hasked : asked ≤ k)
    (hseparator : ∀ text, Outside (separator.toList ++ text))
    (hbegin : ∀ {fs ps last text}, (∀ f ∈ ps, k ≤ f.strength) → room fs ≤ asked →
      run ⟨ps ++ fs, some last⟩ (separator.toList ++ text) =
        run ⟨frame [closeAll ps last] :: fs, none⟩ text)
    (hjoin : ∀ {fs ps before last text}, (∀ f ∈ ps, k ≤ f.strength) →
      run ⟨ps ++ frame before :: fs, some last⟩ (separator.toList ++ text) =
        run ⟨frame (before ++ [closeAll ps last]) :: fs, none⟩ text)
    (hstrength : ∀ before, (frame before).strength = asked)
    (hclose : ∀ before last, (frame before).close last = join (before ++ [last]))
    {types : List Ty} (hlen : 2 ≤ types.length)
    (h : ∀ b ∈ types, ReadsAs k (b.wrapped asked b.display).toList b.bare) :
    ReadsAs asked (displayList separator asked types).toList (join (bareList types)) := by
  obtain ⟨b, c, cs, rfl⟩ : ∃ b c cs, types = b :: c :: cs := by
    match types, hlen with
    | b :: c :: cs, _ => exact ⟨b, c, cs, rfl⟩
  intro fs after hfs hafter
  obtain ⟨ps, last, hrun, hps, hlast⟩ := h b (by simp) fs _ (Nat.le_trans hfs hasked) (hseparator _)
  obtain ⟨qs, init, last', hrun', hqs, hinit⟩ :=
    run_members frame fs hroom hseparator hjoin c cs [b.bare]
      (fun d hd => h d (List.mem_cons_of_mem b hd)) hafter
  refine ⟨qs ++ [frame ([b.bare] ++ init)], last', ?_, fun f hf => ?_, ?_⟩
  · have hshown : (displayList separator asked (b :: c :: cs)).toList ++ after =
        (b.wrapped asked b.display).toList ++ (separator.toList ++
          ((displayList separator asked (c :: cs)).toList ++ after)) := by
      simp [displayList, displayMore, String.toList_append]
    rw [hshown, hrun, hbegin hps hfs, hlast, hrun']
    simp
  · rcases List.mem_append.mp hf with hf | hf
    · exact Nat.le_trans hasked (hqs f hf)
    · obtain rfl := List.mem_singleton.mp hf
      exact Nat.le_of_eq (hstrength _).symm
  · rw [closeAll_concat, hclose, List.append_assoc, hinit]
    rfl

/-- Where one kind of type alone binds as strongly as is asked, another is read one step higher. -/
theorem wrapped_succ {text : String} (h : t.strength ≠ k) :
    t.wrapped k text = t.wrapped (k + 1) text := by
  rw [wrapped, wrapped]
  by_cases hlt : t.strength < k
  · rw [if_pos hlt, if_pos (Nat.lt_succ_of_lt hlt)]
  · have hle : k ≤ t.strength := Nat.le_of_not_lt hlt
    have hnot : ¬ t.strength < k + 1 := fun hsucc =>
      h (Nat.le_antisymm (Nat.le_of_lt_succ hsucc) hle)
    rw [if_neg hlt, if_neg hnot]

theorem Legible.strength_ne_intersection (h : Legible t) (hkind : t.kind ≠ .intersection) :
    t.strength ≠ .intersection := by
  cases h with
  | intersection => exact absurd rfl hkind
  | _ =>
    simp only [strength]
    decide

theorem Legible.strength_ne_union (h : Legible t) (hkind : t.kind ≠ .union) :
    t.strength ≠ .union := by
  cases h with
  | union => exact absurd rfl hkind
  | _ =>
    simp only [strength]
    decide

/-! ### All types -/

/-- The text of a legible type is read as the type without what is not shown. -/
theorem Legible.readsAs (h : Legible t) : ReadsAs t.strength t.display.toList t.bare := by
  have hplace : ∀ {t}, Legible t → ReadsAs t.strength t.display.toList t.bare →
      ReadsAs .conditional t.display.toList t.bare := fun ht hread => hread.mono ht.conditional_le
  induction h with
  | @name head hname =>
    refine ReadsAs.of_run fun fs after hafter => ?_
    rw [display, displayArgs, String.append_empty]
    exact readsAs_word hname fs hafter
  | applied hname hne hargs ih =>
    exact readsAs_applied hname hne fun b hb => hplace (hargs b hb) (ih b hb)
  | array ha ih => exact readsAs_array (ih.wrapped ha.conditional_le _)
  | indexedAccess hobject hindex ihobject ihindex =>
    exact readsAs_indexedAccess (ihobject.wrapped hobject.conditional_le _) (hplace hindex ihindex)
  | operator htarget ih => exact readsAs_operator (ih.wrapped htarget.conditional_le _)
  | tuple helements ih => exact readsAs_tuple fun b hb => hplace (helements b hb) (ih b hb)
  | conditional hcheck hextend hyes hno ihcheck ihextend ihyes ihno =>
    exact readsAs_conditional (ihcheck.wrapped hcheck.conditional_le _)
      (ihextend.wrapped hextend.conditional_le _) (hplace hyes ihyes) (hplace hno ihno)
  | intersection hlen htypes hkind ih =>
    have houtside : ∀ text, Outside (" & ".toList ++ text) := fun _ => outside_mark rfl
    rw [display]
    refine readsAs_joined .intersection .intersection (fun _ => Nat.le_refl _) (by decide) houtside
      run_and_first run_and (fun _ => rfl) (fun _ _ => rfl) hlen fun b hb => ?_
    rw [wrapped_succ ((htypes b hb).strength_ne_intersection (hkind b hb))]
    exact (ih b hb).wrapped (htypes b hb).conditional_le _
  | union hlen htypes hkind ih =>
    have houtside : ∀ text, Outside (" | ".toList ++ text) := fun _ => outside_mark rfl
    rw [display]
    refine readsAs_joined .union (.union · none) (fun _ => Nat.le_refl _) (by decide) houtside
      run_or_first run_or (fun _ => rfl) (fun _ _ => rfl) hlen fun b hb => ?_
    rw [wrapped_succ ((htypes b hb).strength_ne_union (hkind b hb))]
    exact (ih b hb).wrapped (htypes b hb).conditional_le _

/-- The reader gives back the type that is shown. -/
theorem Legible.read_display (h : Legible t) : read t.display = some t.bare := by
  have hnone : Outside [] := fun c hc => by cases hc
  obtain ⟨ps, last, hrun, hps, hlast⟩ := h.readsAs [] [] (Nat.zero_le _) hnone
  rw [List.append_nil] at hrun
  have hfinish : finish .conditional (ps ++ []) last = ([], t.bare) := by
    have hstrong : ∀ f ∈ ps, Strength.conditional ≤ f.strength := fun f hf =>
      Nat.le_trans h.conditional_le (hps f hf)
    rw [finish_eq hstrong (fun f hf => by cases hf), hlast]
  rw [read, hrun]
  change some (finish .conditional (ps ++ []) last).2 = some t.bare
  rw [hfinish]

/-- Two legible types are shown by the same text just if they are the same but for the documentation of
the members of their unions and for where their references lead. -/
theorem display_eq_iff_bare_eq (ht : Legible t) (hu : Legible u) :
    t.display = u.display ↔ t.bare = u.bare := by
  constructor
  · intro h
    have hread := ht.read_display
    rw [h, hu.read_display] at hread
    exact (Option.some.inj hread).symm
  · intro h
    rw [← display_bare t, h, display_bare u]

/-- `A` and `B`, with what is said about each of them. -/
def eitherOf (summaries : Option (List (List Part))) : Ty :=
  .union [.reference (.broken "A") none, .reference (.broken "B") none] summaries

theorem legible_eitherOf (summaries : Option (List (List Part))) : Legible (eitherOf summaries) := by
  have hA : Identifier "A" := ⟨by decide, List.all_eq_true.mp rfl, by decide⟩
  have hB : Identifier "B" := ⟨by decide, List.all_eq_true.mp rfl, by decide⟩
  refine .union (by decide) (fun a ha => ?_) (fun a ha => ?_) <;>
    simp only [List.mem_cons, List.not_mem_nil, or_false] at ha
  · rcases ha with rfl | rfl
    · exact .name hA
    · exact .name hB
  · rcases ha with rfl | rfl <;> decide

/-- The keys of a list, and a list of keys: what differs in its parentheses is told apart. -/
theorem display_eq_iff_bare_eq_keyof :
    let keys := Ty.operator .keyof (.array (eitherOf none))
    let list := Ty.array (.operator .keyof (eitherOf (some [[], []])))
    Legible keys ∧ Legible list ∧ keys.display ≠ list.display := by
  intro keys list
  have hkeys : Legible keys := .operator (.array (legible_eitherOf none))
  have hlist : Legible list := .array (.operator (legible_eitherOf (some [[], []])))
  refine ⟨hkeys, hlist, fun h => ?_⟩
  have hbare : keys.bare = list.bare := (display_eq_iff_bare_eq hkeys hlist).mp h
  simp [keys, list, bare] at hbare

/-- Types that differ in what is said about the members of a union are shown by the same text. -/
theorem display_eitherOf_eq : Legible (eitherOf none) ∧ Legible (eitherOf (some [[], []])) ∧
    (eitherOf none).display = (eitherOf (some [[], []])).display ∧
    eitherOf none ≠ eitherOf (some [[], []]) := by
  refine ⟨legible_eitherOf _, legible_eitherOf _, rfl, fun h => ?_⟩
  simp [eitherOf] at h

end DocTree.Ty
