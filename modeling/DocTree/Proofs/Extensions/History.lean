import Mathlib.Data.List.Induction
import DocTree.Proofs.Extensions.Placement
import DocTree.Reader.Reflection
import DocTree.Writer.Component

/-!
What has been added to a serializer and a deserializer and not removed since. Extensions are added at
several points: to the components of one sort of values, to the supplements of the deserializer, to
the listeners at the beginning and to those at the end. Each has its own list, but the components of
all sorts draw their numbers from one counter, and so do the listeners of both events. Numbers are
counted without bound.

Whatever the history, the list of a point holds just what was added there and not removed since, by
descending priority, and what has the same priority in the order in which it was added. The lists are
kept in order by sorting anew or by halving; what one request does to them is the same. A number is
handed out once, and is found by the first request that removes it and by no other.
-/

namespace DocTree

/-- Where an extension is added. -/
inductive Point where
  | component (sort : ItemSort)
  | supplement
  | atBegin
  | atEnd
  deriving DecidableEq

namespace Point

/-- What is added at a point. -/
abbrev Item : Point → Type
  | .component sort => Component sort.Own sort.Item
  | .supplement => Supplement
  | .atBegin => BeginListener
  | .atEnd => EndListener

/-- What numbers the extensions that are added. -/
inductive Desk where
  | components | supplements | listeners
  deriving DecidableEq

/-- The desk that numbers what is added at a point. -/
def desk : Point → Desk
  | .component _ => .components
  | .supplement => .supplements
  | .atBegin | .atEnd => .listeners

end Point

/-- All that can be extended. -/
structure Extensions where
  serializer : Serializer
  deserializer : Deserializer

namespace Extensions

open Point (Desk)

/-- No extensions, and not even the standard components. -/
def bare : Extensions := ⟨.empty, .standard⟩

/-- The standard format. -/
def standard : Extensions := ⟨.standard, .standard⟩

/-- The entries of a point, in the order in which they act. -/
def entries (x : Extensions) : (p : Point) → List (Ranked.Entry p.Item)
  | .component sort => x.serializer.components sort
  | .supplement => x.deserializer.supplements.entries
  | .atBegin => x.serializer.listeners.begins
  | .atEnd => x.serializer.listeners.ends

/-- The number that a desk gives next. -/
def next (x : Extensions) : Desk → Nat
  | .components => x.serializer.next
  | .supplements => x.deserializer.supplements.next
  | .listeners => x.serializer.listeners.next

/-! ### Requests -/

/-- An extension is added, or removed by its number. The sorts of values are looked through in any
order for a component that is removed. -/
inductive Request where
  | add (p : Point) (priority : Int) (item : p.Item)
  | remove (d : Desk) (number : Nat) (order : ItemSort.Order)

inductive Answer where
  /-- The number under which it was added. -/
  | number (n : Nat)
  /-- Whether there was one to remove. -/
  | found (was : Bool)

def perform (x : Extensions) : Request → Extensions × Answer
  | .add (.component sort) priority c =>
    let (s, n) := x.serializer.addComponent sort priority c
    ({ x with serializer := s }, .number n)
  | .add .supplement priority s =>
    let (r, n) := x.deserializer.supplements.add priority s
    ({ x with deserializer := { x.deserializer with supplements := r } }, .number n)
  | .add .atBegin priority notes =>
    let (l, n) := x.serializer.listeners.add priority (.atBegin notes)
    ({ x with serializer := { x.serializer with listeners := l } }, .number n)
  | .add .atEnd priority act =>
    let (l, n) := x.serializer.listeners.add priority (.atEnd act)
    ({ x with serializer := { x.serializer with listeners := l } }, .number n)
  | .remove .components number order =>
    let (s, was) := x.serializer.removeFirst number order.sorts
    ({ x with serializer := s }, .found was)
  | .remove .supplements number _ =>
    let (r, was) := x.deserializer.supplements.remove number
    ({ x with deserializer := { x.deserializer with supplements := r } }, .found was)
  | .remove .listeners number _ =>
    let (l, was) := x.serializer.listeners.remove number
    ({ x with serializer := { x.serializer with listeners := l } }, .found was)

/-- The extensions after one request after the other. -/
def after (x : Extensions) (rs : List Request) : Extensions := rs.foldl (fun x r => (x.perform r).1) x

/-! ### Histories -/

/-- Something is added under a number of a desk. -/
def Request.addsAt (d : Desk) : Request → Bool
  | .add p _ _ => p.desk = d
  | .remove .. => false

/-- How many numbers a desk has given. -/
def given (d : Desk) (rs : List Request) : Nat := rs.countP (·.addsAt d)

/-- An entry was added at a point and has not been removed since. -/
def Stands (rs : List Request) (p : Point) (e : Ranked.Entry p.Item) : Prop :=
  ∃ before later, rs = before ++ .add p e.priority e.item :: later ∧ e.number = given p.desk before ∧
    ∀ order, .remove p.desk e.number order ∉ later

variable {x y : Extensions} {p q : Point} {d : Desk} {number : Nat} {rs : List Request} {r : Request}

/-! ### The invariant -/

/-- An entry with its point. -/
abbrev Registered := (p : Point) × Ranked.Entry p.Item

/-- All lists are in order, and what one desk has numbered has numbers of its own below the next one. -/
structure Orderly (x : Extensions) : Prop where
  inOrder : ∀ p, Ranked.InOrder (x.entries p)
  below : ∀ p, ∀ e ∈ x.entries p, e.number < x.next p.desk
  unique : ∀ a b : Registered, a.2 ∈ x.entries a.1 → b.2 ∈ x.entries b.1 →
    a.1.desk = b.1.desk → a.2.number = b.2.number → a = b

theorem Orderly.point_eq (h : Orderly x) {e : Ranked.Entry p.Item} {f : Ranked.Entry q.Item}
    (he : e ∈ x.entries p) (hf : f ∈ x.entries q) (hdesk : p.desk = q.desk)
    (hnumber : e.number = f.number) : p = q :=
  congrArg Sigma.fst (h.unique ⟨p, e⟩ ⟨q, f⟩ he hf hdesk hnumber)

theorem Orderly.entry_eq (h : Orderly x) {e f : Ranked.Entry p.Item} (he : e ∈ x.entries p)
    (hf : f ∈ x.entries p) (hnumber : e.number = f.number) : e = f :=
  eq_of_heq (Sigma.mk.inj (h.unique ⟨p, e⟩ ⟨p, f⟩ he hf rfl hnumber)).2

/-! ### What each request does -/

/-- An entry was placed at a point and took its number. -/
structure Placed (x y : Extensions) (p : Point) (e : Ranked.Entry p.Item) : Prop where
  here : y.entries p = Ranked.placed e (x.entries p)
  elsewhere : ∀ q, q ≠ p → y.entries q = x.entries q
  next : ∀ d, y.next d = if p.desk = d then x.next d + 1 else x.next d

/-- What had a number was taken out at a point. -/
structure Struck (x y : Extensions) (p : Point) (number : Nat) : Prop where
  here : y.entries p = Ranked.strike number (x.entries p)
  elsewhere : ∀ q, q ≠ p → y.entries q = x.entries q
  next : ∀ d, y.next d = x.next d

theorem components_setComponents_self (s : Serializer) (sort : ItemSort)
    (components : List (Ranked.Entry (Component sort.Own sort.Item))) :
    (s.setComponents sort components).components sort = components := dif_pos rfl

theorem components_setComponents_of_ne (s : Serializer) {sort other : ItemSort} (h : other ≠ sort)
    (components : List (Ranked.Entry (Component sort.Own sort.Item))) :
    (s.setComponents sort components).components other = s.components other := dif_neg h.symm

theorem answer_add (x : Extensions) (p : Point) (priority : Int) (item : p.Item) :
    (x.perform (.add p priority item)).2 = .number (x.next p.desk) := by
  cases p <;> rfl

/-- Sorted in or slotted in, the new entry stands in its place. -/
theorem placed_add (h : Orderly x) (p : Point) (priority : Int) (item : p.Item) :
    Placed x (x.perform (.add p priority item)).1 p ⟨x.next p.desk, priority, item⟩ := by
  have hfalling := fun p => (h.inOrder p).falling
  cases p with
  | component sort =>
    refine ⟨?_, fun q hq => ?_, fun d => by cases d <;> rfl⟩
    · exact (components_setComponents_self ..).trans (Ranked.sortIn_eq (hfalling (.component sort)))
    · cases q with
      | component other => exact components_setComponents_of_ne _ (fun heq => hq (congrArg _ heq)) _
      | supplement => rfl
      | atBegin => rfl
      | atEnd => rfl
  | supplement =>
    refine ⟨Ranked.sortIn_eq (hfalling .supplement), fun q hq => ?_, fun d => by cases d <;> rfl⟩
    cases q <;> first | rfl | exact absurd rfl hq
  | atBegin =>
    refine ⟨Ranked.slotIn_eq (hfalling .atBegin), fun q hq => ?_, fun d => by cases d <;> rfl⟩
    cases q <;> first | rfl | exact absurd rfl hq
  | atEnd =>
    refine ⟨Ranked.slotIn_eq (hfalling .atEnd), fun q hq => ?_, fun d => by cases d <;> rfl⟩
    cases q <;> first | rfl | exact absurd rfl hq

/-- A number that only one sort has is taken from that sort, wherever it stands in the order. -/
theorem removeFirst_of_mem {s : Serializer} {sort : ItemSort} {sorts : List ItemSort}
    {e : Ranked.Entry (Component sort.Own sort.Item)} (he : e ∈ s.components sort)
    (honly : ∀ other, ∀ f ∈ s.components other, f.number = e.number → other = sort)
    (hsort : sort ∈ sorts) :
    s.removeFirst e.number sorts =
      (s.setComponents sort ((s.components sort).eraseP (·.number = e.number)), true) := by
  induction sorts with
  | nil => cases hsort
  | cons first others ih =>
    rw [Serializer.removeFirst]
    split
    · next hany =>
      obtain ⟨f, hf, hnumber⟩ := List.any_eq_true.mp hany
      obtain rfl := honly first f hf (of_decide_eq_true hnumber)
      rfl
    · next hnone =>
      refine ih ((List.mem_cons.mp hsort).resolve_left ?_)
      rintro rfl
      exact hnone (List.any_eq_true.mpr ⟨e, he, decide_eq_true rfl⟩)

/-- A number that no sort has is not found. -/
theorem removeFirst_of_forall_ne {s : Serializer} {sorts : List ItemSort}
    (h : ∀ sort, ∀ e ∈ s.components sort, e.number ≠ number) :
    s.removeFirst number sorts = (s, false) := by
  induction sorts with
  | nil => rfl
  | cons first others ih =>
    rw [Serializer.removeFirst, if_neg, ih]
    intro hany
    obtain ⟨e, he, hnumber⟩ := List.any_eq_true.mp hany
    exact h first e he (of_decide_eq_true hnumber)

theorem listeners_remove_of_forall_ne {l : Listeners} (hbegins : ∀ e ∈ l.begins, e.number ≠ number)
    (hends : ∀ e ∈ l.ends, e.number ≠ number) : l.remove number = (l, false) := by
  simp [Listeners.remove, Ranked.strike_of_forall_ne hbegins, Ranked.strike_of_forall_ne hends]

/-- A listener for either event is found. -/
theorem listeners_remove_of_exists {l : Listeners}
    (h : (∃ e ∈ l.begins, e.number = number) ∨ ∃ e ∈ l.ends, e.number = number) :
    (l.remove number).2 = true := by
  have hbegins : (Ranked.strike number l.begins).length ≤ l.begins.length := List.length_filter_le ..
  have hends : (Ranked.strike number l.ends).length ≤ l.ends.length := List.length_filter_le ..
  refine decide_eq_true fun hsize => ?_
  have hlength : (Ranked.strike number l.begins).length + (Ranked.strike number l.ends).length =
      l.begins.length + l.ends.length := hsize
  rcases h with h | h
  · have hshorter := Ranked.length_strike.mpr h
    omega
  · have hshorter := Ranked.length_strike.mpr h
    omega

/-- What is registered can be removed. -/
theorem struck_remove (h : Orderly x) {e : Ranked.Entry p.Item} (he : e ∈ x.entries p)
    (order : ItemSort.Order) :
    (x.perform (.remove p.desk e.number order)).2 = .found true ∧
      Struck x (x.perform (.remove p.desk e.number order)).1 p e.number := by
  -- Other points of the desk have nothing under the number, so nothing is taken out there.
  have hothers : ∀ q, q ≠ p → q.desk = p.desk →
      Ranked.strike e.number (x.entries q) = x.entries q := fun q hq hdesk =>
    Ranked.strike_of_forall_ne fun f hf hnumber => hq (h.point_eq hf he hdesk hnumber)
  cases p with
  | component sort =>
    have honly : ∀ other, ∀ f ∈ x.serializer.components other, f.number = e.number →
        other = sort := fun other f hf hnumber =>
      Point.component.inj (h.point_eq (p := .component other) hf he rfl hnumber)
    have hremove := removeFirst_of_mem he honly (order.complete sort)
    have herase : (x.serializer.components sort).eraseP (·.number = e.number) =
        Ranked.strike e.number (x.serializer.components sort) :=
      Ranked.eraseP_eq_strike (h.inOrder (.component sort)).nodup fun f hf g hg hfe hge =>
        h.entry_eq (p := .component sort) hf hg (hfe.trans hge.symm)
    simp only [perform, Point.desk, hremove, herase]
    refine ⟨trivial, components_setComponents_self .., fun q hq => ?_, fun d => by cases d <;> rfl⟩
    cases q with
    | component other => exact components_setComponents_of_ne _ (fun heq => hq (congrArg _ heq)) _
    | supplement => rfl
    | atBegin => rfl
    | atEnd => rfl
  | supplement =>
    have hshorter := Ranked.length_strike.mpr ⟨e, he, rfl⟩
    refine ⟨congrArg Answer.found (decide_eq_true hshorter), rfl, fun q hq => ?_,
      fun d => by cases d <;> rfl⟩
    cases q <;> first | rfl | exact absurd rfl hq
  | atBegin =>
    have hends := hothers .atEnd nofun rfl
    have hfound := listeners_remove_of_exists (l := x.serializer.listeners) (.inl ⟨e, he, rfl⟩)
    refine ⟨congrArg Answer.found hfound, rfl, fun q hq => ?_, fun d => by cases d <;> rfl⟩
    cases q <;> first | rfl | exact hends | exact absurd rfl hq
  | atEnd =>
    have hbegins := hothers .atBegin nofun rfl
    have hfound := listeners_remove_of_exists (l := x.serializer.listeners) (.inr ⟨e, he, rfl⟩)
    refine ⟨congrArg Answer.found hfound, rfl, fun q hq => ?_, fun d => by cases d <;> rfl⟩
    cases q <;> first | rfl | exact hbegins | exact absurd rfl hq

/-- What is not registered cannot be removed, and nothing changes. -/
theorem perform_remove_of_forall_ne (h : ∀ p, p.desk = d → ∀ e ∈ x.entries p, e.number ≠ number)
    (order : ItemSort.Order) : x.perform (.remove d number order) = (x, .found false) := by
  cases d with
  | components =>
    have hremove : x.serializer.removeFirst number order.sorts = (x.serializer, false) :=
      removeFirst_of_forall_ne fun sort => h (.component sort) rfl
    simp only [perform, hremove]
  | supplements =>
    have hremove := Ranked.remove_of_forall_ne (r := x.deserializer.supplements) (h .supplement rfl)
    simp only [perform, hremove]
  | listeners =>
    have hremove := listeners_remove_of_forall_ne (h .atBegin rfl) (h .atEnd rfl)
    simp only [perform, hremove]

/-! ### What stands after each request -/

theorem Placed.mem_iff {e : Ranked.Entry p.Item} {f : Ranked.Entry q.Item} (h : Placed x y p e) :
    f ∈ y.entries q ↔ f ∈ x.entries q ∨ (⟨q, f⟩ : Registered) = ⟨p, e⟩ := by
  by_cases hq : q = p
  · subst hq
    rw [h.here, Ranked.mem_placed, Sigma.mk.injEq, heq_eq_eq, eq_self, true_and]
    exact or_comm
  · rw [h.elsewhere q hq, Sigma.mk.injEq]
    exact (or_iff_left fun heq => hq heq.1).symm

theorem Struck.mem_iff {f : Ranked.Entry q.Item} {e : Ranked.Entry p.Item} (h : Struck x y p e.number)
    (hx : Orderly x) (he : e ∈ x.entries p) :
    f ∈ y.entries q ↔ f ∈ x.entries q ∧ ¬ (q.desk = p.desk ∧ f.number = e.number) := by
  by_cases hq : q = p
  · subst hq
    rw [h.here, Ranked.mem_strike, eq_self, true_and]
  · rw [h.elsewhere q hq]
    exact ⟨fun hf => ⟨hf, fun ⟨hdesk, hnumber⟩ => hq (hx.point_eq hf he hdesk hnumber)⟩, And.left⟩

theorem Orderly.placed (h : Orderly x) {priority : Int} {item : p.Item}
    (hy : Placed x y p ⟨x.next p.desk, priority, item⟩) : Orderly y where
  inOrder q := by
    by_cases hq : q = p
    · subst hq
      exact hy.here ▸ (h.inOrder q).placed (h.below q)
    · exact hy.elsewhere q hq ▸ h.inOrder q
  below q f hf := by
    rw [hy.next]
    rcases hy.mem_iff.mp hf with hf | heq
    · have hbelow := h.below q f hf
      split <;> omega
    · cases heq
      rw [if_pos rfl]
      exact Nat.lt_succ_self _
  unique := by
    -- No entry that was there before has the number of the new one.
    have hnew : ∀ {q} {f : Ranked.Entry q.Item}, f ∈ x.entries q → q.desk = p.desk →
        f.number ≠ x.next p.desk := fun hf hdesk =>
      Nat.ne_of_lt (hdesk ▸ h.below _ _ hf)
    rintro ⟨q, f⟩ ⟨q', f'⟩ hf hf' hdesk hnumber
    rcases hy.mem_iff.mp (show f ∈ y.entries q from hf) with hf | heq <;>
      rcases hy.mem_iff.mp (show f' ∈ y.entries q' from hf') with hf' | heq'
    · exact h.unique ⟨q, f⟩ ⟨q', f'⟩ hf hf' hdesk hnumber
    · cases heq'
      exact absurd hnumber (hnew hf hdesk)
    · cases heq
      exact absurd hnumber.symm (hnew hf' hdesk.symm)
    · exact heq.trans heq'.symm

theorem Orderly.struck (h : Orderly x) (hy : Struck x y p number) : Orderly y := by
  have hsub : ∀ q, ∀ f ∈ y.entries q, f ∈ x.entries q := by
    intro q f hf
    by_cases hq : q = p
    · subst hq
      exact (Ranked.mem_strike.mp (hy.here ▸ hf)).1
    · exact hy.elsewhere q hq ▸ hf
  refine ⟨fun q => ?_, fun q f hf => ?_, fun a b ha hb => h.unique a b (hsub _ _ ha) (hsub _ _ hb)⟩
  · by_cases hq : q = p
    · subst hq
      exact hy.here ▸ (h.inOrder q).strike number
    · exact hy.elsewhere q hq ▸ h.inOrder q
  · rw [hy.next]
    exact h.below q f (hsub q f hf)

/-- A number of a desk is registered, or nothing has it. -/
theorem registered_or_forall_ne (x : Extensions) (d : Desk) (number : Nat) :
    (∃ p, p.desk = d ∧ ∃ e ∈ x.entries p, e.number = number) ∨
      ∀ p, p.desk = d → ∀ e ∈ x.entries p, e.number ≠ number := by
  by_cases h : ∃ p, p.desk = d ∧ ∃ e ∈ x.entries p, e.number = number
  · exact .inl h
  · exact .inr fun p hdesk e he hnumber => h ⟨p, hdesk, e, he, hnumber⟩

theorem Orderly.perform (h : Orderly x) (r : Request) : Orderly (x.perform r).1 := by
  cases r with
  | add p priority item => exact h.placed (placed_add h p priority item)
  | remove d number order =>
    rcases registered_or_forall_ne x d number with ⟨p, rfl, e, he, rfl⟩ | hnone
    · exact h.struck (struck_remove h he order).2
    · rw [perform_remove_of_forall_ne hnone]
      exact h

theorem next_remove (h : Orderly x) (order : ItemSort.Order) (d' : Desk) :
    (x.perform (.remove d number order)).1.next d' = x.next d' := by
  rcases registered_or_forall_ne x d number with ⟨p, rfl, e, he, rfl⟩ | hnone
  · exact (struck_remove h he order).2.next d'
  · rw [perform_remove_of_forall_ne hnone]

theorem mem_entries_remove (h : Orderly x) {f : Ranked.Entry q.Item} (order : ItemSort.Order) :
    f ∈ (x.perform (.remove d number order)).1.entries q ↔
      f ∈ x.entries q ∧ ¬ (q.desk = d ∧ f.number = number) := by
  rcases registered_or_forall_ne x d number with ⟨p, rfl, e, he, rfl⟩ | hnone
  · exact (struck_remove h he order).2.mem_iff h he
  · rw [perform_remove_of_forall_ne hnone]
    exact ⟨fun hf => ⟨hf, fun ⟨hdesk, hnumber⟩ => hnone q hdesk f hf hnumber⟩, And.left⟩

/-! ### Runs -/

theorem orderly_bare : Orderly bare where
  inOrder p := by cases p <;> exact List.Pairwise.nil
  below p e he := by cases p <;> cases he
  unique a b ha := by
    obtain ⟨p, e⟩ := a
    cases p <;> cases ha

theorem after_append (x : Extensions) (rs rs' : List Request) :
    x.after (rs ++ rs') = (x.after rs).after rs' := List.foldl_append

theorem after_concat (x : Extensions) (rs : List Request) (r : Request) :
    x.after (rs ++ [r]) = ((x.after rs).perform r).1 := after_append x rs [r]

theorem Orderly.after (h : Orderly x) (rs : List Request) : Orderly (x.after rs) := by
  induction rs generalizing x with
  | nil => exact h
  | cons r rs ih => exact ih (h.perform r)

theorem given_concat (d : Desk) (rs : List Request) (r : Request) :
    given d (rs ++ [r]) = given d rs + if r.addsAt d then 1 else 0 := by
  rw [given, List.countP_append, List.countP_singleton, given]

/-- A desk counts what is added. -/
theorem next_after (d : Desk) (rs : List Request) : (bare.after rs).next d = given d rs := by
  induction rs using List.reverseRecOn with
  | nil => cases d <;> rfl
  | append_singleton rs r ih =>
    have horderly := orderly_bare.after rs
    rw [after_concat, given_concat, ← ih]
    cases r with
    | add p priority item =>
      rw [(placed_add horderly p priority item).next, Request.addsAt]
      by_cases hdesk : p.desk = d <;> simp [hdesk]
    | remove d' number order =>
      rw [next_remove horderly order, Request.addsAt]
      rfl

/-- What stands after one more request stood before and is not removed by it, or is added by it. -/
theorem stands_concat {e : Ranked.Entry p.Item} :
    Stands (rs ++ [r]) p e ↔ (Stands rs p e ∧ ∀ order, r ≠ .remove p.desk e.number order) ∨
      (r = .add p e.priority e.item ∧ e.number = given p.desk rs) := by
  constructor
  · rintro ⟨before, later, hsplit, hnumber, hlater⟩
    rcases List.eq_nil_or_concat later with rfl | ⟨later, last, rfl⟩
    · obtain ⟨rfl, hr⟩ := List.append_inj' hsplit rfl
      exact .inr ⟨List.head_eq_of_cons_eq hr, hnumber⟩
    · rw [List.concat_eq_append] at hsplit hlater
      rw [← List.cons_append, ← List.append_assoc] at hsplit
      obtain ⟨hrs, hr⟩ := List.append_inj' hsplit rfl
      obtain rfl := List.head_eq_of_cons_eq hr
      exact .inl ⟨⟨before, later, hrs, hnumber, fun order hmem =>
        hlater order (List.mem_append_left _ hmem)⟩, fun order heq =>
        hlater order (List.mem_append_right _ (heq ▸ List.mem_singleton_self _))⟩
  · rintro (⟨⟨before, later, rfl, hnumber, hlater⟩, hr⟩ | ⟨rfl, hnumber⟩)
    · refine ⟨before, later ++ [r], by rw [List.append_assoc, List.cons_append], hnumber, ?_⟩
      intro order hmem
      rcases List.mem_append.mp hmem with hmem | hmem
      · exact hlater order hmem
      · exact hr order (List.mem_singleton.mp hmem).symm
    · exact ⟨rs, [], rfl, hnumber, fun _ => List.not_mem_nil⟩

/-- A list holds what was added at its point and not removed since. -/
theorem mem_entries_after {e : Ranked.Entry p.Item} :
    e ∈ (bare.after rs).entries p ↔ Stands rs p e := by
  induction rs using List.reverseRecOn with
  | nil =>
    refine iff_of_false (by cases p <;> exact List.not_mem_nil) ?_
    rintro ⟨before, later, hsplit, -⟩
    exact List.append_ne_nil_of_right_ne_nil before (List.cons_ne_nil _ later) hsplit.symm
  | append_singleton rs r ih =>
    have horderly := orderly_bare.after rs
    rw [after_concat, stands_concat, ← ih, ← next_after]
    cases r with
    | add q priority item =>
      rw [(placed_add horderly q priority item).mem_iff]
      refine or_congr ⟨fun he => ⟨he, nofun⟩, And.left⟩ ⟨?_, ?_⟩
      · intro heq
        cases heq
        exact ⟨rfl, rfl⟩
      · obtain ⟨number, priority', item'⟩ := e
        rintro ⟨heq, hnumber⟩
        cases heq
        exact congrArg (fun n => (⟨p, n, priority', item'⟩ : Registered)) hnumber
    | remove d number order =>
      rw [mem_entries_remove horderly order, or_iff_left fun h => Request.noConfusion h.1]
      refine and_congr_right fun _ => ⟨fun h order' heq => ?_, fun h hsame => ?_⟩
      · obtain ⟨hdesk, hnumber, -⟩ := Request.remove.inj heq
        exact h ⟨hdesk.symm, hnumber.symm⟩
      · exact h order (by rw [hsame.1, hsame.2])

/-! ### Numbers -/

/-- What stands between two additions that have the same number of a desk is nothing. -/
theorem eq_nil_of_given {before middle later later' : List Request} {a a' : Request}
    (h : a :: later = middle ++ a' :: later') (ha : a.addsAt d = true)
    (hgiven : given d (before ++ middle) = given d before) : middle = [] := by
  cases middle with
  | nil => rfl
  | cons b rest =>
    obtain rfl : a = b := List.head_eq_of_cons_eq h
    rw [given, List.countP_append, List.countP_cons_of_pos ha, given] at hgiven
    omega

/-- Additions under the same number of a desk are the same addition. -/
theorem split_unique {before before' later later' : List Request} {a a' : Request}
    (h : before ++ a :: later = before' ++ a' :: later') (ha : a.addsAt d = true)
    (ha' : a'.addsAt d = true) (hgiven : given d before = given d before') :
    before = before' ∧ later = later' := by
  rcases List.append_eq_append_iff.mp h with ⟨middle, rfl, hrest⟩ | ⟨middle, rfl, hrest⟩
  · obtain rfl := eq_nil_of_given hrest ha hgiven.symm
    exact ⟨(List.append_nil _).symm, List.tail_eq_of_cons_eq hrest⟩
  · obtain rfl := eq_nil_of_given hrest ha' hgiven
    exact ⟨List.append_nil _, (List.tail_eq_of_cons_eq hrest).symm⟩

/-! ### The standard format -/

/-- The extensions at every point act one after the other as the lists have them. -/
structure Acts (x : Extensions) (items : (p : Point) → List p.Item) : Prop where
  /-- Each component is handed the fields that those before it have written. -/
  composed : ∀ sort c own item, Component.compose (x.serializer.components sort) c own item =
    .obj ((items (.component sort)).foldl (Component.apply c own item) [])
  /-- The supplements that are asked for a reflection and for a type. -/
  supplemented : x.deserializer.supplements.items = items .supplement
  begun : ∀ c, x.serializer.begin c = (items .atBegin).flatMap (· c)
  /-- Each listener is handed the output as those before it have left it. -/
  finished : ∀ c output, x.serializer.finish c output =
    (items .atEnd).foldl (Serializer.endStep c) (output, [])

theorem acts_entries (x : Extensions) : Acts x fun p => (x.entries p).map (·.item) where
  composed _ _ _ _ := rfl
  supplemented := rfl
  begun c := (List.flatMap_map (fun e : Ranked.Entry BeginListener => e.item) (· c) _).symm
  finished _ _ := rfl

/-- The entries that stand at a point, those of a higher priority first, and of the same priority
those that were added first. -/
structure Ranking (rs : List Request) (p : Point) (l : List (Ranked.Entry p.Item)) : Prop where
  inOrder : Ranked.InOrder l
  mem_iff : ∀ e, e ∈ l ↔ Stands rs p e

theorem ranking_entries (rs : List Request) (p : Point) : Ranking rs p ((bare.after rs).entries p) :=
  ⟨(orderly_bare.after rs).inOrder p, fun _ => mem_entries_after⟩

theorem Ranking.ext {l m : List (Ranked.Entry p.Item)} (hl : Ranking rs p l) (hm : Ranking rs p m) :
    l = m :=
  hl.inOrder.ext hm.inOrder fun e => (hl.mem_iff e).trans (hm.mem_iff e).symm

/-- What stands can be removed, and nothing else changes its place. -/
structure Removes (x : Extensions) (p : Point) (number : Nat) (order : ItemSort.Order) : Prop where
  found : (x.perform (.remove p.desk number order)).2 = .found true
  here : (x.perform (.remove p.desk number order)).1.entries p =
    (x.entries p).filter (·.number ≠ number)
  elsewhere : ∀ q, q ≠ p → (x.perform (.remove p.desk number order)).1.entries q = x.entries q

/-- What holds after a history. -/
structure Outcome (rs : List Request) : Prop where
  /-- Every list is the ranking of its point, which is the only one. -/
  ranked : ∀ p l, (bare.after rs).entries p = l ↔ Ranking rs p l
  acts : ∀ l : (p : Point) → List (Ranked.Entry p.Item), (∀ p, Ranking rs p (l p)) →
    Acts (bare.after rs) fun p => (l p).map (·.item)
  /-- Each addition is given the count of those before it at its desk. -/
  numbered : ∀ p priority item,
    ((bare.after rs).perform (.add p priority item)).2 = .number (given p.desk rs)
  /-- A number that was given is not given again at the same desk. -/
  fresh : ∀ before p priority item later q priority' item',
    rs = before ++ .add p priority item :: later → q.desk = p.desk →
    ∃ n m, ((bare.after before).perform (.add p priority item)).2 = .number n ∧
      ((bare.after rs).perform (.add q priority' item')).2 = .number m ∧ n < m
  /-- What was added is found by the first request that removes it, and by none after that. -/
  once : ∀ before p priority item later n order, rs = before ++ .add p priority item :: later →
    ((bare.after before).perform (.add p priority item)).2 = .number n →
    (((bare.after rs).perform (.remove p.desk n order)).2 = .found true ↔
      ∀ order', .remove p.desk n order' ∉ later)
  removes : ∀ p e order, Stands rs p e → Removes (bare.after rs) p e.number order
  /-- What does not stand is not found, and nothing changes. -/
  absent : ∀ d number order, (∀ p e, p.desk = d → Stands rs p e → e.number ≠ number) →
    (bare.after rs).perform (.remove d number order) = (bare.after rs, .found false)

theorem eq_entries_iff {l : List (Ranked.Entry p.Item)} :
    (bare.after rs).entries p = l ↔ Ranking rs p l :=
  ⟨fun h => h ▸ ranking_entries rs p, (ranking_entries rs p).ext⟩

/-- The answer to an addition is how many there were before it at its desk. -/
theorem answer_add_after (rs : List Request) (p : Point) (priority : Int) (item : p.Item) :
    ((bare.after rs).perform (.add p priority item)).2 = .number (given p.desk rs) := by
  rw [answer_add, next_after]

theorem given_lt {before later : List Request} {a : Request} (ha : a.addsAt d = true) :
    given d before < given d (before ++ a :: later) := by
  rw [given, given, List.countP_append, List.countP_cons_of_pos ha]
  omega

theorem removes_of_stands {e : Ranked.Entry p.Item} (h : Stands rs p e) (order : ItemSort.Order) :
    Removes (bare.after rs) p e.number order := by
  obtain ⟨hfound, hstruck⟩ := struck_remove (orderly_bare.after rs) (mem_entries_after.mpr h) order
  exact ⟨hfound, hstruck.here, hstruck.elsewhere⟩

theorem perform_remove_of_not_stands
    (h : ∀ p e, p.desk = d → Stands rs p e → e.number ≠ number) (order : ItemSort.Order) :
    (bare.after rs).perform (.remove d number order) = (bare.after rs, .found false) :=
  perform_remove_of_forall_ne (fun p hdesk e he => h p e hdesk (mem_entries_after.mp he)) order

/-- What was added is found just when no request has removed it since. -/
theorem found_iff {before later : List Request} {priority : Int} {item : p.Item}
    (h : rs = before ++ .add p priority item :: later) (order : ItemSort.Order) :
    ((bare.after rs).perform (.remove p.desk (given p.desk before) order)).2 = .found true ↔
      ∀ order', .remove p.desk (given p.desk before) order' ∉ later := by
  have hadds : Request.addsAt p.desk (.add p priority item) = true := decide_eq_true rfl
  constructor
  · intro hfound
    rcases registered_or_forall_ne (bare.after rs) p.desk (given p.desk before) with
      ⟨q, hdesk, e, he, hnumber⟩ | hnone
    · obtain ⟨before', later', hsplit, hgiven, hlater⟩ := mem_entries_after.mp he
      have hadds' : Request.addsAt p.desk (.add q e.priority e.item) = true := decide_eq_true hdesk
      obtain ⟨-, rfl⟩ := split_unique (h.symm.trans hsplit) hadds hadds'
        (by rw [← hnumber, hgiven, hdesk])
      rwa [hdesk, hnumber] at hlater
    · rw [perform_remove_of_forall_ne hnone] at hfound
      cases hfound
  · intro hlater
    have hstands : Stands rs p ⟨given p.desk before, priority, item⟩ :=
      ⟨before, later, h, rfl, hlater⟩
    exact (removes_of_stands hstands order).found

theorem outcome (rs : List Request) : Outcome rs where
  ranked _ _ := eq_entries_iff
  acts l hl := by
    obtain rfl : (bare.after rs).entries = l := funext fun p => eq_entries_iff.mpr (hl p)
    exact acts_entries (bare.after rs)
  numbered := answer_add_after rs
  fresh before p priority item later q priority' item' h hdesk := by
    refine ⟨_, _, answer_add_after .., answer_add_after .., ?_⟩
    rw [h, hdesk]
    exact given_lt (decide_eq_true rfl)
  once before p priority item later n order h hn := by
    obtain rfl := Answer.number.inj ((answer_add_after ..).symm.trans hn)
    exact found_iff h order
  removes _ _ order h := removes_of_stands h order
  absent _ _ order h := perform_remove_of_not_stands h order

/-- A listener for the other event takes a number too. -/
example (notes : BeginListener) (act : EndListener) (order : ItemSort.Order) :
    let rs : List Request := [.add .atBegin 0 notes, .add .atBegin 5 notes, .add .atEnd 7 act,
      .add .atBegin 0 notes, .add .atBegin 5 notes, .remove .listeners 0 order]
    ((bare.after rs).entries .atBegin).map (·.number) = [1, 4, 3] := by
  cbv

end Extensions

end DocTree
