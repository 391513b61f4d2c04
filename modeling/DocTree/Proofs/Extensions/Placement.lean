import Mathlib.Data.List.TakeWhile
import DocTree.Ranked

/-!
Lists in order of rank. Both ways of adding an entry come to the same: it stands behind all that may
stand before it and before all others. Numbers grow with every entry that is added, so in a list that
was made in this way an entry comes before another just when its priority is higher, or the same and
its number smaller; and there is only one list in this order with the same entries.
-/

namespace DocTree.Ranked

variable {α : Type} {e f g : Entry α} {l m : List (Entry α)} {number : Nat}

/-! ### The order -/

/-- Of a higher priority, or of the same and with a smaller number. -/
def Entry.Before (e f : Entry α) : Prop :=
  f.priority < e.priority ∨ f.priority = e.priority ∧ e.number < f.number

theorem Entry.precedes_iff : e.precedes f = true ↔ f.priority ≤ e.priority := decide_eq_true_iff

theorem Entry.Before.precedes (h : e.Before f) : e.precedes f = true :=
  Entry.precedes_iff.mpr (h.elim Int.le_of_lt fun h => Int.le_of_eq h.1)

theorem Entry.not_before_self (e : Entry α) : ¬ e.Before e := by
  rintro (h | h)
  · exact Int.lt_irrefl _ h
  · exact Nat.lt_irrefl _ h.2

theorem Entry.Before.asymm (h : e.Before f) : ¬ f.Before e := by
  rintro (h' | h') <;> rcases h with h | h <;> omega

theorem Entry.precedes_trans (e f g : Entry α) (h : e.precedes f = true) (h' : f.precedes g = true) :
    e.precedes g = true :=
  precedes_iff.mpr (Int.le_trans (precedes_iff.mp h') (precedes_iff.mp h))

theorem Entry.precedes_total (e f : Entry α) : (e.precedes f || f.precedes e) = true := by
  rw [Bool.or_eq_true, precedes_iff, precedes_iff]
  exact Int.le_total ..

/-- Each entry may stand before all behind it. -/
def Falling (l : List (Entry α)) : Prop := l.Pairwise fun e f => e.precedes f = true

/-- In order of rank. -/
def InOrder (l : List (Entry α)) : Prop := l.Pairwise Entry.Before

theorem InOrder.falling (h : InOrder l) : Falling l := h.imp Entry.Before.precedes

theorem InOrder.nodup (h : InOrder l) : l.Nodup :=
  h.imp fun {e f} hbefore heq => e.not_before_self (by rwa [← heq] at hbefore)

/-- Lists in order of rank that have the same entries are the same. -/
theorem InOrder.ext (hl : InOrder l) (hm : InOrder m) (h : ∀ e, e ∈ l ↔ e ∈ m) : l = m :=
  ((List.perm_ext_iff_of_nodup hl.nodup hm.nodup).mpr h).eq_of_pairwise
    (fun _ _ _ _ hbefore hbefore' => absurd hbefore' hbefore.asymm) hl hm

/-! ### Where an entry is placed -/

/-- An entry placed behind all that may stand before it, up to the first that may not. -/
def placed (e : Entry α) (l : List (Entry α)) : List (Entry α) :=
  l.takeWhile (·.precedes e) ++ e :: l.dropWhile (·.precedes e)

theorem mem_placed : f ∈ placed e l ↔ f = e ∨ f ∈ l := by
  have hparts : f ∈ l ↔ f ∈ l.takeWhile (·.precedes e) ∨ f ∈ l.dropWhile (·.precedes e) := by
    rw [← List.mem_append, List.takeWhile_append_dropWhile]
  rw [placed, List.mem_append, List.mem_cons, hparts]
  exact or_left_comm

theorem precedes_of_mem_takeWhile (h : f ∈ l.takeWhile (·.precedes e)) : f.precedes e = true :=
  List.mem_takeWhile_imp (p := fun f : Entry α => f.precedes e) h

/-- Behind the first that may not stand before an entry there is none that may. -/
theorem Falling.not_precedes (h : Falling l) (hf : f ∈ l.dropWhile (·.precedes e)) :
    f.precedes e = false := by
  induction l with
  | nil => cases hf
  | cons a rest ih =>
    obtain ⟨ha, hrest⟩ := List.pairwise_cons.mp h
    rw [List.dropWhile_cons] at hf
    split at hf
    · exact ih hrest hf
    · next hfirst =>
      rcases List.mem_cons.mp hf with rfl | hf
      · exact Bool.eq_false_iff.mpr hfirst
      · exact Bool.eq_false_iff.mpr fun hfe => hfirst (a.precedes_trans f e (ha f hf) hfe)

/-- An entry with a number greater than those of all others comes into the order. -/
theorem InOrder.placed (h : InOrder l) (hnumber : ∀ f ∈ l, f.number < e.number) :
    InOrder (placed e l) := by
  have hl : InOrder (l.takeWhile (·.precedes e) ++ l.dropWhile (·.precedes e)) := by
    rwa [List.takeWhile_append_dropWhile]
  obtain ⟨hfront, hback, hacross⟩ := List.pairwise_append.mp hl
  refine List.pairwise_append.mpr
    ⟨hfront, List.pairwise_cons.mpr ⟨fun f hf => ?_, hback⟩, fun f hf => ?_⟩
  · have hless := h.falling.not_precedes hf
    exact .inl (Int.lt_of_not_ge fun hle => Bool.false_ne_true (hless.symm.trans
      (Entry.precedes_iff.mpr hle)))
  · refine List.forall_mem_cons.mpr ⟨?_, hacross f hf⟩
    have hmem : f ∈ l := (List.takeWhile_sublist _).subset hf
    rcases Int.lt_or_eq_of_le (Entry.precedes_iff.mp (precedes_of_mem_takeWhile hf)) with hlt | heq
    · exact .inl hlt
    · exact .inr ⟨heq, hnumber f hmem⟩

theorem placed_cons_of_precedes {a : Entry α} (h : a.precedes e = true) (l : List (Entry α)) :
    placed e (a :: l) = a :: placed e l := by
  rw [placed, placed, List.takeWhile_cons, if_pos h, List.dropWhile_cons, if_pos h, List.cons_append]

theorem placed_cons_of_not_precedes {a : Entry α} (h : ¬ a.precedes e = true) (l : List (Entry α)) :
    placed e (a :: l) = e :: a :: l := by
  rw [placed, List.takeWhile_cons, if_neg h, List.dropWhile_cons, if_neg h, List.nil_append]

/-- An entry that none may stand before is placed in front. -/
theorem placed_of_forall_not_precedes (h : ∀ f ∈ l, ¬ f.precedes e = true) : placed e l = e :: l := by
  cases l with
  | nil => rfl
  | cons a rest => exact placed_cons_of_not_precedes (h a List.mem_cons_self) rest

/-! ### Sorting anew -/

/-- The sort moves only the entry that was added. -/
theorem sortIn_eq (h : Falling l) : sortIn e l = placed e l := by
  induction l with
  | nil => exact List.mergeSort_singleton e
  | cons a rest ih =>
    obtain ⟨ha, hrest⟩ := List.pairwise_cons.mp h
    have hsorted :=
      List.pairwise_mergeSort Entry.precedes_trans Entry.precedes_total (a :: (rest ++ [e]))
    obtain ⟨front, back, hsort, hsplit, hfront⟩ :=
      List.mergeSort_cons Entry.precedes_trans Entry.precedes_total a (rest ++ [e])
    rw [show (rest ++ [e]).mergeSort Entry.precedes = placed e rest from ih hrest] at hsplit
    rw [hsort] at hsorted
    rw [sortIn, List.cons_append, hsort]
    -- Only the new entry can come before the first of the others.
    have honly : ∀ f ∈ front, f = e ∧ ¬ a.precedes e = true := by
      intro f hf
      have hstands : ¬ a.precedes f = true := by simpa using hfront f hf
      have hmem : f ∈ placed e rest := hsplit ▸ List.mem_append_left back hf
      rcases mem_placed.mp hmem with rfl | hmem
      · exact ⟨rfl, hstands⟩
      · exact absurd (ha f hmem) hstands
    by_cases hae : a.precedes e = true
    · obtain rfl : front = [] := List.eq_nil_iff_forall_not_mem.mpr fun f hf => (honly f hf).2 hae
      rw [placed_cons_of_precedes hae, hsplit, List.nil_append, List.nil_append]
    · have hrest : ∀ f ∈ rest, ¬ f.precedes e = true := fun f hf hfe =>
        hae (a.precedes_trans f e (ha f hf) hfe)
      rw [placed_of_forall_not_precedes hrest] at hsplit
      rw [placed_cons_of_not_precedes hae]
      cases front with
      | nil =>
        rw [List.nil_append] at hsplit hsorted
        exact absurd ((List.pairwise_cons.mp hsorted).1 e (hsplit ▸ List.mem_cons_self)) hae
      | cons f more =>
        rw [List.cons_append] at hsplit
        obtain ⟨rfl, hback⟩ := List.cons_eq_cons.mp hsplit
        have hmore : more = [] := List.eq_nil_iff_forall_not_mem.mpr fun f hf => by
          have hmem : f ∈ rest := hback ▸ List.mem_append_left back hf
          exact absurd (ha f hmem) (by simpa using hfront f (List.mem_cons_of_mem _ hf))
        rw [hmore, List.nil_append] at hback
        rw [hmore, hback, List.cons_append, List.nil_append]

/-- What passes a test up to some place and fails it from there on is found to fail at that place. -/
theorem boundary_eq {test : Nat → Bool} {low high k : Nat} (hlow : low ≤ k) (hhigh : k ≤ high)
    (htest : ∀ i < high, test i = true ↔ i < k) : boundary test low high = k := by
  fun_induction boundary test low high with
  | case1 low high hlt middle hpass ih =>
    have hmiddle := (htest middle (by omega)).mp hpass
    exact ih (by omega) hhigh htest
  | case2 low high hlt middle hfail ih =>
    have hmiddle : ¬ middle < k := fun h => hfail ((htest middle (by omega)).mpr h)
    exact ih hlow (by omega) fun i hi => htest i (by omega)
  | case3 low high hle => omega

theorem insertIdx_length (front back : List (Entry α)) (e : Entry α) :
    (front ++ back).insertIdx front.length e = front ++ e :: back := by
  induction front with
  | nil => rfl
  | cons a rest ih =>
    rw [List.cons_append, List.length_cons, List.insertIdx_succ_cons, ih, List.cons_append]

/-- The entries that may stand before a new one are those in front. -/
theorem Falling.any_precedes_iff (h : Falling l) (i : Nat) :
    l[i]?.any (·.precedes e) = true ↔ i < (l.takeWhile (·.precedes e)).length := by
  induction l generalizing i with
  | nil => simp
  | cons a rest ih =>
    obtain ⟨ha, hrest⟩ := List.pairwise_cons.mp h
    rw [List.takeWhile_cons]
    split
    · next hfirst =>
      cases i with
      | zero => simpa using hfirst
      | succ i => simpa using ih hrest i
    · next hfirst =>
      rw [List.length_nil, iff_false_right (Nat.not_lt_zero i), Option.any_eq_true]
      rintro ⟨f, hf, hfe⟩
      rcases List.mem_cons.mp (List.mem_of_getElem? hf) with rfl | hmem
      · exact hfirst hfe
      · exact hfirst (a.precedes_trans f e (ha f hmem) hfe)

/-- The place that halving finds is that behind all that may stand before the entry. -/
theorem slotIn_eq (h : Falling l) : slotIn e l = placed e l := by
  have hplace : boundary (fun i => l[i]?.any (·.precedes e)) 0 l.length =
      (l.takeWhile (·.precedes e)).length :=
    boundary_eq (Nat.zero_le _) (List.takeWhile_sublist _).length_le fun i _ => h.any_precedes_iff i
  have hinsert := insertIdx_length (l.takeWhile (·.precedes e)) (l.dropWhile (·.precedes e)) e
  rw [List.takeWhile_append_dropWhile] at hinsert
  rw [slotIn, hplace, hinsert, placed]

/-! ### Taking an entry out -/

theorem mem_strike : e ∈ strike number l ↔ e ∈ l ∧ e.number ≠ number := by
  rw [strike, List.mem_filter, decide_eq_true_iff]

theorem InOrder.strike (h : InOrder l) (number : Nat) : InOrder (strike number l) :=
  List.Pairwise.filter _ h

/-- The list gets shorter just when an entry has the number. -/
theorem length_strike : (strike number l).length ≠ l.length ↔ ∃ e ∈ l, e.number = number := by
  rw [strike, Ne, List.length_filter_eq_length_iff]
  simp

/-- Nothing is taken out where no entry has the number. -/
theorem strike_of_forall_ne (h : ∀ e ∈ l, e.number ≠ number) : strike number l = l :=
  List.filter_eq_self.mpr fun e he => decide_eq_true (h e he)

theorem remove_of_forall_ne {r : Ranked α} (h : ∀ e ∈ r.entries, e.number ≠ number) :
    r.remove number = (r, false) := by
  simp [remove, strike_of_forall_ne h]

/-- Where only one entry has the number, to take out the first is to take out all. -/
theorem eraseP_eq_strike (hnodup : l.Nodup)
    (h : ∀ e ∈ l, ∀ f ∈ l, e.number = number → f.number = number → e = f) :
    l.eraseP (·.number = number) = strike number l := by
  induction l with
  | nil => rfl
  | cons a rest ih =>
    obtain ⟨ha, hrest⟩ := List.nodup_cons.mp hnodup
    by_cases hnumber : a.number = number
    · have hothers : ∀ f ∈ rest, f.number ≠ number := fun f hf hsame =>
        ha (h a List.mem_cons_self f (List.mem_cons_of_mem a hf) hnumber hsame ▸ hf)
      rw [List.eraseP_cons_of_pos (by simpa using hnumber), strike,
        List.filter_cons_of_neg (by simpa using hnumber)]
      exact (strike_of_forall_ne hothers).symm
    · rw [List.eraseP_cons_of_neg (by simpa using hnumber), strike,
        List.filter_cons_of_pos (by simpa using hnumber)]
      exact congrArg _ (ih hrest fun e he f hf =>
        h e (List.mem_cons_of_mem a he) f (List.mem_cons_of_mem a hf))

end DocTree.Ranked
