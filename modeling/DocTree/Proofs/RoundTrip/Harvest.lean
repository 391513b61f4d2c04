import DocTree.Proofs.RoundTrip.Text

/-!
What is registered while the inside of a reflection is read. The reflections written inside it fill
the places behind it in the order of reading, each with its draft, and all work put off is about the
reflection itself or about one of them. `Copies` says this of one action; its rules follow the ways
in which actions are combined.
-/

namespace DocTree

namespace Copying

variable {c : Copying} {owner b : Nat} {xs ys : List ReflectionId} {spots spots' : List Spot}

/-! ### Places -/

@[simp] theorem total_nil : c.total [] = 0 := rfl

@[simp] theorem total_cons (x : ReflectionId) (xs : List ReflectionId) :
    c.total (x :: xs) = c.span x + c.total xs := by
  rw [total, List.map_cons, List.sum_cons, total]

@[simp] theorem total_append (xs ys : List ReflectionId) :
    c.total (xs ++ ys) = c.total xs + c.total ys := by
  rw [total, List.map_append, List.sum_append, total, total]

@[simp] theorem owned_nil : c.owned [] = 0 := rfl

@[simp] theorem owned_cons (t : Ty) (ts : List Ty) :
    c.owned (t :: ts) = c.total t.declarations + c.owned ts := by
  rw [owned, List.flatMap_cons, total_append, owned]

theorem run_append (b : Nat) (xs ys : List ReflectionId) :
    c.run b (xs ++ ys) = c.run b xs ++ c.run (b + c.total xs) ys := by
  induction xs generalizing b with
  | nil => rfl
  | cons x rest ih =>
    rw [List.cons_append, run, ih, run, List.cons_append, total_cons, Nat.add_assoc]

theorem length_run (b : Nat) (xs : List ReflectionId) : (c.run b xs).length = xs.length := by
  induction xs generalizing b with
  | nil => rfl
  | cons x rest ih => rw [run, List.length_cons, ih, List.length_cons]

theorem Laid.length (h : c.Laid owner b xs spots) : spots.length = c.total xs := by
  induction h with
  | nil => rfl
  | cons _ hspan _ _ _ ih =>
    rw [total_cons, hspan, List.length_cons, List.length_append, ih]
    omega

theorem Laid.append (h : c.Laid owner b xs spots) (h' : c.Laid owner (b + c.total xs) ys spots') :
    c.Laid owner b (xs ++ ys) (spots ++ spots') := by
  induction h with
  | nil => exact h'
  | cons hx hspan hinner _ _ ih =>
    rw [List.cons_append, List.cons_append, List.append_assoc]
    exact .cons hx hspan hinner (ih (by rwa [Nat.add_assoc, ← total_cons]))

/-- The places are numbered one after the other. -/
theorem Laid.numbers (h : c.Laid owner b xs spots) :
    spots.map (·.number) = List.range' b spots.length := by
  induction h with
  | nil => rfl
  | @cons owner b x r xs inner rest _ hspan _ _ ihinner ihrest =>
    rw [List.map_cons, List.map_append, ihinner, ihrest, List.length_cons, List.range'_succ,
      List.length_append, ← List.range'_append_1, hspan, Nat.add_comm inner.length 1, Nat.add_assoc]

theorem Laid.number_mem (h : c.Laid owner b xs spots) {s : Spot} (hs : s ∈ spots) :
    b ≤ s.number ∧ s.number < b + c.total xs := by
  have hmem := List.mem_map_of_mem (f := fun s : Spot => s.number) hs
  rw [h.numbers, List.mem_range'_1, h.length] at hmem
  exact hmem

/-! ### What is registered -/

/-- The work about a place: all that was put off for the reflection, unless nothing in it waits. -/
def Works (c : Copying) (queue : List Deferred) (s : Spot) : Prop :=
  ∃ r, c.project.get? s.source = some r ∧
    (queue.filter (·.isAbout s.number) =
        c.groupWork s.number r ++ c.targetWork s.number r ++ [.pendingTargets s.number] ∨
      queue.filter (·.isAbout s.number) = c.groupWork s.number r ++ c.targetWork s.number r ∧
        (c.draft s).Still)

/-- The crop of reading reflections one after the other inside `owner`: they fill these places, and
`own` is the work about `owner`. -/
structure Harvest (c : Copying) (owner b : Nat) (xs : List ReflectionId) (spots : List Spot)
    (own : List Deferred) (y : Crop) : Prop where
  laid : c.Laid owner b xs spots
  block : y.block = spots.map c.draft
  ids : y.ids = spots.map fun s => (s.source, s.number)
  own : y.queue.filter (·.isAbout owner) = own
  works : ∀ s ∈ spots, c.Works y.queue s
  about : ∀ d ∈ y.queue, d.isAbout owner = true ∨ ∃ s ∈ spots, d.isAbout s.number = true

theorem eq_of_isAbout {d : Deferred} {m n : Nat} (hm : d.isAbout m = true)
    (hn : d.isAbout n = true) : m = n :=
  Option.some.inj ((of_decide_eq_true hm).symm.trans (of_decide_eq_true hn))

theorem filter_eq_nil {queue : List Deferred} {n : Nat}
    (h : ∀ d ∈ queue, ∃ m, d.isAbout m = true ∧ m ≠ n) : queue.filter (·.isAbout n) = [] :=
  List.filter_eq_nil_iff.mpr fun d hd hn => by
    obtain ⟨m, hm, hne⟩ := h d hd
    exact hne (eq_of_isAbout hm hn)

variable {own own' : List Deferred} {y z : Crop}

/-- Work about a place in one part of the reading is found in the queue of that part. -/
theorem Works.congr {queue queue' : List Deferred} {s : Spot} (h : c.Works queue s)
    (hfilter : queue'.filter (·.isAbout s.number) = queue.filter (·.isAbout s.number)) :
    c.Works queue' s := by
  obtain ⟨r, hr, hworks⟩ := h
  exact ⟨r, hr, by rwa [hfilter]⟩

theorem Harvest.append (howner : owner < b) (h : c.Harvest owner b xs spots own y)
    (h' : c.Harvest owner (b + c.total xs) ys spots' own' z) :
    c.Harvest owner b (xs ++ ys) (spots ++ spots') (own ++ own') (y ++ z) where
  laid := h.laid.append h'.laid
  block := by rw [Crop.block_append, h.block, h'.block, List.map_append]
  ids := by rw [Crop.ids_append, h.ids, h'.ids, List.map_append]
  own := by rw [Crop.queue_append, List.filter_append, h.own, h'.own]
  works := fun s hs => by
    rcases List.mem_append.mp hs with hs | hs
    · have hlt := h.laid.number_mem hs
      refine (h.works s hs).congr ?_
      have hnil : z.queue.filter (·.isAbout s.number) = [] := filter_eq_nil fun d hd => by
        rcases h'.about d hd with hd | ⟨t, ht, hd⟩
        · exact ⟨owner, hd, Nat.ne_of_lt (by omega)⟩
        · have ht := h'.laid.number_mem ht
          exact ⟨t.number, hd, Nat.ne_of_gt (by omega)⟩
      rw [Crop.queue_append, List.filter_append, hnil, List.append_nil]
    · have hlt := h'.laid.number_mem hs
      refine (h'.works s hs).congr ?_
      have hnil : y.queue.filter (·.isAbout s.number) = [] := filter_eq_nil fun d hd => by
        rcases h.about d hd with hd | ⟨t, ht, hd⟩
        · exact ⟨owner, hd, Nat.ne_of_lt (by omega)⟩
        · have ht := h.laid.number_mem ht
          exact ⟨t.number, hd, Nat.ne_of_lt (by omega)⟩
      rw [Crop.queue_append, List.filter_append, hnil, List.nil_append]
  about := fun d hd => by
    rcases List.mem_append.mp hd with hd | hd
    · exact (h.about d hd).imp_right fun ⟨s, hs, hd⟩ => ⟨s, List.mem_append_left _ hs, hd⟩
    · exact (h'.about d hd).imp_right fun ⟨s, hs, hd⟩ => ⟨s, List.mem_append_right _ hs, hd⟩

/-- An action that registers nothing. -/
theorem harvest_nil (owner b : Nat) {y : Crop} (hblock : y.block = []) (hids : y.ids = [])
    (hown : y.queue.filter (·.isAbout owner) = own)
    (habout : ∀ d ∈ y.queue, d.isAbout owner = true) : c.Harvest owner b [] [] own y where
  laid := .nil
  block := hblock
  ids := hids
  own := hown
  works := fun _ hs => (List.not_mem_nil hs).elim
  about := fun d hd => .inl (habout d hd)

/-! ### Actions -/

/-- The action succeeds and gives `a`; the reflection `n`, which was `r`, is then `r'`; the
reflections `xs` were registered inside it, and `own` was put off for it. When no target was stored
by its old number on the way, `P` holds. -/
def Copies {α : Type} (c : Copying) (clean : Prop) (n b : Nat) (m : ReadM α) (r : Reflection) (a : α)
    (r' : Reflection) (xs : List ReflectionId) (own : List Deferred) (P : Prop) : Prop :=
  ∃ y spots, Reads (c.site clean) n b m r a r' y ∧ c.Harvest n b xs spots own y ∧
    (y.pending = 0 → P)

namespace Copies

variable {α β : Type} {clean : Prop} {n : Nat} {m : ReadM α} {a : α} {a' : β}
  {r r' r'' : Reflection} {P Q : Prop}

theorem of_takes (h : Takes (c.site clean) m a P) : c.Copies clean n b m r a r [] [] P := by
  obtain ⟨k, hk, hP⟩ := h
  exact ⟨.light k, [], hk n b r,
    harvest_nil n b rfl rfl rfl fun _ hd => (List.not_mem_nil hd).elim, hP⟩

theorem pure (a : α) (h : P) : c.Copies clean n b (Pure.pure a : ReadM α) r a r [] [] P :=
  of_takes (.pure a h)

/-- An action on the reflection that is read. -/
theorem of_reads (h : Reads (c.site clean) n b m r a r' .none) (hP : P) :
    c.Copies clean n b m r a r' [] [] P :=
  ⟨.none, [], h, harvest_nil n b rfl rfl rfl fun _ hd => (List.not_mem_nil hd).elim, fun _ => hP⟩

theorem defer (d : Deferred) (hd : d.isAbout n = true) (hP : P) :
    c.Copies clean n b (ReadM.defer d) r () r [] [d] P := by
  refine ⟨.work d, [], Reads.defer d, harvest_nil n b rfl rfl ?_ fun x hx => ?_, fun _ => hP⟩
  · exact (List.filter_cons_of_pos hd).trans (congrArg _ List.filter_nil)
  · rwa [List.mem_singleton.mp hx]

theorem bind {f : α → ReadM β} (hn : n < b) (h : c.Copies clean n b m r a r' xs own P)
    (h' : c.Copies clean n (b + c.total xs) (f a) r' a' r'' ys own' Q) :
    c.Copies clean n b (m >>= f) r a' r'' (xs ++ ys) (own ++ own') (P ∧ Q) := by
  obtain ⟨y, spots, hy, hys, hP⟩ := h
  obtain ⟨z, spots', hz, hzs, hQ⟩ := h'
  have hlen : b + y.block.length = b + c.total xs := by
    rw [hys.block, List.length_map, hys.laid.length]
  exact ⟨y ++ z, spots ++ spots', hy.bind hlen hz, hys.append hn hzs, fun h0 =>
    ⟨hP (Nat.eq_zero_of_add_eq_zero_right h0), hQ (Nat.eq_zero_of_add_eq_zero_left h0)⟩⟩

theorem map {f : α → β} (h : c.Copies clean n b m r a r' xs own P) :
    c.Copies clean n b (f <$> m) r (f a) r' xs own P := by
  obtain ⟨y, spots, hy, hys, hP⟩ := h
  exact ⟨y, spots, hy.map, hys, hP⟩

theorem imp (h : c.Copies clean n b m r a r' xs own P) (hPQ : P → Q) :
    c.Copies clean n b m r a r' xs own Q := by
  obtain ⟨y, spots, hy, hys, hP⟩ := h
  exact ⟨y, spots, hy, hys, fun h0 => hPQ (hP h0)⟩

/-- The same reflections and the same work, written otherwise. -/
theorem of_eq (h : c.Copies clean n b m r a r' xs own P) (hxs : xs = ys) (hown : own = own') :
    c.Copies clean n b m r a r' ys own' P := hxs ▸ hown ▸ h

end Copies

end Copying

end DocTree
