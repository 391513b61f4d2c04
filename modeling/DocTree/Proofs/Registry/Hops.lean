import DocTree.Proofs.Registry.Invariant

/-!
Chains of references. What stands at the end of a chain is found by asking one reference after the
other, and each question may look a name up and keep the outcome. Since no answer depends on what was
looked up before, the chain that is followed is the one that the project shows at the start. It is
followed for a fixed number of references, so a circle or a chain that is too long ends nowhere.
-/

namespace DocTree.Project

variable {p q : Project} {i j t : ReflectionId} {m n k : Nat}

/-- Where so many references in a row lead, each asked for where the one before it leads. -/
def hop (p : Project) (start : ReflectionId) : Nat → Option ReflectionId
  | 0 => some start
  | n + 1 => (p.hop start n).bind fun i => (p.referenceTarget i).2

/-- A registered reflection at which a chain of references ends. -/
def IsEnd (p : Project) (i : ReflectionId) : Prop :=
  ∃ r, p.get? i = some r ∧ r.isReference = false

/-- A registered reflection from which a chain of references goes on. -/
def IsLink (p : Project) (i : ReflectionId) : Prop :=
  ∃ r, p.get? i = some r ∧ r.isReference = true

theorem hop_add (p : Project) (i : ReflectionId) (m : Nat) :
    ∀ n, p.hop i (m + n) = (p.hop i m).bind fun j => p.hop j n
  | 0 => by
    cases p.hop i m <;> simp [hop]
  | n + 1 => by
    rw [← Nat.add_assoc, hop, hop_add p i m n]
    cases p.hop i m <;> rfl

theorem hop_one (p : Project) (i : ReflectionId) : p.hop i 1 = p.targetOf? i := rfl

/-- The first reference of a chain taken off. -/
theorem hop_succ (p : Project) (i : ReflectionId) (n : Nat) :
    p.hop i (n + 1) = (p.targetOf? i).bind fun j => p.hop j n := by
  rw [Nat.add_comm, hop_add, hop_one]

theorem IsEnd.targetOf? (h : p.IsEnd i) : p.targetOf? i = none := by
  obtain ⟨r, hr, hend⟩ := h
  cases ht : r.target? with
  | none => simp [Project.targetOf?, settled?, hr, ht]
  | some target =>
    rw [Reflection.isReference_iff.mpr ⟨target, ht⟩] at hend
    cases hend

theorem IsLink.not_isEnd (h : p.IsLink i) : ¬ p.IsEnd i := by
  rintro ⟨s, hs, hend⟩
  obtain ⟨r, hr, hlink⟩ := h
  obtain rfl := Option.some.inj (hr.symm.trans hs)
  rw [hlink] at hend
  cases hend

/-- A chain does not go on behind its end. -/
theorem IsEnd.hop (h : p.IsEnd i) : p.hop i (n + 1) = none := by
  rw [hop_succ, h.targetOf?, Option.bind_none]

/-- Whatever has something behind it in a chain is a reference. -/
theorem isLink_of_hop (h : p.hop i m = some j) (hmore : (p.hop i (m + (n + 1))).isSome = true) :
    p.IsLink j := by
  rw [hop_add, h, Option.bind_some, hop_succ] at hmore
  cases ht : p.targetOf? j with
  | none =>
    rw [ht] at hmore
    cases hmore
  | some next => exact isReference_of_targetOf? ht

/-! ### Looking up on the way -/

theorem Looked.hop (h : Looked p q) (i : ReflectionId) : ∀ n, q.hop i n = p.hop i n
  | 0 => rfl
  | n + 1 => by
    rw [Project.hop, Project.hop, h.hop i n]
    exact congrArg _ (funext h.targetOf?)

theorem Looked.isEnd (h : Looked p q) : q.IsEnd i ↔ p.IsEnd i := by
  have hheld : (q.get? i).map Reflection.isReference = (p.get? i).map Reflection.isReference := by
    have hi := congrArg (Option.map Reflection.isReference) (h.held i)
    rw [Option.map_map, Option.map_map] at hi
    simpa only [Function.comp_def,
      Reflection.isReference_of_outline Reflection.outline_untargeted] using hi
  simp only [IsEnd, ← Option.map_eq_some_iff, hheld]

theorem looked_follow : ∀ (hops : Nat) (p : Project) (i : ReflectionId),
    Looked p (follow hops p i).1
  | 0, p, _ => .refl p
  | hops + 1, p, i => by
    rw [follow]
    split
    · exact .refl p
    · split
      · have hl : Looked p (p.referenceTarget i).1 := looked_settle p i
        split
        · next hnext =>
          rw [hnext] at hl
          exact hl.trans (looked_follow hops _ _)
        · next hnone =>
          rw [hnone] at hl
          exact hl
      · exact .refl p

/-! ### Where a chain ends -/

/-- Following a chain from a reflection gives the end that it reaches within so many references. -/
theorem follow_eq_some_iff : ∀ (hops : Nat) (p : Project) (i t : ReflectionId),
    (follow hops p i).2 = some t ↔ ∃ k < hops, p.hop i k = some t ∧ p.IsEnd t
  | 0, p, i, t => by simp [follow]
  | hops + 1, p, i, t => by
    -- The first reflection of the chain apart from those behind it.
    have hfirst : (∃ k < hops + 1, p.hop i k = some t ∧ p.IsEnd t) ↔
        (i = t ∧ p.IsEnd i) ∨
          ∃ next, p.targetOf? i = some next ∧ ∃ k < hops, p.hop next k = some t ∧ p.IsEnd t := by
      constructor
      · rintro ⟨_ | k, hk, ht, hend⟩
        · obtain rfl := Option.some.inj ht
          exact .inl ⟨rfl, hend⟩
        · rw [hop_succ] at ht
          obtain ⟨next, hnext, ht⟩ := Option.bind_eq_some_iff.mp ht
          exact .inr ⟨next, hnext, k, Nat.lt_of_succ_lt_succ hk, ht, hend⟩
      · rintro (⟨rfl, hend⟩ | ⟨next, hnext, k, hk, ht, hend⟩)
        · exact ⟨0, Nat.succ_pos _, rfl, hend⟩
        · exact ⟨k + 1, Nat.succ_lt_succ hk, by rw [hop_succ, hnext, Option.bind_some, ht], hend⟩
    rw [hfirst]
    cases hr : p.get? i with
    | none =>
      have hnone : p.targetOf? i = none := by simp [targetOf?, settled?, hr]
      simp [follow, hr, hnone, IsEnd]
    | some r =>
      cases hreference : r.isReference with
      | false =>
        have hend : p.IsEnd i := ⟨r, hr, hreference⟩
        simp [follow, hr, hreference, hend.targetOf?, hend]
      | true =>
        have hlink : ¬ p.IsEnd i := IsLink.not_isEnd ⟨r, hr, hreference⟩
        cases hnext : p.targetOf? i with
        | none => simp [follow, hr, hreference, referenceTarget, hnext, hlink]
        | some next =>
          have hl : Looked p (p.settle i) := looked_settle p i
          simp [follow, hr, hreference, referenceTarget, hnext, hlink, follow_eq_some_iff hops,
            hl.hop, hl.isEnd]

/-- The end of a chain of references, when it is reached after one reference or more, and after no
more than are followed. -/
theorem deepTarget_reaches (p : Project) (i t : ReflectionId) :
    (p.deepTarget i).2 = some t ↔ ∃ k, 1 ≤ k ∧ k ≤ maxHops ∧ p.hop i k = some t ∧ p.IsEnd t := by
  have hl : Looked p (p.settle i) := looked_settle p i
  cases hnext : p.targetOf? i with
  | none =>
    have hnone : ∀ k, 1 ≤ k → p.hop i k = none := by
      rintro (_ | k) hk
      · exact absurd hk (by decide)
      · rw [hop_succ, hnext, Option.bind_none]
    simp only [deepTarget, referenceTarget, hnext]
    constructor
    · intro h
      cases h
    · rintro ⟨k, hk, -, ht, -⟩
      rw [hnone k hk] at ht
      cases ht
  | some next =>
    simp only [deepTarget, referenceTarget, hnext, follow_eq_some_iff, hl.hop, hl.isEnd]
    constructor
    · rintro ⟨k, hk, ht, hend⟩
      exact ⟨k + 1, Nat.le_add_left 1 k, hk, by rw [hop_succ, hnext, Option.bind_some, ht], hend⟩
    · rintro ⟨_ | k, hk, hmax, ht, hend⟩
      · exact absurd hk (by decide)
      · rw [hop_succ, hnext, Option.bind_some] at ht
        exact ⟨k, hmax, ht, hend⟩

theorem looked_deepTarget (p : Project) (i : ReflectionId) : Looked p (p.deepTarget i).1 := by
  have hl : Looked p (p.referenceTarget i).1 := looked_settle p i
  rw [deepTarget]
  split
  · next hnext =>
    rw [hnext] at hl
    exact hl.trans (looked_follow _ _ _)
  · next hnone =>
    rw [hnone] at hl
    exact hl

/-- A chain that reaches an end has nothing behind it. -/
theorem hop_eq_none_of_deepTarget (h : (p.deepTarget i).2 = some t) (hn : maxHops < n) :
    p.hop i n = none := by
  obtain ⟨k, -, hk, ht, hend⟩ := (deepTarget_reaches p i t).mp h
  obtain ⟨d, rfl⟩ : ∃ d, n = k + (d + 1) := ⟨n - k - 1, by omega⟩
  rw [hop_add, ht, Option.bind_some, hend.hop]

/-- A chain that comes back to where it was goes on for ever. -/
theorem hop_mul_of_cycle (h : p.hop i (m + n) = p.hop i m) :
    ∀ k, p.hop i (m + k * n) = p.hop i m
  | 0 => by rw [Nat.zero_mul, Nat.add_zero]
  | k + 1 => by
    have hsplit : m + (k + 1) * n = m + k * n + n := by
      rw [Nat.succ_mul, Nat.add_assoc]
    rw [hsplit, hop_add, hop_mul_of_cycle h k, ← hop_add, h]

/-- References in a circle, of any length and entered from anywhere, lead to no end. -/
theorem deepTarget_of_cycle (h : p.hop i (m + n) = p.hop i m) (hn : 0 < n)
    (hon : (p.hop i m).isSome = true) : (p.deepTarget i).2 = none := by
  refine Option.eq_none_iff_forall_ne_some.mpr fun t ht => ?_
  have hlate : maxHops < m + (maxHops + 1) * n := by
    have := Nat.le_mul_of_pos_right (maxHops + 1) hn
    omega
  have hnone := hop_eq_none_of_deepTarget ht hlate
  rw [hop_mul_of_cycle h, ← Option.not_isSome_iff_eq_none] at hnone
  exact hnone hon

/-- A chain with more references than are followed leads to no end. -/
theorem deepTarget_of_long (h : (p.hop i (maxHops + 1)).isSome = true) :
    (p.deepTarget i).2 = none := by
  refine Option.eq_none_iff_forall_ne_some.mpr fun t ht => ?_
  rw [hop_eq_none_of_deepTarget ht (Nat.lt_succ_self _)] at h
  cases h

/-- Following references from one to the next leads to what stands at the end of the chain, when that
is registered and no reference and the chain has no more references than are followed; otherwise it
leads nowhere. What is looked up on the way, by one reference or by the whole chain, changes no
answer. -/
theorem deepTarget_eq_some_iff (p : Project) (i : ReflectionId) :
    (∀ t, (p.deepTarget i).2 = some t ↔ ∃ k, 1 ≤ k ∧ k ≤ maxHops ∧ p.hop i k = some t ∧
      p.IsEnd t ∧ ∀ j, 1 ≤ j → j < k → ∃ u, p.hop i j = some u ∧ p.IsLink u) ∧
    ∀ j, ((p.referenceTarget i).1.referenceTarget j).2 = (p.referenceTarget j).2 ∧
      ((p.deepTarget i).1.referenceTarget j).2 = (p.referenceTarget j).2 := by
  refine ⟨fun t => ?_, fun j => ⟨(looked_settle p i).targetOf? j, (looked_deepTarget p i).targetOf? j⟩⟩
  rw [deepTarget_reaches]
  constructor
  · rintro ⟨k, hk, hmax, ht, hend⟩
    refine ⟨k, hk, hmax, ht, hend, fun j _ hj => ?_⟩
    obtain ⟨d, rfl⟩ : ∃ d, k = j + (d + 1) := ⟨k - j - 1, by omega⟩
    obtain ⟨u, hu, -⟩ := Option.bind_eq_some_iff.mp (hop_add p i j (d + 1) ▸ ht)
    exact ⟨u, hu, isLink_of_hop hu (by rw [ht]; rfl)⟩
  · rintro ⟨k, hk, hmax, ht, hend, -⟩
    exact ⟨k, hk, hmax, ht, hend⟩

/-- Of references in a row, the last that is followed to its end and the first that is not. -/
example :
    let row : Project := { ofName "p" with
      arena := #[some (.project "p"), some (.declaration "v" .variable_)] ++
        (Array.range 65).map fun i => some (.reference "r" (.toId (i + 1))) }
    (row.deepTarget 65).2 = some 1 ∧ (row.deepTarget 66).2 = none := by decide +kernel

end DocTree.Project
