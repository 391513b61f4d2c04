import Mathlib.Data.Nat.Bitwise
import DocTree.Proofs.RoundTrip.Draft
import DocTree.Proofs.RoundTrip.Number

/-!
Flags and literals written and read again. Flags are written by their keys and set one at a time, so
what comes back are known flags, one visibility at most; such flags stay as they are. A whole number
is written as an integer; finite numbers come back, save that zero loses its sign.
-/

namespace DocTree

/-! ### Flags -/

theorem Flag.ofKey?_key (g : Flag) : ofKey? g.key = some g := by
  cases g <;> decide

theorem Flag.mem_all (g : Flag) : g ∈ all := by
  cases g <;> decide

namespace Flags

/-- All bits of known flags. -/
def knownBits : UInt32 := 0x7FF

/-- Only known flags, and one visibility at most. -/
structure Clean (flags : Flags) : Prop where
  known : flags.bits &&& knownBits = flags.bits
  single : ∀ g h, flags.has g = true → flags.has h = true → g.isVisibility = true →
    h.isVisibility = true → g = h

theorem has_iff {flags : Flags} {g : Flag} : flags.has g = true ↔ flags.bits &&& g.bit ≠ 0 :=
  decide_eq_true_iff

theorem mem_toList {flags : Flags} {g : Flag} : g ∈ flags.toList ↔ flags.has g = true := by
  rw [toList, List.mem_filter]
  exact and_iff_right g.mem_all

theorem or_ne_zero {a b : UInt32} : a ||| b ≠ 0 ↔ a ≠ 0 ∨ b ≠ 0 := by
  rw [Ne, UInt32.or_eq_zero_iff, not_and_or]

theorem or_and (a b c : UInt32) : (a ||| b) &&& c = (a &&& c) ||| (b &&& c) :=
  UInt32.toBitVec_inj.mp BitVec.and_or_distrib_right

/-- Of the bit of a flag there is all or nothing. -/
theorem and_bit (flags : Flags) (g : Flag) :
    flags.bits &&& g.bit = if flags.has g then g.bit else 0 := by
  have hall : ∀ k < 11, flags.bits &&& UInt32.ofNat (2 ^ k) = 0 ∨
      flags.bits &&& UInt32.ofNat (2 ^ k) = UInt32.ofNat (2 ^ k) := by
    intro k hk
    have hpow : (UInt32.ofNat (2 ^ k)).toNat = 2 ^ k :=
      UInt32.toNat_ofNat_of_lt (Nat.pow_lt_pow_right Nat.one_lt_two (by omega : k < 32))
    have hand := Nat.and_two_pow flags.bits.toNat k
    rw [← UInt32.toNat_inj, ← UInt32.toNat_inj, UInt32.toNat_and, hpow, hand]
    cases flags.bits.toNat.testBit k <;> simp
  have hcases : flags.bits &&& g.bit = 0 ∨ flags.bits &&& g.bit = g.bit := by
    obtain ⟨k, hk, hbit⟩ : ∃ k < 11, g.bit = UInt32.ofNat (2 ^ k) := by cases g <;> decide
    rw [hbit]
    exact hall k hk
  by_cases h : flags.has g = true
  · rw [if_pos h]
    exact hcases.resolve_left (has_iff.mp h)
  · rw [if_neg h]
    exact Classical.byContradiction fun hne => h (has_iff.mpr hne)

/-- Known flags are told apart by what is set. -/
theorem eq_of_has {x y : Flags} (hx : x.bits &&& knownBits = x.bits)
    (hy : y.bits &&& knownBits = y.bits) (h : ∀ g, x.has g = y.has g) : x = y := by
  have hfold : ∀ (b : UInt32) (gs : List Flag),
      b &&& gs.foldr (fun (g : Flag) rest => g.bit ||| rest) 0 =
      gs.foldr (fun (g : Flag) rest => (b &&& g.bit) ||| rest) 0 := by
    intro b gs
    induction gs with
    | nil => exact UInt32.and_zero
    | cons g rest ih =>
      rw [List.foldr_cons, List.foldr_cons, ← ih, UInt32.and_comm, or_and, UInt32.and_comm b,
        UInt32.and_comm b]
  have hmask : Flag.all.foldr (fun (g : Flag) rest => g.bit ||| rest) 0 = knownBits := by decide
  have hsame : ∀ g : Flag, x.bits &&& g.bit = y.bits &&& g.bit := by
    intro g
    rw [and_bit, and_bit, h]
  have hbits : x.bits = y.bits := by
    rw [← hx, ← hy, ← hmask, hfold, hfold]
    simp only [hsame]
  exact congrArg Flags.mk hbits

/-- Setting a flag sets it, clears the other visibilities if it is one, and leaves the rest. -/
theorem has_set {flags : Flags} {g h : Flag} : (flags.set g true).has h = true ↔
    h = g ∨ flags.has h = true ∧ ¬ (g.isVisibility = true ∧ h.isVisibility = true) := by
  have hkept : (if g.isVisibility then flags.bits &&& ~~~visibilityBits else flags.bits) &&& h.bit ≠ 0 ↔
      flags.bits &&& h.bit ≠ 0 ∧ ¬ (g.isVisibility = true ∧ h.isVisibility = true) := by
    by_cases hg : g.isVisibility = true
    · rw [if_pos hg, UInt32.and_assoc]
      have hmask : ~~~visibilityBits &&& h.bit = if h.isVisibility then 0 else h.bit := by
        cases h <;> decide
      rw [hmask]
      by_cases hh : h.isVisibility = true <;> simp [hg, hh]
    · simp [hg]
  have hset : flags.set g true =
      ⟨(if g.isVisibility then flags.bits &&& ~~~visibilityBits else flags.bits) ||| g.bit⟩ := rfl
  have hbit : g.bit &&& h.bit ≠ 0 ↔ h = g := by
    cases g <;> cases h <;> decide
  rw [has_iff, has_iff, hset, or_and, or_ne_zero, hkept, hbit, or_comm]

/-- Flags written and read again are set one at a time. -/
theorem reread_eq (flags : Flags) : flags.reread = flags.toList.foldl (fun f g => f.set g true) none := by
  rw [reread, ofFields, toFields, List.foldl_map]
  simp only [Flag.ofKey?_key]

theorem Clean.set {flags : Flags} (h : flags.Clean) (g : Flag) : (flags.set g true).Clean := by
  refine ⟨?_, fun x y hx hy hxv hyv => ?_⟩
  · have hset : (flags.set g true).bits =
        (if g.isVisibility then flags.bits &&& ~~~visibilityBits else flags.bits) ||| g.bit := rfl
    have hbit : g.bit &&& knownBits = g.bit := by cases g <;> decide
    have hmask : ~~~visibilityBits &&& knownBits &&& knownBits = ~~~visibilityBits &&& knownBits := by
      decide
    rw [hset, or_and, hbit]
    congr 1
    split
    · rw [UInt32.and_assoc, UInt32.and_comm (~~~visibilityBits), ← UInt32.and_assoc, h.known]
    · exact h.known
  · rw [has_set] at hx hy
    rcases hx with rfl | ⟨hx, hxg⟩
    · exact (hy.resolve_right fun hy => hy.2 ⟨hxv, hyv⟩).symm
    · rcases hy with rfl | ⟨hy, -⟩
      · exact absurd ⟨hyv, hxv⟩ hxg
      · exact h.single x y hx hy hxv hyv

/-- Flags that were written and read are known, with one visibility at most. -/
theorem clean_reread (flags : Flags) : flags.reread.Clean := by
  have hnone : none.Clean := ⟨by decide, fun g _ hg => absurd hg (by cases g <;> decide)⟩
  rw [reread_eq]
  generalize flags.toList = gs
  generalize none = f at hnone
  induction gs generalizing f with
  | nil => exact hnone
  | cons g rest ih => exact ih _ (hnone.set g)

/-- Flags that do not get in the way of one another are all set. -/
theorem has_foldl_set {gs : List Flag} {f : Flags} (h : ∀ x y, x ∈ gs ∨ f.has x = true →
    y ∈ gs ∨ f.has y = true → x.isVisibility = true → y.isVisibility = true → x = y) (k : Flag) :
    (gs.foldl (fun f g => f.set g true) f).has k = true ↔ k ∈ gs ∨ f.has k = true := by
  induction gs generalizing f with
  | nil => simp
  | cons g rest ih =>
    have hset : ∀ x, (f.set g true).has x = true ↔ x = g ∨ f.has x = true := by
      intro x
      rw [has_set]
      refine ⟨Or.imp_right And.left, fun hx => ?_⟩
      by_cases heq : x = g
      · exact .inl heq
      · have hfx := hx.resolve_left heq
        refine .inr ⟨hfx, fun ⟨hg, hxv⟩ => heq ?_⟩
        exact h x g (.inr hfx) (.inl (List.mem_cons_self ..)) hxv hg
    have hback : ∀ x, x ∈ rest ∨ (f.set g true).has x = true → x ∈ g :: rest ∨ f.has x = true := by
      intro x hx
      rw [hset] at hx
      rw [List.mem_cons]
      tauto
    rw [List.foldl_cons, ih fun x y hx hy => h x y (hback x hx) (hback y hy), hset, List.mem_cons]
    tauto

theorem Clean.reread {flags : Flags} (h : flags.Clean) : flags.reread = flags := by
  refine eq_of_has (clean_reread flags).known h.known fun g => ?_
  have hnone : ∀ x, ¬ none.has x = true := by intro x; cases x <;> decide
  rw [reread_eq, Bool.eq_iff_iff, has_foldl_set, mem_toList]
  · simp [hnone]
  · intro x y hx hy hxv hyv
    have hx := (hx.resolve_right (hnone x))
    have hy := (hy.resolve_right (hnone y))
    rw [mem_toList] at hx hy
    exact h.single x y hx hy hxv hyv

/-- What was written and read once stays. -/
theorem reread_reread (flags : Flags) : flags.reread.reread = flags.reread :=
  (clean_reread flags).reread

end Flags

/-! ### Literals -/

/-- What was written and read once stays. -/
theorem Literal.reread_reread (value : Literal) : value.reread.reread = value.reread := by
  cases value with
  | number x =>
    simp only [reread]
    cases hint : x.toInt? with
    | none =>
      by_cases hfinite : x.isFinite = true
      · simp [hint, hfinite]
      · simp [hfinite]
    | some n =>
      by_cases hsafe : n.natAbs ≤ Writer.maxSafeInteger
      · have hlt : n.natAbs < 2 ^ 53 := by
          rw [Writer.maxSafeInteger] at hsafe
          have hpow : Nat.pow 2 53 = 2 ^ 53 := rfl
          omega
        simp [hsafe, Decimal.Double.toInt?_ofInt hlt]
      · simp [hint, hsafe]
  | _ => rfl

end DocTree
