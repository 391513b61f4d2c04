import Mathlib.Algebra.Order.Ring.Nat
import DocTree.Decimal.Double

/-!
Whole numbers as doubles. A whole number below `2 ^ 53` is shifted until its leading bit stands in the
leading place, and nothing is rounded; so the double stands for that number. The other way round, a
double that stands for such a number is the double of it, but for the sign of zero.
-/

namespace DocTree.Decimal.Double

theorem toNat_ofMagnitude {negative : Bool} {n : Nat} (h : n < signBit) :
    (ofMagnitude negative n).bits.toNat = (if negative then signBit else 0) + n := by
  have hsign : signBit = 2 ^ 63 := rfl
  refine UInt64.toNat_ofNat_of_lt' ?_
  rw [UInt64.size]
  split <;> omega

theorem magnitude_ofMagnitude {negative : Bool} {n : Nat} (h : n < signBit) :
    (ofMagnitude negative n).magnitude = n := by
  rw [magnitude, toNat_ofMagnitude h]
  split
  · rw [Nat.add_mod_left, Nat.mod_eq_of_lt h]
  · rw [Nat.zero_add, Nat.mod_eq_of_lt h]

theorem isNegative_ofMagnitude {negative : Bool} {n : Nat} (h : n < signBit) :
    (ofMagnitude negative n).isNegative = negative := by
  rw [isNegative, toNat_ofMagnitude h]
  cases negative with
  | false => simpa using h
  | true => simp

theorem leadingBit_eq : leadingBit = 4503599627370496 := rfl

theorem floorLog2_one {a : Nat} (ha : a ≠ 0) : floorLog2 a 1 = a.log2 := by
  have hone : Nat.log2 1 = 0 := by decide
  have hself : 2 ^ a.log2 ≤ a := Nat.log2_self_le ha
  rw [floorLog2, hone]
  simpa using hself

theorem roundedQuotient_one (n : Nat) : roundedQuotient n 1 = n := by
  rw [roundedQuotient]
  simp [Nat.mod_one]

/-- The place of the leading bit of a whole number below `2 ^ 53`. -/
theorem log2_le {a : Nat} (ha : a ≠ 0) (hlt : a < 2 ^ 53) : a.log2 ≤ 52 :=
  Nat.le_of_lt_succ ((Nat.log2_lt ha).mpr hlt)

/-- A whole number shifted until its leading bit stands in the leading place. -/
theorem shifted_bounds {a : Nat} (ha : a ≠ 0) (hlt : a < 2 ^ 53) :
    leadingBit ≤ a * 2 ^ (52 - a.log2) ∧ a * 2 ^ (52 - a.log2) < 2 * leadingBit := by
  have hlog := log2_le ha hlt
  have hself : 2 ^ a.log2 ≤ a := Nat.log2_self_le ha
  have hup : a < 2 ^ (a.log2 + 1) := Nat.lt_log2_self
  have hleading : leadingBit = 2 ^ a.log2 * 2 ^ (52 - a.log2) := by
    rw [← Nat.pow_add, Nat.add_sub_cancel' hlog]
    rfl
  have hpos : 0 < 2 ^ (52 - a.log2) := Nat.two_pow_pos _
  rw [hleading]
  refine ⟨Nat.mul_le_mul_right _ hself, ?_⟩
  rw [← Nat.mul_assoc, ← Nat.pow_succ']
  exact Nat.mul_lt_mul_of_pos_right hup hpos

/-- A whole number below `2 ^ 53` as a double. -/
theorem ofQuotient_one {negative : Bool} {a : Nat} (ha : a ≠ 0) (hlt : a < 2 ^ 53) :
    ofQuotient negative a 1 = ofMagnitude negative ((a.log2 + 1022) * leadingBit +
      a * 2 ^ (52 - a.log2)) := by
  have hlog := log2_le ha hlt
  obtain ⟨-, hup⟩ := shifted_bounds ha hlt
  have hexponent : max minExponent ((a.log2 : Int) - 52) = (a.log2 : Int) - 52 := by
    rw [minExponent]
    omega
  have hplace : ((a.log2 : Int) - 52 - minExponent).toNat = a.log2 + 1022 := by
    rw [minExponent]
    omega
  have hsignificand : (if 0 ≤ (a.log2 : Int) - 52 then
        roundedQuotient a (1 * Nat.pow 2 ((a.log2 : Int) - 52).toNat)
      else roundedQuotient (a * Nat.pow 2 (-((a.log2 : Int) - 52)).toNat) 1) =
      a * 2 ^ (52 - a.log2) := by
    split
    · have hfull : a.log2 = 52 := by omega
      rw [hfull]
      exact (roundedQuotient_one a).trans (Nat.mul_one a).symm
    · have hshift : (-((a.log2 : Int) - 52)).toNat = 52 - a.log2 := by omega
      rw [hshift, roundedQuotient_one]
      rfl
  have hfinite : (a.log2 + 1022) * leadingBit + a * 2 ^ (52 - a.log2) ≤ infinityMagnitude := by
    rw [infinityMagnitude]
    rw [leadingBit_eq] at hup ⊢
    omega
  rw [ofQuotient, if_neg ha]
  simp only [floorLog2_one ha, hexponent, hplace, hsignificand]
  rw [Nat.min_eq_right hfinite]

theorem value_ofQuotient {negative : Bool} {a : Nat} (ha : a ≠ 0) (hlt : a < 2 ^ 53) :
    (ofQuotient negative a 1).value =
      .finite negative (a * 2 ^ (52 - a.log2)) ((a.log2 : Int) - 52) := by
  have hlog := log2_le ha hlt
  obtain ⟨hlow, hup⟩ := shifted_bounds ha hlt
  have hsign : signBit = 2 ^ 63 := rfl
  rw [ofQuotient_one ha hlt]
  generalize a * 2 ^ (52 - a.log2) = m at hlow hup ⊢
  rw [leadingBit_eq] at hlow hup ⊢
  have hsmall : (a.log2 + 1022) * 4503599627370496 + m < signBit := by omega
  have hexponent : ((a.log2 + 1022) * 4503599627370496 + m) / 4503599627370496 = a.log2 + 1023 := by
    omega
  have hfraction : ((a.log2 + 1022) * 4503599627370496 + m) % 4503599627370496 =
      m - 4503599627370496 := by omega
  have hplace : minExponent + ((a.log2 + 1023 - 1 : Nat) : Int) = (a.log2 : Int) - 52 := by
    rw [minExponent]
    omega
  rw [value, leadingBit_eq, magnitude_ofMagnitude hsmall, isNegative_ofMagnitude hsmall]
  simp only [hexponent, hfraction]
  rw [if_neg (by omega), if_neg (by omega), Nat.add_sub_cancel' hlow, hplace]

/-- Whole numbers below `2 ^ 53` are doubles. -/
theorem toInt?_ofInt {n : Int} (h : n.natAbs < 2 ^ 53) : (ofInt n).toInt? = some n := by
  by_cases hzero : n = 0
  · rw [hzero]
    decide +kernel
  · have ha : n.natAbs ≠ 0 := Int.natAbs_ne_zero.mpr hzero
    have hlog := log2_le ha h
    have hsign : (if decide (n < 0) = true then (-1 : Int) else 1) * (n.natAbs : Int) = n := by
      by_cases hneg : n < 0
      · rw [if_pos (decide_eq_true hneg), Int.ofNat_natAbs_of_nonpos (Int.le_of_lt hneg),
          Int.neg_mul_neg, Int.one_mul]
      · rw [if_neg (by simpa using hneg), Int.natAbs_of_nonneg (Int.not_lt.mp hneg), Int.one_mul]
    rw [toInt?, ofInt, value_ofQuotient ha h]
    simp only
    split
    · have hfull : n.natAbs.log2 = 52 := by omega
      rw [hfull]
      simpa using hsign
    · have hshift : (-((n.natAbs.log2 : Int) - 52)).toNat = 52 - n.natAbs.log2 := by omega
      have hpow : Nat.pow 2 (52 - n.natAbs.log2) = 2 ^ (52 - n.natAbs.log2) := rfl
      rw [hshift, hpow, Nat.mul_mod_left, if_pos rfl, Nat.mul_div_cancel _ (Nat.two_pow_pos _), hsign]

/-! ### Doubles that stand for whole numbers -/

theorem ofMagnitude_self (x : Double) : ofMagnitude x.isNegative x.magnitude = x := by
  have hlt : x.bits.toNat < 2 ^ 64 := x.bits.toNat_lt
  have hsign : signBit = 2 ^ 63 := rfl
  have hbits : (if x.isNegative then signBit else 0) + x.magnitude = x.bits.toNat := by
    simp only [isNegative, magnitude, decide_eq_true_eq, hsign]
    split <;> omega
  rw [ofMagnitude, hbits, UInt64.ofNat_toNat]

theorem exists_value_of_toInt? {x : Double} {n : Int} (h : x.toInt? = some n) :
    ∃ negative m q, x.value = .finite negative m q := by
  rw [toInt?] at h
  cases hx : x.value with
  | finite negative m q => exact ⟨negative, m, q, rfl⟩
  | nan | infinite _ =>
    rw [hx] at h
    cases h

theorem isFinite_of_toInt? {x : Double} {n : Int} (h : x.toInt? = some n) : x.isFinite = true := by
  obtain ⟨negative, m, q, hx⟩ := exists_value_of_toInt? h
  by_contra hinfinite
  have hsign : signBit = 2048 * leadingBit := rfl
  have hlow : infinityMagnitude ≤ x.magnitude := by simpa [isFinite] using hinfinite
  have hup : x.magnitude < signBit := Nat.mod_lt _ (by decide)
  have hexponent : x.magnitude / leadingBit = 2047 :=
    Nat.div_eq_of_lt_le hlow (hsign ▸ hup)
  simp only [value, hexponent, if_true] at hx
  split at hx
  · cases hx
  · cases hx

/-- A whole number is the significand of its double, shifted back. -/
theorem ofQuotient_of_significand {negative : Bool} {a s f : Nat} (hs : s ≤ 52)
    (hf : f < leadingBit) (h : a * 2 ^ s = leadingBit + f) :
    ofQuotient negative a 1 = ofMagnitude negative ((1075 - s) * leadingBit + f) := by
  have hpow : leadingBit = 2 ^ (52 - s) * 2 ^ s := by
    rw [← Nat.pow_add, Nat.sub_add_cancel hs]
    rfl
  have hpos : 0 < 2 ^ s := Nat.two_pow_pos s
  have hlow : 2 ^ (52 - s) ≤ a := by
    refine Nat.le_of_mul_le_mul_right ?_ hpos
    omega
  have hup : a < 2 ^ (52 - s + 1) := by
    refine Nat.lt_of_mul_lt_mul_right (a := 2 ^ s) ?_
    rw [Nat.pow_succ', Nat.mul_assoc, ← hpow]
    omega
  have ha : a ≠ 0 := Nat.ne_of_gt (Nat.lt_of_lt_of_le (Nat.two_pow_pos _) hlow)
  have hlog : a.log2 = 52 - s := (Nat.log2_eq_iff ha).mpr ⟨hlow, hup⟩
  have hbound : a < 2 ^ 53 := Nat.lt_of_lt_of_le hup (Nat.pow_le_pow_right (by omega) (by omega))
  have hshift : 52 - (52 - s) = s := by omega
  rw [ofQuotient_one ha hbound, hlog, hshift, h]
  have hplace : 1075 - s = 52 - s + 1022 + 1 := by omega
  rw [hplace, Nat.succ_mul (52 - s + 1022), Nat.add_assoc]

/-- The integer of a sign and a natural number that is not zero. -/
theorem ofInt_signed {negative : Bool} {a : Nat} (ha : a ≠ 0) :
    ofInt ((if negative then -1 else 1) * (a : Int)) = ofQuotient negative a 1 := by
  cases negative with
  | false =>
    have hpos : ¬ (a : Int) < 0 := by omega
    simp [ofInt, hpos]
  | true =>
    have hpos : 0 < a := Nat.pos_of_ne_zero ha
    simp [ofInt, hpos]

theorem natAbs_signed (negative : Bool) (a : Nat) :
    ((if negative then -1 else 1) * (a : Int)).natAbs = a := by
  cases negative <;> simp

/-- The significand and the exponent of a finite double, below and from the least normal one on. -/
theorem of_value_finite {x : Double} {negative : Bool} {m : Nat} {q : Int}
    (h : x.value = .finite negative m q) : x.isNegative = negative ∧
      ((q = minExponent ∧ m < leadingBit ∧ x.magnitude = m) ∨
        ∃ e f : Nat, 0 < e ∧ f < leadingBit ∧ q = (e : Int) - 1075 ∧ m = leadingBit + f ∧
          x.magnitude = e * leadingBit + f) := by
  have hmagnitude := Nat.div_add_mod' x.magnitude leadingBit
  have hfraction : x.magnitude % leadingBit < leadingBit := Nat.mod_lt _ (by decide)
  simp only [value] at h
  split at h
  · split at h
    · cases h
    · cases h
  · split at h
    · next hzero =>
      obtain ⟨hsign, hm, hq⟩ := Value.finite.inj h
      rw [hzero, Nat.zero_mul, Nat.zero_add] at hmagnitude
      exact ⟨hsign, .inl ⟨hq.symm, hm ▸ hfraction, hmagnitude.symm.trans hm⟩⟩
    · next hzero =>
      obtain ⟨hsign, hm, hq⟩ := Value.finite.inj h
      have hpos := Nat.pos_of_ne_zero hzero
      refine ⟨hsign, .inr ⟨_, _, hpos, hfraction, ?_, hm.symm, hmagnitude.symm⟩⟩
      rw [← hq, minExponent]
      generalize x.magnitude / leadingBit = e at hpos ⊢
      omega

/-- The integer of a finite double is its significand, shifted. -/
theorem of_toInt? {x : Double} {negative : Bool} {m : Nat} {q n : Int}
    (hx : x.value = .finite negative m q) (h : x.toInt? = some n) :
    ∃ a : Nat, n = (if negative then -1 else 1) * (a : Int) ∧
      ((0 ≤ q ∧ a = m * 2 ^ q.toNat) ∨ (q < 0 ∧ a * 2 ^ (-q).toNat = m)) := by
  rw [toInt?, hx] at h
  dsimp only at h
  split at h
  · next hq => exact ⟨_, (Option.some.inj h).symm, .inl ⟨hq, rfl⟩⟩
  · next hq =>
    split at h
    · next hmod =>
      exact ⟨_, (Option.some.inj h).symm, .inr ⟨Int.not_le.mp hq,
        Nat.div_mul_cancel (Nat.dvd_of_mod_eq_zero hmod)⟩⟩
    · cases h

/-- A double that stands for a small whole number is zero, or its significand is that number
shifted. -/
theorem exists_of_toInt? {x : Double} {n : Int} (h : x.toInt? = some n) (hn : n.natAbs < 2 ^ 53) :
    ∃ a : Nat, n = (if x.isNegative then -1 else 1) * (a : Int) ∧
      ((a = 0 ∧ x.magnitude = 0) ∨ ∃ s f, s ≤ 52 ∧ f < leadingBit ∧ a * 2 ^ s = leadingBit + f ∧
        x.magnitude = (1075 - s) * leadingBit + f) := by
  obtain ⟨negative, m, q, hx⟩ := exists_value_of_toInt? h
  obtain ⟨a, ha, hshift⟩ := of_toInt? hx h
  obtain ⟨rfl, hparts⟩ := of_value_finite hx
  have hsmall : a < 2 ^ 53 := by
    rwa [ha, natAbs_signed] at hn
  have hlead : leadingBit = 2 ^ 52 := rfl
  refine ⟨a, ha, ?_⟩
  rcases hparts with ⟨rfl, hm, hmagnitude⟩ | ⟨e, f, he, hf, rfl, rfl, hmagnitude⟩
  · -- a fraction below the least normal double is whole only if it is zero
    obtain ⟨-, hshift⟩ := hshift.resolve_left fun hq => absurd hq.1 (by decide)
    have hpow : 2 ^ 52 ≤ 2 ^ (-minExponent).toNat := Nat.pow_le_pow_right (by decide) (by decide)
    have hzero : a = 0 := by
      by_contra hne
      have := Nat.le_mul_of_pos_left (2 ^ (-minExponent).toNat) (Nat.pos_of_ne_zero hne)
      omega
    rw [hzero, Nat.zero_mul] at hshift
    exact .inl ⟨hzero, hmagnitude.trans hshift.symm⟩
  · right
    rcases hshift with ⟨hq, hshift⟩ | ⟨hq, hshift⟩
    · have hplace : ((e : Int) - 1075).toNat = 0 := by
        by_contra hne
        have htwo : 2 ^ 1 ≤ 2 ^ ((e : Int) - 1075).toNat :=
          Nat.pow_le_pow_right (by decide) (Nat.pos_of_ne_zero hne)
        have hle := Nat.mul_le_mul_left (leadingBit + f) htwo
        omega
      have hexponent : e = 1075 := by omega
      rw [hplace] at hshift
      exact ⟨0, f, Nat.zero_le _, hf, by rw [hshift, Nat.pow_zero, Nat.mul_one, Nat.mul_one],
        hexponent ▸ hmagnitude⟩
    · have hplace : (-((e : Int) - 1075)).toNat = 1075 - e := by omega
      rw [hplace] at hshift
      have hpos : 0 < a := Nat.pos_of_ne_zero fun hzero => by
        rw [hzero, Nat.zero_mul] at hshift
        omega
      have hle : 2 ^ (1075 - e) ≤ leadingBit + f := hshift ▸ Nat.le_mul_of_pos_left _ hpos
      have hlt : 2 ^ (1075 - e) < 2 ^ 53 := by omega
      have hs : 1075 - e < 53 := (Nat.pow_lt_pow_iff_right (by decide)).mp hlt
      have hexponent : 1075 - (1075 - e) = e := by omega
      exact ⟨1075 - e, f, Nat.le_of_lt_succ hs, hf, hshift, by rw [hexponent, hmagnitude]⟩

/-- A double that stands for a small whole number is the double of that number, but for the sign of
zero. -/
theorem ofInt_of_toInt? {x : Double} {n : Int} (h : x.toInt? = some n) (hn : n.natAbs < 2 ^ 53) :
    ofInt n = if x = zero true then zero false else x := by
  obtain ⟨a, rfl, ⟨rfl, hmagnitude⟩ | ⟨s, f, hs, hf, hshift, hmagnitude⟩⟩ := exists_of_toInt? h hn
  · have hx := ofMagnitude_self x
    have hzero (sign : Int) : ofInt (sign * (0 : Nat)) = zero false := by
      rw [Int.natCast_zero, Int.mul_zero]
      decide
    rw [hzero, ← hx, hmagnitude]
    cases x.isNegative with
    | false => exact (if_neg (by decide)).symm
    | true => exact (if_pos rfl).symm
  · have hlead : leadingBit ≠ 0 := by decide
    have ha : a ≠ 0 := by
      rintro rfl
      rw [Nat.zero_mul] at hshift
      omega
    have hx : x ≠ zero true := by
      rintro rfl
      have hzero : (zero true).magnitude = 0 := by decide
      have hpos : 0 < (1075 - s) * leadingBit := Nat.mul_pos (by omega) (Nat.pos_of_ne_zero hlead)
      omega
    rw [if_neg hx, ofInt_signed ha, ofQuotient_of_significand hs hf hshift, ← hmagnitude,
      ofMagnitude_self]

end DocTree.Decimal.Double
