import UosioCdt.Native.FloatRounding
import UosioCdt.Rt.FixIntTheorems

/-!
# Rounding to an integral value: the results

Clearing the bits behind the point leaves the integer part (`Gives … (truncate …)`), and adding the
mask first rounds the magnitude up, with a carry into the exponent where the fraction is full. So
`trunc`, `ceil` and `floor` give the integers of these names with the sign of their argument.
-/

namespace UosioCdt.Native

open BinaryFloat UosioCdt.Rt

variable {R : FpRep}

/-- The result is the integer, with the sign of the argument also where it is zero. -/
structure Gives (F : Format) (a r : ℕ) (z : ℤ) : Prop where
  finite : F.Finite r
  value : F.value r = z
  sign : F.Negative r ↔ F.Negative a

/-! ## Words and their fields -/

lemma unbiased_eq (a : BitVec R.typeWidth) :
    unbiased R a = (R.format.expField a.toNat : ℤ) - R.format.bias := by
  have hmask : (BitVec.ofNat R.typeWidth R.maxExponent).toNat = 2 ^ R.exponentBits - 1 := by
    have hlt : 2 ^ R.exponentBits - 1 < 2 ^ R.typeWidth := by
      have hpow : 2 ^ R.exponentBits ≤ 2 ^ R.typeWidth :=
        Nat.pow_le_pow_right (by decide) (by have := R.typeWidth_eq; omega)
      have := Nat.two_pow_pos R.exponentBits
      omega
    rw [BitVec.toNat_ofNat, FpRep.maxExponent, Nat.one_shiftLeft, Nat.mod_eq_of_lt hlt]
  rw [unbiased, BitVec.toNat_and, hmask, BitVec.toNat_ushiftRight, Nat.and_two_pow_sub_one_eq_mod,
    Nat.shiftRight_eq_div_pow, R.exponentBias_eq, Format.expField, FpRep.format_fracBits,
    FpRep.format_expBits]

/-- Low bits are cleared. -/
lemma toNat_and_not {w k : ℕ} {m : BitVec w} (a : BitVec w) (hm : m.toNat = 2 ^ k - 1) :
    (a &&& ~~~m).toNat = a.toNat / 2 ^ k * 2 ^ k := by
  refine Nat.eq_of_testBit_eq fun i => ?_
  have hbit : m.getLsbD i = decide (i < k) := by
    rw [← BitVec.testBit_toNat, hm, Nat.testBit_two_pow_sub_one]
  rw [BitVec.testBit_toNat, BitVec.getLsbD_and, BitVec.getLsbD_not, hbit, Nat.testBit_mul_two_pow,
    Nat.testBit_div_two_pow, ← BitVec.testBit_toNat]
  by_cases hik : i < k
  · simp [hik, Nat.not_le.mpr hik]
  · simp only [not_lt] at hik
    rw [Nat.sub_add_cancel hik]
    by_cases hiw : i < w
    · simp [hiw, hik]
    · have hzero : a.toNat.testBit i = false := by
        rw [BitVec.testBit_toNat]
        exact BitVec.getLsbD_of_ge a i (Nat.not_lt.mp hiw)
      simp [hzero]

lemma and_eq_zero_iff {w k : ℕ} {m : BitVec w} (a : BitVec w) (hm : m.toNat = 2 ^ k - 1) :
    a &&& m = 0 ↔ a.toNat % 2 ^ k = 0 := by
  rw [← BitVec.toNat_inj, BitVec.toNat_and, hm, Nat.and_two_pow_sub_one_eq_mod]
  simp

lemma assemble_mod {F : Format} {s e m k : ℕ} (hk : k ≤ F.fracBits) :
    F.assemble s e m % 2 ^ k = m % 2 ^ k := by
  obtain ⟨c, hc⟩ := Nat.exists_eq_add_of_le hk
  have hsplit : F.assemble s e m = m + 2 ^ k * (s * (2 ^ F.expBits * 2 ^ c) + e * 2 ^ c) := by
    rw [Format.assemble, pow_add, hc, pow_add]
    ring
  rw [hsplit, Nat.add_mul_mod_self_left]

lemma assemble_div_mul {F : Format} {s e m k : ℕ} (hk : k ≤ F.fracBits) :
    F.assemble s e m / 2 ^ k * 2 ^ k = F.assemble s e (m / 2 ^ k * 2 ^ k) := by
  have hmod := assemble_mod (F := F) (s := s) (e := e) (m := m) hk
  have hleft := Nat.div_add_mod' (F.assemble s e m) (2 ^ k)
  have hright := Nat.div_add_mod' m (2 ^ k)
  have hsame : F.assemble s e m = F.assemble s e (m / 2 ^ k * 2 ^ k) + m % 2 ^ k := by
    rw [Format.assemble, Format.assemble]
    omega
  omega

/-! ## Cleared fractions -/

section cleared

variable {a r s E m j : ℕ}

lemma bias_pos (R : FpRep) : 0 < R.format.bias := by
  have := R.bias_ge
  omega

/-- The exponents of the numbers with bits behind the point are far from the largest one. -/
lemma point_lt (hE : E ≤ R.significandBits) : R.format.bias + E + 2 < 2 ^ R.exponentBits := by
  have hbias := R.bias_ge
  have hsig := R.significand_le
  have hpow : 2 ^ R.exponentBits = 2 ^ (R.exponentBits - 1) * 2 := by
    rw [← pow_succ, Nat.sub_add_cancel (by have := R.exponentBits_ge; omega)]
  rw [Format.bias, FpRep.format_expBits] at hbias ⊢
  omega

/-- A fraction that is a multiple of the bits behind the point, possibly full. -/
lemma gives_of_assemble (hs : s < 2) (hE : E ≤ R.significandBits) (hj : j ≤ 2 ^ E)
    (hr : r = R.format.assemble s (R.format.bias + E) (j * 2 ^ (R.significandBits - E)))
    (ha : R.format.Negative a ↔ s = 1) :
    Gives R.format a r (if R.format.Negative a then -(2 ^ E + j : ℤ) else 2 ^ E + j) := by
  have hlt := point_lt (R := R) hE
  have hunits := Format.units_assemble_point (F := R.format) (s := s) (bias_pos R) hE
    (by rw [FpRep.format_expBits]; omega) hj
  have hfields : (R.format.Negative r ↔ s = 1) ∧
      R.format.expField r ≤ R.format.bias + E + 1 := by
    have hpow : 2 ^ R.significandBits = 2 ^ E * 2 ^ (R.significandBits - E) := by
      rw [← pow_add, Nat.add_sub_cancel' hE]
    have hle : j * 2 ^ (R.significandBits - E) ≤ 2 ^ R.significandBits := by
      rw [hpow]
      exact Nat.mul_le_mul_right _ hj
    have hexp : R.format.bias + E < 2 ^ R.format.expBits := by
      rw [FpRep.format_expBits]
      omega
    have hexp' : R.format.bias + E + 1 < 2 ^ R.format.expBits := by
      rw [FpRep.format_expBits]
      omega
    rw [hr]
    rcases eq_or_lt_of_le hle with hfull | hfrac
    · have hpos : 0 < 2 ^ R.format.fracBits := Nat.two_pow_pos _
      rw [hfull, ← FpRep.format_fracBits, Format.assemble_carry,
        Format.negative_assemble hs hexp' hpos, Format.expField_assemble hexp' hpos]
      exact ⟨Iff.rfl, le_rfl⟩
    · have hfrac' : j * 2 ^ (R.significandBits - E) < 2 ^ R.format.fracBits := hfrac
      rw [Format.negative_assemble hs hexp hfrac', Format.expField_assemble hexp hfrac']
      exact ⟨Iff.rfl, Nat.le_succ _⟩
  have hsign : R.format.Negative r ↔ R.format.Negative a := hfields.1.trans ha.symm
  refine ⟨?_, ?_, hsign⟩
  · have := hfields.2
    rw [Format.Finite, FpRep.format_expBits]
    omega
  · rw [FpRep.format_fracBits, ← hr] at hunits
    rw [Format.value_of_units hunits, Format.sign, if_congr hsign rfl rfl]
    split <;> push_cast <;> ring

/-- The quotient and the remainder of the magnitude by a one. -/
lemma units_eq (hE : E ≤ R.significandBits) (hm : m < 2 ^ R.significandBits)
    (ha : a = R.format.assemble s (R.format.bias + E) m) :
    R.format.units a = (2 ^ E + m / 2 ^ (R.significandBits - E)) * R.format.scale
      + m % 2 ^ (R.significandBits - E) * 2 ^ (R.format.bias + E - 1) ∧
    R.format.scale = 2 ^ (R.significandBits - E) * 2 ^ (R.format.bias + E - 1) := by
  have hbias := bias_pos R
  have hlt := point_lt (R := R) hE
  have hscale : R.format.scale = 2 ^ (R.significandBits - E) * 2 ^ (R.format.bias + E - 1) := by
    rw [Format.scale, ← pow_add, FpRep.format_fracBits]
    congr 1
    omega
  have hsplit : 2 ^ R.significandBits = 2 ^ E * 2 ^ (R.significandBits - E) := by
    rw [← pow_add, Nat.add_sub_cancel' hE]
  refine ⟨?_, hscale⟩
  have hunits := Format.units_assemble (F := R.format) (s := s) (m := m)
    (e := R.format.bias + E) (by rw [FpRep.format_expBits]; omega) (by omega) hm
  rw [ha, hunits, hscale, FpRep.format_fracBits, hsplit]
  conv_lhs => rw [← Nat.div_add_mod' m (2 ^ (R.significandBits - E))]
  ring

lemma quotient_le (hE : E ≤ R.significandBits) (hm : m < 2 ^ R.significandBits) :
    m / 2 ^ (R.significandBits - E) < 2 ^ E := by
  rwa [Nat.div_lt_iff_lt_mul (Nat.two_pow_pos _), ← pow_add, Nat.add_sub_cancel' hE]

lemma truncate_of_fields (hE : E ≤ R.significandBits) (hm : m < 2 ^ R.significandBits)
    (ha : a = R.format.assemble s (R.format.bias + E) m) :
    truncate (R.format.value a) = if R.format.Negative a
      then -(2 ^ E + (m / 2 ^ (R.significandBits - E) : ℕ) : ℤ)
      else 2 ^ E + (m / 2 ^ (R.significandBits - E) : ℕ) := by
  obtain ⟨hunits, hscale⟩ := units_eq hE hm ha
  have hrest : m % 2 ^ (R.significandBits - E) * 2 ^ (R.format.bias + E - 1) < R.format.scale := by
    rw [hscale]
    exact Nat.mul_lt_mul_of_pos_right (Nat.mod_lt _ (Nat.two_pow_pos _)) (Nat.two_pow_pos _)
  have hpart : R.format.intPart a = 2 ^ E + m / 2 ^ (R.significandBits - E) := by
    rw [Format.intPart, hunits, Nat.add_comm, Nat.add_mul_div_right _ _ R.format.scale_pos,
      Nat.div_eq_of_lt hrest, Nat.zero_add]
  rw [Format.truncate_value, hpart]
  split <;> push_cast <;> rfl

end cleared

/-! ## `trunc` -/

section trunc

lemma exists_fields {b : ℕ} (h : b < 2 ^ R.typeWidth) :
    ∃ s e m, s < 2 ∧ e < 2 ^ R.exponentBits ∧ m < 2 ^ R.significandBits ∧
      b = R.format.assemble s e m ∧ R.format.expField b = e ∧ R.format.frac b = m ∧
      (R.format.Negative b ↔ s = 1) := by
  rw [R.typeWidth_eq] at h
  obtain ⟨s, e, m, hs, he, hm, heq⟩ := Format.exists_assemble (F := R.format) h
  refine ⟨s, e, m, hs, he, hm, heq, ?_, ?_, ?_⟩
  · rw [heq, Format.expField_assemble he hm]
  · rw [heq, Format.frac_assemble hm]
  · rw [heq, Format.negative_assemble hs he hm]

/-- A number without bits behind the point is its own integer. -/
lemma gives_self {a : ℕ} (hfin : R.format.Finite a)
    (he : R.format.bias + R.significandBits ≤ R.format.expField a) :
    Gives R.format a a (truncate (R.format.value a)) := by
  refine ⟨hfin, ?_, Iff.rfl⟩
  obtain ⟨n, hn⟩ := Format.scale_dvd_units (bias_pos R) he
  rw [Nat.mul_comm] at hn
  rw [Format.truncate_value, Format.intPart, hn, Nat.mul_div_cancel _ R.format.scale_pos,
    Format.value_of_units hn, Format.sign]
  split <;> simp

/-- A zero with the sign of the argument. -/
lemma gives_zero {a r s : ℕ} (hs : s < 2)
    (hr : r = R.format.assemble s 0 0) (ha : R.format.Negative a ↔ s = 1) :
    Gives R.format a r 0 := by
  have hexp : 0 < 2 ^ R.format.expBits := Nat.two_pow_pos _
  have hfrac : 0 < 2 ^ R.format.fracBits := Nat.two_pow_pos _
  have hfield : R.format.expField r = 0 := hr ▸ Format.expField_assemble hexp hfrac
  refine ⟨?_, ?_, ?_⟩
  · have := point_lt (R := R) (Nat.zero_le _)
    rw [Format.Finite, hfield, FpRep.format_expBits]
    omega
  · have hunits : R.format.units r = 0 * R.format.scale := by
      rw [Format.units, Format.significand, hfield, hr, Format.frac_assemble hfrac]
      simp
    rw [Format.value_of_units hunits]
    simp
  · rw [hr, Format.negative_assemble hs hexp hfrac, ha]

lemma trunc_cases (a : BitVec R.typeWidth) :
    (R.format.Finite a.toNat →
      Gives R.format a.toNat (trunc R a).toNat (truncate (R.format.value a.toNat))) ∧
    (¬ R.format.Finite a.toNat → trunc R a = a) := by
  obtain ⟨s, e, m, hs, he, hm, heq, hfield, hfrac, hneg⟩ := exists_fields a.isLt
  have hunbiased := unbiased_eq a
  have hwidth := R.typeWidth_eq
  rw [hfield] at hunbiased
  rcases Nat.lt_or_ge e (R.format.bias + R.significandBits) with hlt | hge
  · have hnot : ¬ unbiased R a + (R.exponentBits + 1 : ℤ)
        ≥ R.significandBits + (R.exponentBits + 1 : ℤ) := by omega
    have hfin : R.format.Finite a.toNat := by
      have := point_lt (R := R) le_rfl
      rw [Format.Finite, hfield, FpRep.format_expBits]
      omega
    refine ⟨fun _ => ?_, fun h => absurd hfin h⟩
    -- in both branches the bits under the mask are cleared
    have hclear : ∀ k, k ≤ R.significandBits + R.exponentBits →
        ∀ i : ℕ, R.typeWidth - i = k → i ≤ R.typeWidth →
        (if a &&& BitVec.allOnes R.typeWidth >>> i = 0 then a
          else a &&& ~~~(BitVec.allOnes R.typeWidth >>> i)).toNat
          = a.toNat / 2 ^ k * 2 ^ k := by
      intro k _ i hi hle
      have hmask := toNat_allOnes_shiftRight hle
      rw [hi] at hmask
      split
      · rename_i hzero
        have hmod := (and_eq_zero_iff a hmask).mp hzero
        have := Nat.div_add_mod' a.toNat (2 ^ k)
        omega
      · exact toNat_and_not a hmask
    rcases Nat.lt_or_ge e R.format.bias with hlow | hhigh
    · have hone : unbiased R a + (R.exponentBits + 1 : ℤ) < R.exponentBits + 1 := by omega
      have hzero : truncate (R.format.value a.toNat) = 0 := by
        rw [Format.truncate_value, Format.intPart_of_lt (by omega)]
        simp
      have hr := hclear (R.significandBits + R.exponentBits) le_rfl 1 (by omega) (by omega)
      rw [hzero]
      simp only [trunc, if_neg hnot, if_pos hone, Int.toNat_one]
      refine gives_zero hs ?_ hneg
      have hrest : e * 2 ^ R.significandBits + m < 2 ^ (R.significandBits + R.exponentBits) := by
        have hle := Nat.mul_le_mul_right (2 ^ R.significandBits) (Nat.succ_le_of_lt he)
        rw [Nat.succ_mul] at hle
        rw [pow_add, Nat.mul_comm (2 ^ R.significandBits)]
        omega
      rw [hr, heq, Format.assemble, Format.assemble, FpRep.format_expBits, FpRep.format_fracBits,
        Nat.add_comm R.exponentBits, Nat.add_comm (s * _), Nat.add_mul_div_right _ _
        (Nat.two_pow_pos _), Nat.div_eq_of_lt hrest]
      ring
    · obtain ⟨E, rfl⟩ := Nat.exists_eq_add_of_le hhigh
      have hE : E ≤ R.significandBits := by omega
      have hunb : unbiased R a = E := by omega
      have hone : ¬ unbiased R a + (R.exponentBits + 1 : ℤ) < R.exponentBits + 1 := by omega
      have hshift : ((E : ℤ) + (R.exponentBits + 1 : ℤ)).toNat = E + (R.exponentBits + 1) := by
        omega
      have hr := hclear (R.significandBits - E) (by omega) (E + (R.exponentBits + 1)) (by omega)
        (by omega)
      rw [heq, assemble_div_mul (k := R.significandBits - E) (Nat.sub_le _ _)] at hr
      rw [hunb] at hnot hone
      simp only [trunc, hunb, if_neg hnot, if_neg hone, hshift]
      rw [truncate_of_fields hE hm heq]
      exact gives_of_assemble hs hE (quotient_le hE hm).le hr hneg
  · have hself : trunc R a = a := by
      have : unbiased R a + (R.exponentBits + 1 : ℤ)
          ≥ R.significandBits + (R.exponentBits + 1 : ℤ) := by omega
      simp only [trunc, if_pos this]
    rw [hself]
    exact ⟨fun hfin => gives_self hfin (by omega), fun _ => rfl⟩

/-- `trunc` gives the integer part of a finite number, and anything else back. -/
theorem trunc_gives (R : FpRep) (a : BitVec R.typeWidth) :
    (R.format.Finite a.toNat →
      Gives R.format a.toNat (trunc R a).toNat (truncate (R.format.value a.toNat))) ∧
    (¬ R.format.Finite a.toNat → trunc R a = a) :=
  trunc_cases a

end trunc

/-! ## `ceil` and `floor` -/

section ceil

variable {s E m : ℕ}

/-- The neighbouring integers of a number with bits behind the point. -/
lemma floor_ceil_of_fields {a : ℕ} (hE : E ≤ R.significandBits) (hm : m < 2 ^ R.significandBits)
    (ha : a = R.format.assemble s (R.format.bias + E) m)
    (hrest : m % 2 ^ (R.significandBits - E) ≠ 0) :
    (⌊R.format.value a⌋ = if R.format.Negative a
      then -(2 ^ E + (m / 2 ^ (R.significandBits - E) + 1 : ℕ) : ℤ)
      else 2 ^ E + (m / 2 ^ (R.significandBits - E) : ℕ)) ∧
    ⌈R.format.value a⌉ = if R.format.Negative a
      then -(2 ^ E + (m / 2 ^ (R.significandBits - E) : ℕ) : ℤ)
      else 2 ^ E + (m / 2 ^ (R.significandBits - E) + 1 : ℕ) := by
  obtain ⟨hunits, hscale⟩ := units_eq hE hm ha
  have hlt : m % 2 ^ (R.significandBits - E) * 2 ^ (R.format.bias + E - 1) < R.format.scale := by
    rw [hscale]
    exact Nat.mul_lt_mul_of_pos_right (Nat.mod_lt _ (Nat.two_pow_pos _)) (Nat.two_pow_pos _)
  obtain ⟨hfloor, hceil⟩ := Format.floor_value hunits
    (Nat.mul_pos (Nat.pos_of_ne_zero hrest) (Nat.two_pow_pos _)) hlt
  rw [hfloor, hceil]
  constructor <;> split <;> push_cast <;> ring

/-- The branch for the numbers from 1 on. -/
lemma roundFraction_gives {a : BitVec 32} (up : Bool) (hs : s < 2) (hE : E < 23) (hm : m < 2 ^ 23)
    (ha : a.toNat = fp32.format.assemble s (127 + E) m)
    (hneg : fp32.format.Negative a.toNat ↔ s = 1) :
    Gives fp32.format a.toNat (roundFraction up a E).toNat
      (if up = decide (fp32.format.Negative a.toNat) then ⌊fp32.format.value a.toNat⌋
        else ⌈fp32.format.value a.toNat⌉) := by
  have hmask : (0x007FFFFF#32 >>> E).toNat = 2 ^ (23 - E) - 1 := by
    interval_cases E <;> rfl
  have hmod : a.toNat % 2 ^ (23 - E) = m % 2 ^ (23 - E) := by
    rw [ha, assemble_mod (k := 23 - E) (Nat.sub_le _ _)]
  have hquot := quotient_le (R := fp32) (E := E) hE.le hm
  rw [roundFraction]
  split
  · rename_i hzero
    rw [and_eq_zero_iff a hmask, hmod] at hzero
    have hself : a.toNat = fp32.format.assemble s (127 + E) (m / 2 ^ (23 - E) * 2 ^ (23 - E)) := by
      rw [Nat.div_mul_cancel (Nat.dvd_of_mod_eq_zero hzero), ha]
    have hgives := gives_of_assemble (R := fp32) hs hE.le hquot.le hself hneg
    have hval := hgives.value
    rw [hval, Int.floor_intCast, Int.ceil_intCast, ite_self]
    exact hgives
  rename_i hne
  rw [and_eq_zero_iff a hmask, hmod] at hne
  obtain ⟨hfloor, hceil⟩ := floor_ceil_of_fields (R := fp32) hE.le hm ha hne
  rw [hfloor, hceil]
  cases up
  · have hr : (a &&& ~~~(0x007FFFFF#32 >>> E)).toNat
        = fp32.format.assemble s (127 + E) (m / 2 ^ (23 - E) * 2 ^ (23 - E)) := by
      rw [toNat_and_not a hmask, ha, assemble_div_mul (k := 23 - E) (Nat.sub_le _ _)]
    have hgives := gives_of_assemble (R := fp32) hs hE.le hquot.le hr hneg
    by_cases h : fp32.format.Negative a.toNat
    · simpa [h] using hgives
    · simpa [h] using hgives
  · have hadd : (a + 0x007FFFFF#32 >>> E).toNat
        = fp32.format.assemble s (127 + E) (m + (2 ^ (23 - E) - 1)) := by
      have hle : 2 ^ (23 - E) ≤ 2 ^ 23 := Nat.pow_le_pow_right (by decide) (Nat.sub_le _ _)
      have hlt : fp32.format.assemble s (127 + E) (m + (2 ^ (23 - E) - 1)) < 2 ^ 32 := by
        have hexp : (2 : ℕ) ^ (fp32.format.expBits + fp32.format.fracBits) = 2 ^ 31 := rfl
        have hfrac : (2 : ℕ) ^ fp32.format.fracBits = 2 ^ 23 := rfl
        rw [Format.assemble, hexp, hfrac]
        omega
      rw [BitVec.toNat_add, hmask, ha, Format.assemble_add, Nat.mod_eq_of_lt hlt]
    have hup : (m + (2 ^ (23 - E) - 1)) / 2 ^ (23 - E) = m / 2 ^ (23 - E) + 1 := by
      have hpos := Nat.two_pow_pos (23 - E)
      have hsplit := Nat.div_add_mod' m (2 ^ (23 - E))
      have hlt := Nat.mod_lt m hpos
      rw [Nat.div_eq_iff hpos, Nat.add_mul]
      omega
    have hr : ((a + 0x007FFFFF#32 >>> E) &&& ~~~(0x007FFFFF#32 >>> E)).toNat
        = fp32.format.assemble s (127 + E) ((m / 2 ^ (23 - E) + 1) * 2 ^ (23 - E)) := by
      rw [toNat_and_not _ hmask, hadd, assemble_div_mul (k := 23 - E) (Nat.sub_le _ _), hup]
    have hgives := gives_of_assemble (R := fp32) hs hE.le hquot hr hneg
    by_cases h : fp32.format.Negative a.toNat
    · simpa [h] using hgives
    · simpa [h] using hgives

lemma units_eq_zero_iff {F : Format} {b : ℕ} : F.units b = 0 ↔ F.expField b = 0 ∧ F.frac b = 0 := by
  have hpos := Nat.two_pow_pos (F.expField b - 1)
  have hlead := Nat.two_pow_pos F.fracBits
  rw [Format.units, Nat.mul_eq_zero, Format.significand]
  split <;> omega

/-- The neighbouring integers of a number below one. -/
lemma floor_ceil_of_lt {F : Format} {b : ℕ} (he : F.expField b < F.bias) :
    (⌊F.value b⌋ = if F.units b ≠ 0 ∧ F.Negative b then -1 else 0) ∧
      ⌈F.value b⌉ = if F.units b ≠ 0 ∧ ¬ F.Negative b then 1 else 0 := by
  by_cases hunits : F.units b = 0
  · have hzero : F.value b = (0 : ℤ) := by
      rw [Format.value_of_units (n := 0) (by rw [hunits, Nat.zero_mul])]
      simp
    rw [hzero, Int.floor_intCast, Int.ceil_intCast, if_neg (fun h => h.1 hunits),
      if_neg (fun h => h.1 hunits)]
    exact ⟨rfl, rfl⟩
  · have hpart : F.units b / F.scale = 0 := Format.intPart_of_lt he
    have hlt : F.units b < F.scale := Nat.lt_of_div_eq_zero F.scale_pos hpart
    obtain ⟨hfloor, hceil⟩ := Format.floor_value (F := F) (b := b) (q := 0) (r := F.units b)
      (by rw [Nat.zero_mul, Nat.zero_add]) (Nat.pos_of_ne_zero hunits) hlt
    rw [hfloor, hceil]
    by_cases hneg : F.Negative b <;> simp [hunits, hneg]

section words32

variable {a : BitVec 32}

lemma shiftRight_31 (a : BitVec 32) : a >>> 31 = 0#32 ↔ ¬ fp32.format.Negative a.toNat := by
  have hlt := a.isLt
  have hexp : (2 : ℕ) ^ (fp32.format.expBits + fp32.format.fracBits) = 2 ^ 31 := rfl
  rw [← BitVec.toNat_inj, BitVec.toNat_ushiftRight, Nat.shiftRight_eq_div_pow, Format.Negative, hexp,
    BitVec.toNat_ofNat]
  omega

/-- `a.v << 1` is zero for both zeros. -/
lemma shiftLeft_1 (a : BitVec 32) : a <<< 1 = 0#32 ↔ fp32.format.units a.toNat = 0 := by
  have hlt := a.isLt
  have hexp : fp32.format.expField a.toNat = a.toNat / 2 ^ 23 % 2 ^ 8 := rfl
  have hfrac : fp32.format.frac a.toNat = a.toNat % 2 ^ 23 := rfl
  rw [← BitVec.toNat_inj, BitVec.toNat_shiftLeft, Nat.shiftLeft_eq, units_eq_zero_iff, hexp, hfrac,
    BitVec.toNat_ofNat]
  omega

lemma unbiased_fp32 (a : BitVec 32) :
    unbiased fp32 a = (fp32.format.expField a.toNat : ℤ) - 127 :=
  unbiased_eq (R := fp32) a

/-- A number with an exponent from 23 on is its own integer. -/
lemma gives_of_large {z : ℤ} (he : 150 ≤ fp32.format.expField a.toNat)
    (hz : ∀ i : ℤ, fp32.format.value a.toNat = i → z = i) (hfin : fp32.format.Finite a.toNat) :
    Gives fp32.format a.toNat a.toNat z := by
  have h := gives_self (R := fp32) hfin he
  rwa [hz _ h.value]

/-- A zero is its own integer. -/
lemma gives_of_units_zero (hfin : fp32.format.Finite a.toNat)
    (h : fp32.format.units a.toNat = 0) : Gives fp32.format a.toNat a.toNat 0 where
  finite := hfin
  value := by
    rw [Format.value_of_units (n := 0) (by rw [h, Nat.zero_mul])]
    simp
  sign := Iff.rfl

lemma finite_of_lt (he : fp32.format.expField a.toNat < 150) : fp32.format.Finite a.toNat := by
  have hexp : (2 : ℕ) ^ fp32.format.expBits = 256 := rfl
  rw [Format.Finite, hexp]
  omega

/-- The sign of the result where the number has an integral part. -/
lemma roundFraction_of_expField (up : Bool) (hlo : 127 ≤ fp32.format.expField a.toNat)
    (hhi : fp32.format.expField a.toNat < 150) :
    Gives fp32.format a.toNat (roundFraction up a (unbiased fp32 a).toNat).toNat
      (if up = decide (fp32.format.Negative a.toNat) then ⌊fp32.format.value a.toNat⌋
        else ⌈fp32.format.value a.toNat⌉) := by
  obtain ⟨s, e, m, hs, he, hm, heq, hfield, hfrac, hneg⟩ := exists_fields (R := fp32) a.isLt
  have hunbiased := unbiased_fp32 a
  rw [hfield] at hlo hhi hunbiased
  obtain ⟨E, rfl⟩ := Nat.exists_eq_add_of_le hlo
  have hE : (unbiased fp32 a).toNat = E := by omega
  rw [hE]
  exact roundFraction_gives up hs (by omega) hm heq hneg

/-- `ceil` gives the least integer that is not below a finite number, and anything else back. -/
theorem f32Ceil_gives (a : BitVec 32) :
    (fp32.format.Finite a.toNat →
      Gives fp32.format a.toNat (f32Ceil a).toNat ⌈fp32.format.value a.toNat⌉) ∧
    (¬ fp32.format.Finite a.toNat → f32Ceil a = a) := by
  have hunbiased := unbiased_fp32 a
  rcases Nat.lt_or_ge (fp32.format.expField a.toNat) 150 with hlt | hge
  · refine ⟨fun _ => ?_, fun h => absurd (finite_of_lt hlt) h⟩
    rw [f32Ceil, if_neg (by omega)]
    rcases Nat.lt_or_ge (fp32.format.expField a.toNat) 127 with hlow | hhigh
    · rw [if_neg (by omega), (floor_ceil_of_lt hlow).2]
      by_cases hneg : fp32.format.Negative a.toNat
      · have hsign : a >>> 31 ≠ 0#32 := fun h => (shiftRight_31 a).mp h hneg
        rw [if_pos hsign, if_neg (fun h => h.2 hneg)]
        exact gives_zero (R := fp32) (s := 1) (by decide) rfl (iff_of_true hneg rfl)
      · have hsign : ¬ a >>> 31 ≠ 0#32 := not_not.mpr ((shiftRight_31 a).mpr hneg)
        rw [if_neg hsign]
        by_cases hunits : fp32.format.units a.toNat = 0
        · rw [if_neg (not_not.mpr ((shiftLeft_1 a).mpr hunits)), if_neg (fun h => h.1 hunits)]
          exact gives_of_units_zero (finite_of_lt hlt) hunits
        · rw [if_pos (mt (shiftLeft_1 a).mp hunits), if_pos ⟨hunits, hneg⟩]
          have h := gives_of_assemble (R := fp32) (a := a.toNat) (r := (0x3F800000#32).toNat)
            (s := 0) (E := 0) (j := 0) (by decide) (Nat.zero_le _) (Nat.zero_le _) rfl
            (iff_of_false hneg (by decide))
          rwa [if_neg hneg] at h
    · rw [if_pos (by omega)]
      have h := roundFraction_of_expField (decide (a >>> 31 = 0#32)) hhigh hlt
      have hup : decide (a >>> 31 = 0#32) ≠ decide (fp32.format.Negative a.toNat) := by
        simp only [shiftRight_31, decide_not]
        exact Bool.not_ne_self _
      rwa [if_neg hup] at h
  · have hself : f32Ceil a = a := by rw [f32Ceil, if_pos (by omega)]
    rw [hself]
    exact ⟨gives_of_large hge fun i hi => by rw [hi, Int.ceil_intCast], fun _ => rfl⟩

/-- `floor` gives the greatest integer that is not above a finite number, and anything else back. -/
theorem f32Floor_gives (a : BitVec 32) :
    (fp32.format.Finite a.toNat →
      Gives fp32.format a.toNat (f32Floor a).toNat ⌊fp32.format.value a.toNat⌋) ∧
    (¬ fp32.format.Finite a.toNat → f32Floor a = a) := by
  have hunbiased := unbiased_fp32 a
  rcases Nat.lt_or_ge (fp32.format.expField a.toNat) 150 with hlt | hge
  · refine ⟨fun _ => ?_, fun h => absurd (finite_of_lt hlt) h⟩
    rw [f32Floor, if_neg (by omega)]
    rcases Nat.lt_or_ge (fp32.format.expField a.toNat) 127 with hlow | hhigh
    · rw [if_neg (by omega), (floor_ceil_of_lt hlow).1]
      by_cases hneg : fp32.format.Negative a.toNat
      · have hsign : ¬ a >>> 31 = 0#32 := fun h => (shiftRight_31 a).mp h hneg
        rw [if_neg hsign]
        by_cases hunits : fp32.format.units a.toNat = 0
        · rw [if_neg (not_not.mpr ((shiftLeft_1 a).mpr hunits)), if_neg (fun h => h.1 hunits)]
          exact gives_of_units_zero (finite_of_lt hlt) hunits
        · rw [if_pos (mt (shiftLeft_1 a).mp hunits), if_pos ⟨hunits, hneg⟩]
          have h := gives_of_assemble (R := fp32) (a := a.toNat) (r := (0xBF800000#32).toNat)
            (s := 1) (E := 0) (j := 0) (by decide) (Nat.zero_le _) (Nat.zero_le _) rfl
            (iff_of_true hneg rfl)
          rwa [if_pos hneg] at h
      · rw [if_pos ((shiftRight_31 a).mpr hneg), if_neg (fun h => hneg h.2)]
        exact gives_zero (R := fp32) (s := 0) (by decide) rfl (iff_of_false hneg (by decide))
    · rw [if_pos (by omega)]
      have h := roundFraction_of_expField (decide (a >>> 31 ≠ 0#32)) hhigh hlt
      have hup : decide (a >>> 31 ≠ 0#32) = decide (fp32.format.Negative a.toNat) := by
        rw [decide_eq_decide, ne_eq, shiftRight_31, not_not]
      rwa [if_pos hup] at h
  · have hself : f32Floor a = a := by rw [f32Floor, if_pos (by omega)]
    rw [hself]
    exact ⟨gives_of_large hge fun i hi => by rw [hi, Int.floor_intCast], fun _ => rfl⟩

end words32

end ceil

end UosioCdt.Native
