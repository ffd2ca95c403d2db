import Mathlib.Data.Nat.Bitwise
import UosioCdt.Rt.FixInt

/-!
# Floating point to 128-bit integers: the results

The parts of a representation are the fields of its format, so the conversions are computed from
the integer part of the number. `fixint` truncates and saturates, except at the exponent 127, where
the shifted significand does not fit and the result wraps; `fixuint` has no such exponent.
-/

namespace UosioCdt.Rt

open BinaryFloat

variable {R : FpRep}

/-! ## The fields -/

/-- The format of a representation. -/
def FpRep.format (R : FpRep) : Format := ⟨R.significandBits, R.exponentBits⟩

@[simp] lemma FpRep.format_fracBits (R : FpRep) : R.format.fracBits = R.significandBits := rfl

@[simp] lemma FpRep.format_expBits (R : FpRep) : R.format.expBits = R.exponentBits := rfl

lemma FpRep.typeWidth_eq (R : FpRep) :
    R.typeWidth = R.significandBits + R.exponentBits + 1 := by
  have h := R.exponent_le
  rw [exponentBits]
  omega

lemma FpRep.exponentBits_ge (R : FpRep) : 8 ≤ R.exponentBits := by
  have h := R.exponent_le
  rw [exponentBits]
  omega

lemma FpRep.exponentBias_eq (R : FpRep) : R.exponentBias = R.format.bias := by
  have hsplit : 2 ^ R.exponentBits = 2 ^ (R.exponentBits - 1) * 2 := by
    rw [← pow_succ, Nat.sub_add_cancel (by have := R.exponentBits_ge; omega)]
  rw [exponentBias, maxExponent, Format.bias, Nat.shiftRight_eq_div_pow, Nat.one_shiftLeft, pow_one,
    hsplit, format_expBits]
  omega

lemma FpRep.bias_ge (R : FpRep) : 127 ≤ R.format.bias := by
  have hpow : 2 ^ 7 ≤ 2 ^ (R.exponentBits - 1) :=
    Nat.pow_le_pow_right (by decide) (by have := R.exponentBits_ge; omega)
  rw [Format.bias, format_expBits]
  omega

lemma toNat_one_shiftLeft {w i : ℕ} (h : i < w) : ((1 : BitVec w) <<< i).toNat = 2 ^ i := by
  have hlt : 2 ^ i < 2 ^ w := Nat.pow_lt_pow_right (by decide) h
  have hone : 1 % 2 ^ w = 1 := Nat.mod_eq_of_lt (Nat.one_lt_two_pow (by omega))
  rw [BitVec.toNat_shiftLeft, BitVec.ofNat_eq_ofNat, BitVec.toNat_ofNat, hone, Nat.one_shiftLeft,
    Nat.mod_eq_of_lt hlt]

/-- A mask of low bits. -/
lemma toNat_and_mask {w i : ℕ} (a : BitVec w) (h : i < w) :
    (a &&& ((1 : BitVec w) <<< i - 1)).toNat = a.toNat % 2 ^ i := by
  have hone : (1 : BitVec w).toNat = 1 := by
    rw [BitVec.ofNat_eq_ofNat, BitVec.toNat_ofNat, Nat.mod_eq_of_lt (Nat.one_lt_two_pow (by omega))]
  have hle : (1 : BitVec w) ≤ (1 : BitVec w) <<< i := by
    rw [BitVec.le_def, toNat_one_shiftLeft h, hone]
    exact Nat.one_le_two_pow
  rw [BitVec.toNat_and, BitVec.toNat_sub_of_le hle, toNat_one_shiftLeft h, hone,
    Nat.and_two_pow_sub_one_eq_mod]

/-- The ones of a mask, shifted out from the top. -/
lemma toNat_allOnes_shiftRight {w i : ℕ} (h : i ≤ w) :
    (BitVec.allOnes w >>> i).toNat = 2 ^ (w - i) - 1 := by
  have hsplit : 2 ^ w = 2 ^ i * 2 ^ (w - i) := by rw [← pow_add, Nat.add_sub_cancel' h]
  have hpos := Nat.mul_pos (Nat.two_pow_pos i) (Nat.two_pow_pos (w - i))
  rw [BitVec.toNat_ushiftRight, BitVec.toNat_allOnes, Nat.shiftRight_eq_div_pow, hsplit,
    Nat.mul_sub_div _ _ _ hpos]
  simp

section fields

variable (a : BitVec R.typeWidth)

lemma toNat_aAbs : (aAbs R a).toNat = a.toNat % 2 ^ (R.significandBits + R.exponentBits) := by
  have hlt : R.significandBits + R.exponentBits < R.typeWidth := by
    have h := R.typeWidth_eq
    omega
  rw [aAbs, FpRep.absMask, FpRep.signBit, toNat_and_mask a hlt]

/-- The exponent field without the bias. -/
lemma exponent_eq : exponent R a = (R.format.expField a.toNat : ℤ) - R.format.bias := by
  rw [exponent, BitVec.toNat_ushiftRight, toNat_aAbs, Nat.shiftRight_eq_div_pow, pow_add,
    Nat.mod_mul_right_div_self, R.exponentBias_eq, Format.expField, FpRep.format_expBits,
    FpRep.format_fracBits]

/-- The significand of a normal number. -/
lemma toNat_significand :
    (significand R a).toNat = 2 ^ R.significandBits + R.format.frac a.toNat := by
  have hlt : R.significandBits < R.typeWidth := by
    have h := R.typeWidth_eq
    omega
  have hmask : (aAbs R a &&& R.significandMask).toNat = R.format.frac a.toNat := by
    rw [FpRep.significandMask, FpRep.implicitBit, toNat_and_mask _ hlt, toNat_aAbs, pow_add,
      Nat.mod_mul_right_mod, Format.frac, FpRep.format_fracBits]
  have hor := Nat.two_pow_add_eq_or_of_lt (Format.frac_lt (F := R.format) a.toNat) 1
  rw [Nat.mul_one, FpRep.format_fracBits] at hor
  rw [significand, BitVec.toNat_or, hmask, FpRep.implicitBit, toNat_one_shiftLeft hlt, Nat.or_comm,
    hor]

lemma sign_iff : a &&& R.signBit ≠ 0 ↔ R.format.Negative a.toNat := by
  have hlt : R.significandBits + R.exponentBits < R.typeWidth := by
    have h := R.typeWidth_eq
    omega
  have hpos := Nat.two_pow_pos (R.significandBits + R.exponentBits)
  rw [ne_eq, ← BitVec.toNat_inj, BitVec.toNat_and, FpRep.signBit, toNat_one_shiftLeft hlt,
    Nat.and_two_pow,
    Nat.testBit_eq_decide_div_mod_eq, Format.Negative, FpRep.format_fracBits, FpRep.format_expBits,
    Nat.add_comm R.exponentBits]
  by_cases hodd : a.toNat / 2 ^ (R.significandBits + R.exponentBits) % 2 = 1
  · simp [hodd]
  · simp [hodd]

end fields

/-! ## The magnitude -/

section magnitude

variable {a : BitVec R.typeWidth} {E : ℕ}

lemma exponent_of_expField (he : R.format.expField a.toNat = R.format.bias + E) :
    exponent R a = E := by
  rw [exponent_eq, he]
  omega

lemma intPart_lt (he : R.format.expField a.toNat = R.format.bias + E) (hE : E < 128) :
    R.format.intPart a.toNat < 2 ^ 128 := by
  have h := (Format.intPart_bounds (by have := R.bias_ge; omega) he).2
  exact h.trans_le (Nat.pow_le_pow_right (by decide) hE)

/-- The right shift drops the bits behind the point. -/
lemma toNat_shiftRight (he : R.format.expField a.toNat = R.format.bias + E)
    (hE : E < R.significandBits) :
    ((significand R a >>> (R.significandBits - E)).setWidth 128).toNat
      = R.format.intPart a.toNat := by
  have hbias : 0 < R.format.bias := by
    have := R.bias_ge
    omega
  have hlt := intPart_lt he (by have := R.significand_le; omega)
  have hpart := Format.intPart_of_exp_lt hbias he hE
  rw [FpRep.format_fracBits] at hpart
  rw [hpart] at hlt ⊢
  rw [BitVec.toNat_setWidth, BitVec.toNat_ushiftRight, toNat_significand,
    Nat.shiftRight_eq_div_pow, Nat.mod_eq_of_lt hlt]

/-- The left shift moves the significand to the point. -/
lemma toNat_shiftLeft (he : R.format.expField a.toNat = R.format.bias + E)
    (hle : R.significandBits ≤ E) (hE : E < 128) :
    ((significand R a).setWidth 128 <<< (E - R.significandBits)).toNat
      = R.format.intPart a.toNat := by
  have hbias : 0 < R.format.bias := by
    have := R.bias_ge
    omega
  have hlt := intPart_lt he hE
  have hpart := Format.intPart_of_le_exp hbias he hle
  rw [FpRep.format_fracBits] at hpart
  have hsig : (significand R a).toNat < 2 ^ 128 :=
    (significand R a).isLt.trans_le (Nat.pow_le_pow_right (by decide) R.typeWidth_le)
  rw [hpart] at hlt ⊢
  rw [BitVec.toNat_shiftLeft, BitVec.toNat_setWidth, Nat.mod_eq_of_lt hsig, toNat_significand,
    Nat.shiftLeft_eq, Nat.mod_eq_of_lt hlt]

end magnitude

/-- The exponent of an infinity is out of the range of the integers. -/
lemma expField_of_not_finite {b : ℕ} (h : ¬ R.format.Finite b) :
    R.format.bias + 128 ≤ R.format.expField b := by
  have hbias := R.bias_ge
  have hpow : 2 ^ R.exponentBits = 2 ^ (R.exponentBits - 1) * 2 := by
    rw [← pow_succ, Nat.sub_add_cancel (by have := R.exponentBits_ge; omega)]
  rw [Format.Finite, FpRep.format_expBits] at h
  rw [Format.bias, FpRep.format_expBits] at hbias ⊢
  omega

/-! ## Signed results -/

/-- The nearest `__int128`. -/
def saturate (z : ℤ) : ℤ := max (-2 ^ 127) (min z (2 ^ 127 - 1))

lemma toInt_fixintMax : fixintMax.toInt = 2 ^ 127 - 1 := by decide

lemma toInt_fixintMin : fixintMin.toInt = -2 ^ 127 := by decide

section fixint

variable {a : BitVec R.typeWidth}

/-- A number below one gives zero. -/
lemma fixint_of_lt (he : R.format.expField a.toNat < R.format.bias) : fixint R a = 0 := by
  have hneg : exponent R a < 0 := by
    rw [exponent_eq]
    omega
  simp only [fixint, if_pos hneg]

/-- From the exponent 128 on the result saturates. -/
lemma fixint_of_ge (he : R.format.bias + 128 ≤ R.format.expField a.toNat) :
    fixint R a = if R.format.Negative a.toNat then fixintMin else fixintMax := by
  have hge : exponent R a ≥ 128 := by
    rw [exponent_eq]
    omega
  have hneg : ¬ exponent R a < 0 := by omega
  have hne : (-1 : BitVec 128) ≠ 1 := by decide
  simp only [fixint, sign_iff, if_neg hneg, if_pos hge]
  split
  · rfl
  · rw [if_pos rfl]

/-- In between it is the word of the integer part. -/
lemma fixint_of_expField {E : ℕ} (he : R.format.expField a.toNat = R.format.bias + E)
    (hE : E < 128) :
    fixint R a = BitVec.ofInt 128 (truncate (R.format.value a.toNat)) := by
  have hexp := exponent_of_expField he
  have hneg : ¬ (E : ℤ) < 0 := by omega
  have hge : ¬ (E : ℤ) ≥ 128 := by omega
  have hword : ∀ w : BitVec 128, w.toNat = R.format.intPart a.toNat →
      (if R.format.Negative a.toNat then (-1 : BitVec 128) else 1) * w
        = BitVec.ofInt 128 (truncate (R.format.value a.toNat)) := by
    intro w hw
    have hofInt : w = BitVec.ofInt 128 (R.format.intPart a.toNat) := by
      rw [← hw, BitVec.ofInt_natCast, BitVec.ofNat_toNat, BitVec.setWidth_eq]
    rw [Format.truncate_value]
    split
    · rw [hofInt, BitVec.ofInt_neg, BitVec.neg_mul, BitVec.ofNat_eq_ofNat,
        BitVec.one_mul]
    · rw [hofInt, BitVec.ofNat_eq_ofNat, BitVec.one_mul]
  simp only [fixint, sign_iff, hexp, if_neg hneg, if_neg hge]
  split
  · rename_i hlt
    have hshift : ((R.significandBits : ℤ) - E).toNat = R.significandBits - E := by omega
    rw [hshift]
    exact hword _ (toNat_shiftRight he (by omega))
  · rename_i hlt
    have hshift : ((E : ℤ) - R.significandBits).toNat = E - R.significandBits := by omega
    rw [hshift]
    exact hword _ (toNat_shiftLeft he (by omega) hE)

lemma abs_truncate (b : ℕ) : |truncate (R.format.value b)| = R.format.intPart b := by
  rw [Format.truncate_value]
  split
  · rw [abs_neg, Nat.abs_cast]
  · rw [Nat.abs_cast]

/-- The exponent field says where the integer part lies. -/
lemma abs_truncate_bounds {b E : ℕ} (he : R.format.expField b = R.format.bias + E) :
    2 ^ E ≤ |truncate (R.format.value b)| ∧ |truncate (R.format.value b)| < 2 ^ (E + 1) := by
  obtain ⟨hlo, hhi⟩ := Format.intPart_bounds (by have := R.bias_ge; omega) he
  rw [abs_truncate]
  exact ⟨by exact_mod_cast hlo, by exact_mod_cast hhi⟩

/-- Below 2^128 the result is the word of the integer part, above it saturates. -/
lemma toInt_fixint (a : BitVec R.typeWidth) :
    (fixint R a).toInt = if |truncate (R.format.value a.toNat)| < 2 ^ 128
      then (truncate (R.format.value a.toNat)).bmod (2 ^ 128)
      else saturate (truncate (R.format.value a.toNat)) := by
  rcases Nat.lt_or_ge (R.format.expField a.toNat) R.format.bias with hlt | hge
  · have hzero : truncate (R.format.value a.toNat) = 0 := by
      rw [Format.truncate_value, Format.intPart_of_lt hlt]
      simp
    rw [fixint_of_lt hlt, hzero]
    decide
  obtain ⟨E, he⟩ := Nat.exists_eq_add_of_le hge
  obtain ⟨hlo, hhi⟩ := abs_truncate_bounds he
  rcases Nat.lt_or_ge E 128 with hE | hE
  · have hpow : (2 : ℤ) ^ (E + 1) ≤ 2 ^ 128 := by
      exact_mod_cast Nat.pow_le_pow_right (by decide) hE
    rw [if_pos (hhi.trans_le hpow), fixint_of_expField he hE, BitVec.toInt_ofInt]
  · have hpow : (2 : ℤ) ^ 128 ≤ 2 ^ E := by
      exact_mod_cast Nat.pow_le_pow_right (by decide) hE
    rw [if_neg (by omega), fixint_of_ge (by omega), saturate]
    rw [abs_truncate] at hlo
    rw [Format.truncate_value]
    split
    · rw [toInt_fixintMin]
      omega
    · rw [toInt_fixintMax]
      omega

/-- A finite number is truncated and saturated, unless it lies between 2^127 and 2^128 and is not
-2^127: there the result wraps around. An infinity or a pattern that is no number saturates by its
sign. -/
theorem fixint_eq_saturate_iff (R : FpRep) (a : BitVec R.typeWidth) :
    (R.format.Finite a.toNat →
      ((fixint R a).toInt = saturate (truncate (R.format.value a.toNat)) ↔
        |truncate (R.format.value a.toNat)| < 2 ^ 127 ∨
        2 ^ 128 ≤ |truncate (R.format.value a.toNat)| ∨
        truncate (R.format.value a.toNat) = -2 ^ 127)) ∧
    (¬ R.format.Finite a.toNat →
      fixint R a = if R.format.Negative a.toNat then fixintMin else fixintMax) := by
  refine ⟨fun _ => ?_, fun hinf => fixint_of_ge (expField_of_not_finite hinf)⟩
  generalize hz : truncate (R.format.value a.toNat) = z
  rw [toInt_fixint, hz, saturate]
  have habs : |z| = if z < 0 then -z else z := by
    split
    · exact abs_of_neg ‹_›
    · exact abs_of_nonneg (by omega)
  by_cases hlt : |z| < 2 ^ 128
  · rw [if_pos hlt, Int.bmod_def]
    omega
  · rw [if_neg hlt]
    exact ⟨fun _ => .inr (.inl (not_lt.mp hlt)), fun _ => rfl⟩

end fixint

/-! ## Unsigned results -/

/-- The nearest `unsigned __int128`. -/
def clamp (z : ℤ) : ℤ := max 0 (min z (2 ^ 128 - 1))

section fixuint

variable {a : BitVec R.typeWidth}

lemma fixuint_of_negative (h : R.format.Negative a.toNat) : fixuint R a = 0 := by
  simp only [fixuint, if_pos ((sign_iff a).mpr h), true_or, if_true]

lemma fixuint_of_lt (he : R.format.expField a.toNat < R.format.bias) : fixuint R a = 0 := by
  have hneg : exponent R a < 0 := by
    rw [exponent_eq]
    omega
  simp only [fixuint, hneg, or_true, if_true]

lemma fixuint_of_ge (hpos : ¬ R.format.Negative a.toNat)
    (he : R.format.bias + 128 ≤ R.format.expField a.toNat) : fixuint R a = ~~~0#128 := by
  have hge : exponent R a ≥ 128 := by
    rw [exponent_eq]
    omega
  have hzero : ¬ ((if a &&& R.signBit ≠ 0 then (-1 : ℤ) else 1) = -1 ∨ exponent R a < 0) := by
    rw [if_neg (mt (sign_iff a).mp hpos)]
    omega
  simp only [fixuint, if_neg hzero, if_pos hge]

lemma toNat_fixuint_of_expField {E : ℕ} (hpos : ¬ R.format.Negative a.toNat)
    (he : R.format.expField a.toNat = R.format.bias + E) (hE : E < 128) :
    (fixuint R a).toNat = R.format.intPart a.toNat := by
  have hexp := exponent_of_expField he
  have hzero : ¬ ((if a &&& R.signBit ≠ 0 then (-1 : ℤ) else 1) = -1 ∨ (E : ℤ) < 0) := by
    rw [if_neg (mt (sign_iff a).mp hpos)]
    omega
  have hge : ¬ (E : ℤ) ≥ 128 := by omega
  simp only [fixuint, hexp, if_neg hzero, if_neg hge]
  split
  · rename_i hlt
    have hshift : ((R.significandBits : ℤ) - E).toNat = R.significandBits - E := by omega
    rw [hshift]
    exact toNat_shiftRight he (by omega)
  · rename_i hlt
    have hshift : ((E : ℤ) - R.significandBits).toNat = E - R.significandBits := by omega
    rw [hshift]
    exact toNat_shiftLeft he (by omega) hE

lemma fixuint_of_finite (a : BitVec R.typeWidth) (_ : R.format.Finite a.toNat) :
    ((fixuint R a).toNat : ℤ) = clamp (truncate (R.format.value a.toNat)) := by
  have hones : (~~~0#128).toNat = 2 ^ 128 - 1 := by decide
  have hzero : (0 : BitVec 128).toNat = 0 := rfl
  rw [Format.truncate_value, clamp]
  by_cases hneg : R.format.Negative a.toNat
  · rw [fixuint_of_negative hneg, if_pos hneg, hzero]
    omega
  rw [if_neg hneg]
  rcases Nat.lt_or_ge (R.format.expField a.toNat) R.format.bias with hlt | hge
  · rw [fixuint_of_lt hlt, Format.intPart_of_lt hlt, hzero]
    omega
  obtain ⟨E, he⟩ := Nat.exists_eq_add_of_le hge
  rcases Nat.lt_or_ge E 128 with hE | hE
  · have hlt := intPart_lt he hE
    rw [toNat_fixuint_of_expField hneg he hE]
    omega
  · have hlo := (Format.intPart_bounds (by have := R.bias_ge; omega) he).1
    have hpow : 2 ^ 128 ≤ 2 ^ E := Nat.pow_le_pow_right (by decide) hE
    rw [fixuint_of_ge hneg (by omega), hones]
    omega

/-- Every finite number is truncated and clamped to the range of the result. An infinity or a
pattern that is no number gives the end of the range on the side of its sign. -/
theorem fixuint_eq_clamp (R : FpRep) (a : BitVec R.typeWidth) :
    (R.format.Finite a.toNat →
      ((fixuint R a).toNat : ℤ) = clamp (truncate (R.format.value a.toNat))) ∧
    (¬ R.format.Finite a.toNat →
      fixuint R a = if R.format.Negative a.toNat then 0 else ~~~0#128) := by
  refine ⟨fixuint_of_finite a, fun hinf => ?_⟩
  split
  · exact fixuint_of_negative ‹_›
  · exact fixuint_of_ge ‹_› (expField_of_not_finite hinf)

end fixuint

end UosioCdt.Rt
