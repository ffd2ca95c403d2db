import UosioCdt.Native.FloatRoundingTheorems
import UosioCdt.Rt.FloatIntTheorems

/-!
# Integers to doubles and back

An integer survives the way through a double exactly when its significant bits fit into the 53 of
the significand. A double that is converted to an integer and back is `_uosio_f64_trunc` of it,
unless the integer did not fit.
-/

namespace UosioCdt.Rt

open BinaryFloat

/-- The number has at most 53 bits from its leading one to its last one. -/
def Representable (n : ℕ) : Prop := ∃ j i, j < 2 ^ 53 ∧ n = j * 2 ^ i

/-! ## Rounded magnitudes -/

section rounded

variable {n r m e : ℕ}

/-- Only a number of 53 bits is not changed by rounding. -/
lemma Rounded.eq_iff (h : Rounded n r m e) : r = n ↔ Representable n := by
  constructor
  · intro hr
    rcases Nat.lt_or_ge e 52 with he | he
    · refine ⟨n, 0, ?_, by simp⟩
      have hle : m * 2 ^ e ≤ m * 2 ^ 52 :=
        Nat.mul_le_mul_left m (Nat.pow_le_pow_right (by decide) he.le)
      have hlt := h.m_lt
      rw [h.eq, hr] at hle
      omega
    · refine ⟨m, e - 52, h.m_lt, ?_⟩
      have heq := h.eq
      rw [hr, ← Nat.sub_add_cancel he, pow_add, ← Nat.mul_assoc] at heq
      exact Nat.eq_of_mul_eq_mul_right (Nat.two_pow_pos 52) heq.symm
  · rintro ⟨j, i, hj, hn⟩
    rcases h.nearest with hr | ⟨k, hlo, -, hr, -⟩
    · exact hr
    · have hlt : 2 ^ (k + 52) < 2 ^ (53 + i) := by
        rw [pow_add 2 53 i]
        exact (hlo.trans_eq hn).trans_lt (Nat.mul_lt_mul_of_pos_right hj (Nat.two_pow_pos i))
      have hk : k ≤ i := by
        have := (Nat.pow_lt_pow_iff_right (by decide)).mp hlt
        omega
      have hdvd : 2 ^ k ∣ n := hn ▸ (Nat.pow_dvd_pow 2 hk).trans (Nat.dvd_mul_left _ _)
      have hmod := Nat.mod_eq_zero_of_dvd hdvd
      have hhalf : halfEven n (2 ^ k) = n / 2 ^ k := by
        rw [halfEven, if_pos (.inl (by rw [hmod]; exact Nat.two_pow_pos k))]
      rw [hr, hhalf, Nat.div_mul_cancel hdvd]

/-- Rounding does not cross a power of two. -/
lemma Rounded.le (h : Rounded n r m e) {b : ℕ} (hn : n ≤ 2 ^ b) : r ≤ 2 ^ b := by
  rcases h.nearest with hr | ⟨k, hlo, -, hr, -⟩
  · exact hr.trans_le hn
  · have hk : k ≤ b := by
      have := (Nat.pow_le_pow_iff_right (by decide : 1 < 2)).mp (hlo.trans hn)
      omega
    have hnear := (halfEven_nearest (n := n) (Nat.two_pow_pos k) (2 ^ (b - k) : ℕ)).1
    have hpow : ((2 ^ (b - k) : ℕ) : ℤ) * (2 ^ k : ℕ) = (2 ^ b : ℕ) := by
      rw [← Nat.cast_mul, ← pow_add, Nat.sub_add_cancel hk]
    rw [hpow, ← Nat.cast_mul, ← hr, abs_of_nonneg (a := ((2 ^ b : ℕ) : ℤ) - n) (by omega)] at hnear
    have := le_abs_self ((r : ℤ) - n)
    omega

end rounded

/-- The number of the double assembled from a rounded magnitude. -/
lemma value_of_rounded {n r m e s b : ℕ} (h : Rounded n r m e) (hs : s < 2)
    (hb : b = fp64.format.assemble s (e + 1023) (m - 2 ^ 52)) :
    fp64.format.Finite b ∧ fp64.format.value b = ((if s = 1 then -r else r : ℤ) : ℚ) := by
  obtain ⟨hfin, hneg, -, hunits⟩ := assembled_fields h hs hb
  refine ⟨hfin, ?_⟩
  rw [Format.value_of_units hunits, Format.sign, if_congr hneg rfl rfl]
  split <;> simp

lemma truncate_intCast (z : ℤ) : truncate z = z := by
  rw [truncate]
  split
  · exact Int.ceil_intCast z
  · exact Int.floor_intCast z

/-- The double of a signed integer. -/
lemma exists_value_signed (a : BitVec 128) :
    ∃ r : ℕ, r ≤ 2 ^ 127 ∧ (r = a.toInt.natAbs ↔ Representable a.toInt.natAbs) ∧
      fp64.format.Finite (floattidf a).toNat ∧
      fp64.format.value (floattidf a).toNat = ((if a.msb then -r else r : ℤ) : ℚ) := by
  by_cases ha : a = 0
  · subst ha
    exact ⟨0, by decide, iff_of_true rfl ⟨0, 0, by decide, rfl⟩, by decide,
      (Format.value_zero _).trans (by simp)⟩
  obtain ⟨r, m, e, hrounded, hbits⟩ := exists_rounded_signed ha
  have hle : a.toInt.natAbs ≤ 2 ^ 127 := by
    have hlo := BitVec.le_two_mul_toInt (x := a)
    have hhi := BitVec.two_mul_toInt_lt (x := a)
    omega
  obtain ⟨hfin, hval⟩ := value_of_rounded hrounded (by split <;> decide) hbits
  refine ⟨r, hrounded.le hle, hrounded.eq_iff, hfin, ?_⟩
  cases hmsb : a.msb <;> simpa [hmsb] using hval

/-- The double of an unsigned integer. -/
lemma exists_value_unsigned (a : BitVec 128) :
    ∃ r : ℕ, r ≤ 2 ^ 128 ∧ (r = a.toNat ↔ Representable a.toNat) ∧
      fp64.format.Finite (floatuntidf a).toNat ∧
      fp64.format.value (floatuntidf a).toNat = ((r : ℤ) : ℚ) := by
  by_cases ha : a = 0
  · subst ha
    exact ⟨0, by decide, iff_of_true rfl ⟨0, 0, by decide, rfl⟩, by decide,
      (Format.value_zero _).trans (by simp)⟩
  obtain ⟨r, m, e, hrounded, hbits⟩ := exists_rounded_unsigned ha
  obtain ⟨hfin, hval⟩ := value_of_rounded hrounded (by decide) hbits
  exact ⟨r, hrounded.le a.isLt.le, hrounded.eq_iff, hfin, by simpa using hval⟩

/-! ## Integers -/

/-- `fixdfti` in terms of the format of a double. -/
lemma toInt_fixdfti (d : BitVec 64) :
    (fixdfti d).toInt = if |truncate (fp64.format.value d.toNat)| < 2 ^ 128
      then (truncate (fp64.format.value d.toNat)).bmod (2 ^ 128)
      else saturate (truncate (fp64.format.value d.toNat)) :=
  toInt_fixint (R := fp64) d

lemma toNat_fixunsdfti {d : BitVec 64} (h : fp64.format.Finite d.toNat) :
    ((fixunsdfti d).toNat : ℤ) = clamp (truncate (fp64.format.value d.toNat)) :=
  fixuint_of_finite (R := fp64) d h

/-- A signed integer comes back from its double exactly when 53 bits hold it. An unsigned one does
so also when it is the largest, where the double is out of range and the conversion clamps. -/
theorem fix_float_iff (a : BitVec 128) :
    (fixdfti (floattidf a) = a ↔ Representable a.toInt.natAbs) ∧
    (fixunsdfti (floatuntidf a) = a ↔ Representable a.toNat ∨ a = BitVec.allOnes 128) := by
  constructor
  · obtain ⟨r, hle, hrep, -, hval⟩ := exists_value_signed a
    have habs := (natAbs_toInt a).2
    have hhi := BitVec.two_mul_toInt_lt (x := a)
    have hint : (fixdfti (floattidf a)).toInt
        = (if a.msb then -(r : ℤ) else r).bmod (2 ^ 128) := by
      have hlt : |if a.msb then -(r : ℤ) else r| < 2 ^ 128 := by
        split
        · rw [abs_neg, Nat.abs_cast]
          omega
        · rw [Nat.abs_cast]
          omega
      rw [toInt_fixdfti, hval, truncate_intCast, if_pos hlt]
    rw [← hrep, ← BitVec.toInt_inj, hint, Int.bmod_def]
    cases hmsb : a.msb <;> simp only [hmsb, if_true, Bool.false_eq_true, if_false] at habs ⊢ <;> omega
  · obtain ⟨r, hle, hrep, hfin, hval⟩ := exists_value_unsigned a
    have hnat : ((fixunsdfti (floatuntidf a)).toNat : ℤ) = clamp r := by
      rw [toNat_fixunsdfti hfin, hval, truncate_intCast]
    rw [clamp] at hnat
    have hlt := a.isLt
    rw [← hrep]
    constructor
    · intro h
      rw [h] at hnat
      rcases eq_or_lt_of_le hle with heq | hr
      · refine .inr (BitVec.eq_of_toNat_eq ?_)
        rw [BitVec.toNat_allOnes]
        omega
      · exact .inl (by omega)
    · rintro (h | rfl)
      · refine BitVec.eq_of_toNat_eq ?_
        omega
      · decide

/-! ## Doubles -/

/-- The integer part of a double has no more bits than its significand. -/
lemma representable_intPart (d : ℕ) : Representable (fp64.format.intPart d) := by
  rcases Nat.lt_or_ge (fp64.format.expField d) fp64.format.bias with hlow | hhigh
  · exact ⟨0, 0, by decide, Format.intPart_of_lt hlow⟩
  have hfrac := fp64.format.frac_lt d
  have hbits : fp64.format.fracBits = 52 := rfl
  rw [hbits] at hfrac
  obtain ⟨E, hE⟩ := Nat.exists_eq_add_of_le hhigh
  have hbias : 0 < fp64.format.bias := by decide
  rcases Nat.lt_or_ge E fp64.format.fracBits with hpoint | hpoint
  · refine ⟨_, 0, ?_, by rw [Format.intPart_of_exp_lt hbias hE hpoint, pow_zero, Nat.mul_one]⟩
    refine (Nat.div_le_self _ _).trans_lt ?_
    rw [hbits]
    omega
  · exact ⟨2 ^ 52 + fp64.format.frac d, E - 52, by omega,
      Format.intPart_of_le_exp hbias hE hpoint⟩

lemma natAbs_truncate (d : ℕ) :
    (truncate (fp64.format.value d)).natAbs = fp64.format.intPart d := by
  rw [Format.truncate_value]
  split <;> omega

/-- A finite double that is converted to an integer and back is `_uosio_f64_trunc` of it, up to the
sign of a zero, exactly when the integer part is in the range of the integers. -/
theorem float_fix_iff (d : BitVec 64) (hfin : fp64.format.Finite d.toNat) :
    fp64.format.value (floattidf (fixdfti d)).toNat
        = fp64.format.value (Native.f64Trunc d).toNat ↔
      -2 ^ 127 ≤ truncate (fp64.format.value d.toNat) ∧
        truncate (fp64.format.value d.toNat) < 2 ^ 127 := by
  obtain ⟨r, hle, hrep, -, hval⟩ := exists_value_signed (fixdfti d)
  have htrunc : fp64.format.value (Native.f64Trunc d).toNat
      = (truncate (fp64.format.value d.toNat) : ℤ) :=
    ((Native.trunc_cases (R := fp64) d).1 hfin).value
  have hint := toInt_fixdfti d
  have hmag := natAbs_truncate d.toNat
  have hpart := representable_intPart d.toNat
  rw [hval, htrunc, Int.cast_inj]
  generalize truncate (fp64.format.value d.toNat) = t at hint hmag ⊢
  have hbmod : t.bmod (2 ^ 128) = if t % 2 ^ 128 < 2 ^ 127 then t % 2 ^ 128
      else t % 2 ^ 128 - 2 ^ 128 := by
    rw [Int.bmod_def]
    norm_num
  constructor
  · intro h
    have hrange : -2 ^ 127 ≤ t ∧ t ≤ 2 ^ 127 := by
      constructor <;> split at h <;> omega
    refine ⟨hrange.1, lt_of_le_of_ne hrange.2 fun htop => ?_⟩
    -- the one double at the bound wraps to the least integer
    rw [htop] at hint h
    have hwrap : (fixdfti d).toInt = -2 ^ 127 := by
      rw [hint]
      decide
    have hneg : (fixdfti d).msb = true := by
      rw [BitVec.msb_eq_toInt, hwrap]
      decide
    rw [hneg, if_pos rfl] at h
    omega
  · rintro ⟨hge, hlt⟩
    have habs : |t| < 2 ^ 128 := abs_lt.mpr ⟨by omega, by omega⟩
    rw [if_pos habs, hbmod] at hint
    have hself : (fixdfti d).toInt = t := by
      rw [hint]
      split <;> omega
    rw [hself, hmag] at hrep
    have hr : r = fp64.format.intPart d.toNat := hrep.mpr hpart
    have hsigned := (natAbs_toInt (fixdfti d)).2
    rw [hself, hmag, ← hr] at hsigned
    exact hsigned.symm

/-- The double 3.5. -/
theorem float_fix_iff_three :
    fp64.format.value (floattidf (fixdfti 0x400C000000000000#64)).toNat
        = fp64.format.value (Native.f64Trunc 0x400C000000000000#64).toNat ↔
      -2 ^ 127 ≤ truncate (fp64.format.value 0x400C000000000000) ∧
        truncate (fp64.format.value 0x400C000000000000) < 2 ^ 127 :=
  float_fix_iff 0x400C000000000000#64 (by decide)

end UosioCdt.Rt
