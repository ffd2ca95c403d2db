import Mathlib.Data.Rat.Floor
import Mathlib.Algebra.Order.Ring.Abs
import Mathlib.Tactic.IntervalCases
import Mathlib.Tactic.Linarith
import Mathlib.Tactic.Positivity
import Mathlib.Tactic.Ring

/-!
# Binary floating point formats

A number is a bit pattern: a sign, an exponent field and a fraction. Its magnitude is a natural
number of `units`, the least positive numbers of the format, of which `scale` make a one.

* the fields of a pattern, the pattern of given fields, and the numbers they stand for;
* `truncate`: the integer part towards zero, and the integers a format holds exactly;
* `halfEven`: the quotient rounded to the nearest integer, ties to the even one, computed from the
  two bits behind it and a sticky bit;
* `IsNearest`: the pattern is the one that a number is rounded to.
-/

namespace BinaryFloat

/-- The widths of the fraction and of the exponent field. -/
structure Format where
  fracBits : ℕ
  expBits : ℕ

namespace Format

variable (F : Format)

/-- The exponent field of the numbers from 1 to 2. -/
def bias : ℕ := 2 ^ (F.expBits - 1) - 1

/-- The units in a one. -/
def scale : ℕ := 2 ^ (F.bias + F.fracBits - 1)

lemma scale_pos : 0 < F.scale := Nat.two_pow_pos _

/-! ## The fields of a pattern -/

def frac (b : ℕ) : ℕ := b % 2 ^ F.fracBits

def expField (b : ℕ) : ℕ := b / 2 ^ F.fracBits % 2 ^ F.expBits

def Negative (b : ℕ) : Prop := b / 2 ^ (F.expBits + F.fracBits) % 2 = 1

instance (b : ℕ) : Decidable (F.Negative b) := by
  unfold Negative
  infer_instance

/-- The largest exponent field is that of the infinities and of the patterns that are no number. -/
def Finite (b : ℕ) : Prop := F.expField b + 1 < 2 ^ F.expBits

instance (b : ℕ) : Decidable (F.Finite b) := by
  unfold Finite
  infer_instance

/-- The pattern with these fields. -/
def assemble (s e m : ℕ) : ℕ := s * 2 ^ (F.expBits + F.fracBits) + (e * 2 ^ F.fracBits + m)

section assemble

variable {F} {s e m : ℕ}

lemma frac_assemble (hm : m < 2 ^ F.fracBits) : F.frac (F.assemble s e m) = m := by
  have hsplit : F.assemble s e m = m + 2 ^ F.fracBits * (s * 2 ^ F.expBits + e) := by
    rw [assemble, pow_add]
    ring
  rw [frac, hsplit, Nat.add_mul_mod_self_left, Nat.mod_eq_of_lt hm]

lemma assemble_div_fracBits (hm : m < 2 ^ F.fracBits) :
    F.assemble s e m / 2 ^ F.fracBits = s * 2 ^ F.expBits + e := by
  have hsplit : F.assemble s e m = m + 2 ^ F.fracBits * (s * 2 ^ F.expBits + e) := by
    rw [assemble, pow_add]
    ring
  rw [hsplit, Nat.add_mul_div_left _ _ (Nat.two_pow_pos _), Nat.div_eq_of_lt hm, Nat.zero_add]

lemma expField_assemble (he : e < 2 ^ F.expBits) (hm : m < 2 ^ F.fracBits) :
    F.expField (F.assemble s e m) = e := by
  rw [expField, assemble_div_fracBits hm, Nat.add_comm, Nat.add_mul_mod_self_right,
    Nat.mod_eq_of_lt he]

lemma negative_assemble (hs : s < 2) (he : e < 2 ^ F.expBits) (hm : m < 2 ^ F.fracBits) :
    F.Negative (F.assemble s e m) ↔ s = 1 := by
  have hdiv : F.assemble s e m / 2 ^ (F.expBits + F.fracBits) = s := by
    rw [Nat.add_comm, pow_add, ← Nat.div_div_eq_div_mul, assemble_div_fracBits hm, Nat.add_comm,
      Nat.add_mul_div_right _ _ (Nat.two_pow_pos _), Nat.div_eq_of_lt he, Nat.zero_add]
  rw [Negative, hdiv, Nat.mod_eq_of_lt hs]

end assemble

/-- Every pattern is that of its fields. -/
lemma exists_assemble {b : ℕ} (hb : b < 2 ^ (F.fracBits + F.expBits + 1)) :
    ∃ s e m, s < 2 ∧ e < 2 ^ F.expBits ∧ m < 2 ^ F.fracBits ∧ b = F.assemble s e m := by
  refine ⟨b / 2 ^ F.fracBits / 2 ^ F.expBits, b / 2 ^ F.fracBits % 2 ^ F.expBits,
    b % 2 ^ F.fracBits, ?_, Nat.mod_lt _ (Nat.two_pow_pos _), Nat.mod_lt _ (Nat.two_pow_pos _), ?_⟩
  · rwa [Nat.div_lt_iff_lt_mul (Nat.two_pow_pos _), Nat.div_lt_iff_lt_mul (Nat.two_pow_pos _),
      Nat.mul_assoc, ← pow_add, ← pow_succ', show F.expBits + F.fracBits = F.fracBits + F.expBits
      from Nat.add_comm _ _]
  · have hlow := Nat.div_add_mod b (2 ^ F.fracBits)
    have hhigh := Nat.div_add_mod (b / 2 ^ F.fracBits) (2 ^ F.expBits)
    generalize b / 2 ^ F.fracBits / 2 ^ F.expBits = s at hhigh ⊢
    generalize b / 2 ^ F.fracBits % 2 ^ F.expBits = e at hhigh ⊢
    generalize b % 2 ^ F.fracBits = m at hlow ⊢
    rw [← hlow, ← hhigh, assemble, pow_add]
    ring

lemma assemble_add (s e m c : ℕ) : F.assemble s e m + c = F.assemble s e (m + c) := by
  rw [assemble, assemble, Nat.add_assoc, Nat.add_assoc]

/-- A full fraction carries into the exponent. -/
lemma assemble_carry (s e : ℕ) : F.assemble s e (2 ^ F.fracBits) = F.assemble s (e + 1) 0 := by
  rw [assemble, assemble, Nat.add_mul, Nat.one_mul, Nat.add_zero]

/-! ## The number of a pattern -/

/-- The fraction with the leading one that a normal number does not store. -/
def significand (b : ℕ) : ℕ := F.frac b + if F.expField b = 0 then 0 else 2 ^ F.fracBits

/-- The magnitude in units. The subnormal numbers have the spacing of the exponent field 1. -/
def units (b : ℕ) : ℕ := F.significand b * 2 ^ (F.expField b - 1)

def sign (b : ℕ) : ℤ := if F.Negative b then -1 else 1

/-- The number of a finite pattern. -/
def value (b : ℕ) : ℚ := F.sign b * (F.units b / F.scale)

variable {F} {b c : ℕ}

lemma frac_lt (b : ℕ) : F.frac b < 2 ^ F.fracBits := Nat.mod_lt _ (Nat.two_pow_pos _)

lemma significand_lt (b : ℕ) : F.significand b < 2 ^ (F.fracBits + 1) := by
  have hfrac := F.frac_lt b
  rw [significand, pow_succ]
  split <;> omega

lemma significand_of_ne (h : F.expField b ≠ 0) : F.significand b = 2 ^ F.fracBits + F.frac b := by
  rw [significand, if_neg h, Nat.add_comm]

lemma units_of_ne (h : F.expField b ≠ 0) :
    F.units b = (2 ^ F.fracBits + F.frac b) * 2 ^ (F.expField b - 1) := by
  rw [units, significand_of_ne h]

lemma value_zero (F : Format) : F.value 0 = 0 := by simp [value, units, significand, frac, expField]

lemma value_of_negative (h : F.Negative b) : F.value b = -(F.units b / F.scale : ℚ) := by
  rw [value, sign, if_pos h, Int.cast_neg, Int.cast_one, neg_one_mul]

lemma value_of_not_negative (h : ¬ F.Negative b) : F.value b = F.units b / F.scale := by
  rw [value, sign, if_neg h, Int.cast_one, one_mul]

lemma units_assemble {s e m : ℕ} (he : e < 2 ^ F.expBits) (hne : e ≠ 0) (hm : m < 2 ^ F.fracBits) :
    F.units (F.assemble s e m) = (2 ^ F.fracBits + m) * 2 ^ (e - 1) := by
  have hfield : F.expField (F.assemble s e m) = e := expField_assemble he hm
  rw [units_of_ne (by rwa [hfield]), hfield, frac_assemble hm]

/-- A step of the fraction is a step of the last place, also when it carries into the exponent. -/
lemma units_assemble_carry {s e m : ℕ} (he : e + 1 < 2 ^ F.expBits) (hne : e ≠ 0)
    (hm : m ≤ 2 ^ F.fracBits) :
    F.units (F.assemble s e m) = (2 ^ F.fracBits + m) * 2 ^ (e - 1) := by
  rcases eq_or_lt_of_le hm with rfl | hlt
  · have hpos := Nat.two_pow_pos F.fracBits
    rw [assemble_carry, units_assemble he (Nat.succ_ne_zero e) hpos, Nat.add_sub_cancel,
      Nat.add_zero, ← Nat.two_mul, Nat.mul_assoc, Nat.mul_left_comm, ← pow_succ',
      Nat.sub_add_cancel (Nat.one_le_iff_ne_zero.mpr hne)]
  · exact units_assemble (by omega) hne hlt

/-- A magnitude that is a whole number of ones. -/
lemma value_of_units {n : ℕ} (h : F.units b = n * F.scale) : F.value b = F.sign b * n := by
  have hscale : (F.scale : ℚ) ≠ 0 := by exact_mod_cast F.scale_pos.ne'
  rw [value, h, Nat.cast_mul, mul_div_assoc, div_self hscale, mul_one]

/-- A number with a high leading bit has low bits that are zero. -/
lemma dvd_units {k : ℕ} (h : 2 ^ (k + F.fracBits) ≤ F.units b) : 2 ^ k ∣ F.units b := by
  have hlt : F.units b < 2 ^ (F.fracBits + 1 + (F.expField b - 1)) := by
    rw [units, pow_add]
    exact Nat.mul_lt_mul_of_pos_right (F.significand_lt b) (Nat.two_pow_pos _)
  have hexp : k + F.fracBits < F.fracBits + 1 + (F.expField b - 1) :=
    (Nat.pow_lt_pow_iff_right (by decide)).mp (h.trans_lt hlt)
  exact (Nat.pow_dvd_pow 2 (by omega)).trans (Nat.dvd_mul_left _ _)

end Format

/-! ## The integer part -/

/-- The integer part, towards zero. -/
def truncate (q : ℚ) : ℤ := if q < 0 then ⌈q⌉ else ⌊q⌋

lemma truncate_neg (q : ℚ) : truncate (-q) = -truncate q := by
  rcases lt_trichotomy q 0 with hq | rfl | hq
  · rw [truncate, truncate, if_neg (by linarith), if_pos hq, Int.floor_neg]
  · simp [truncate]
  · rw [truncate, truncate, if_pos (by linarith), if_neg (by linarith), Int.ceil_neg]

lemma truncate_div (m n : ℕ) : truncate ((m : ℚ) / n) = (m / n : ℕ) := by
  have hpos : (0 : ℚ) ≤ (m : ℚ) / n := by positivity
  rw [truncate, if_neg (by linarith), Rat.floor_natCast_div_natCast, Int.natCast_ediv]

namespace Format

variable {F : Format} {b : ℕ}

/-- The integer part of the magnitude. -/
def intPart (F : Format) (b : ℕ) : ℕ := F.units b / F.scale

lemma truncate_value (b : ℕ) :
    truncate (F.value b) = if F.Negative b then -(F.intPart b : ℤ) else F.intPart b := by
  split
  · rename_i h
    rw [value_of_negative h, truncate_neg, truncate_div, intPart]
  · rename_i h
    rw [value_of_not_negative h, truncate_div, intPart]

/-- A number with an exponent field below the bias is less than one. -/
lemma intPart_of_lt (h : F.expField b < F.bias) : F.intPart b = 0 := by
  refine Nat.div_eq_of_lt ?_
  by_cases he : F.expField b = 0
  · have hfrac := F.frac_lt b
    have hle : 2 ^ F.fracBits ≤ F.scale := Nat.pow_le_pow_right (by decide) (by omega)
    rw [units, significand, if_pos he, he]
    omega
  · have hlt : F.units b < 2 ^ (F.fracBits + 1 + (F.expField b - 1)) := by
      rw [units, pow_add]
      exact Nat.mul_lt_mul_of_pos_right (F.significand_lt b) (Nat.two_pow_pos _)
    exact hlt.trans_le (Nat.pow_le_pow_right (by decide) (by omega))

/-- The fraction bits behind the point are dropped. -/
lemma intPart_of_exp_lt {E : ℕ} (hbias : 0 < F.bias) (he : F.expField b = F.bias + E)
    (hE : E < F.fracBits) :
    F.intPart b = (2 ^ F.fracBits + F.frac b) / 2 ^ (F.fracBits - E) := by
  have hscale : F.scale = 2 ^ (F.fracBits - E) * 2 ^ (F.expField b - 1) := by
    rw [scale, ← pow_add]
    congr 1
    omega
  rw [intPart, units_of_ne (by omega), hscale, Nat.mul_div_mul_right _ _ (Nat.two_pow_pos _)]

/-- With no bits behind the point the significand is shifted. -/
lemma intPart_of_le_exp {E : ℕ} (hbias : 0 < F.bias) (he : F.expField b = F.bias + E)
    (hE : F.fracBits ≤ E) :
    F.intPart b = (2 ^ F.fracBits + F.frac b) * 2 ^ (E - F.fracBits) := by
  have hunits : F.units b
      = (2 ^ F.fracBits + F.frac b) * 2 ^ (E - F.fracBits) * F.scale := by
    rw [units_of_ne (by omega), scale, Nat.mul_assoc, ← pow_add]
    congr 2
    omega
  rw [intPart, hunits, Nat.mul_div_cancel _ F.scale_pos]

/-- A number with the exponent `E` lies from `2 ^ E` to `2 ^ (E + 1)`. -/
lemma intPart_bounds {E : ℕ} (hbias : 0 < F.bias) (he : F.expField b = F.bias + E) :
    2 ^ E ≤ F.intPart b ∧ F.intPart b < 2 ^ (E + 1) := by
  have hfrac := F.frac_lt b
  rcases Nat.lt_or_ge E F.fracBits with hE | hE
  · rw [intPart_of_exp_lt hbias he hE]
    constructor
    · rw [Nat.le_div_iff_mul_le (Nat.two_pow_pos _), ← pow_add, Nat.add_sub_cancel' hE.le]
      exact Nat.le_add_right _ _
    · rw [Nat.div_lt_iff_lt_mul (Nat.two_pow_pos _), ← pow_add,
        show E + 1 + (F.fracBits - E) = F.fracBits + 1 by omega, pow_succ]
      omega
  · rw [intPart_of_le_exp hbias he hE]
    have hsplit : 2 ^ E = 2 ^ F.fracBits * 2 ^ (E - F.fracBits) := by
      rw [← pow_add, Nat.add_sub_cancel' hE]
    have hpos := Nat.two_pow_pos (E - F.fracBits)
    rw [pow_succ, hsplit]
    constructor
    · exact Nat.mul_le_mul_right _ (Nat.le_add_right _ _)
    · calc (2 ^ F.fracBits + F.frac b) * 2 ^ (E - F.fracBits)
          < (2 ^ F.fracBits + 2 ^ F.fracBits) * 2 ^ (E - F.fracBits) :=
            Nat.mul_lt_mul_of_pos_right (by omega) hpos
        _ = 2 ^ F.fracBits * 2 ^ (E - F.fracBits) * 2 := by ring

/-- Without bits behind the point the number is an integer. -/
lemma scale_dvd_units (hbias : 0 < F.bias) (he : F.bias + F.fracBits ≤ F.expField b) :
    F.scale ∣ F.units b := by
  rw [units_of_ne (by omega), scale]
  exact (Nat.pow_dvd_pow 2 (by omega)).trans (Nat.dvd_mul_left _ _)

/-- A fraction without bits behind the point. -/
lemma units_assemble_point {s E j : ℕ} (hbias : 0 < F.bias) (hE : E ≤ F.fracBits)
    (he : F.bias + E + 1 < 2 ^ F.expBits) (hj : j ≤ 2 ^ E) :
    F.units (F.assemble s (F.bias + E) (j * 2 ^ (F.fracBits - E))) = (2 ^ E + j) * F.scale := by
  have hfrac : 2 ^ F.fracBits = 2 ^ E * 2 ^ (F.fracBits - E) := by
    rw [← pow_add, Nat.add_sub_cancel' hE]
  have hscale : F.scale = 2 ^ (F.fracBits - E) * 2 ^ (F.bias + E - 1) := by
    rw [scale, ← pow_add]
    congr 1
    omega
  have hle : j * 2 ^ (F.fracBits - E) ≤ 2 ^ F.fracBits := by
    rw [hfrac]
    exact Nat.mul_le_mul_right _ hj
  rw [units_assemble_carry he (by omega) hle, hfrac, hscale, ← Nat.add_mul, Nat.mul_assoc]

/-- The neighbouring integers of a number that is not one. -/
lemma floor_value {q r : ℕ} (h : F.units b = q * F.scale + r) (hr : 0 < r) (hlt : r < F.scale) :
    (⌊F.value b⌋ = if F.Negative b then -(q + 1 : ℤ) else q) ∧
      ⌈F.value b⌉ = if F.Negative b then -(q : ℤ) else q + 1 := by
  have hscale : (0 : ℚ) < F.scale := by exact_mod_cast F.scale_pos
  have hval : (F.units b : ℚ) / F.scale = q + r / F.scale := by
    rw [h, Nat.cast_add, Nat.cast_mul, add_div, mul_div_cancel_right₀ _ hscale.ne']
  have hpos : (0 : ℚ) < r / F.scale := div_pos (by exact_mod_cast hr) hscale
  have hone : (r : ℚ) / F.scale < 1 := (div_lt_one hscale).mpr (by exact_mod_cast hlt)
  by_cases hneg : F.Negative b
  · rw [if_pos hneg, if_pos hneg, value_of_negative hneg, hval, Int.floor_eq_iff, Int.ceil_eq_iff]
    push_cast
    exact ⟨⟨by linarith, by linarith⟩, by linarith, by linarith⟩
  · rw [if_neg hneg, if_neg hneg, value_of_not_negative hneg, hval, Int.floor_eq_iff,
      Int.ceil_eq_iff]
    push_cast
    exact ⟨⟨by linarith, by linarith⟩, by linarith, by linarith⟩

end Format

/-! ## Rounding to an integer -/

/-- The quotient rounded to the nearest integer, ties to the even one. -/
def halfEven (n d : ℕ) : ℕ :=
  if 2 * (n % d) < d ∨ 2 * (n % d) = d ∧ Even (n / d) then n / d else n / d + 1

/-- The quotient from the two bits behind it and whether anything is left behind these. -/
lemma halfEven_of_bits {n d q t r : ℕ} (h : 4 * n = (4 * q + t) * d + r) (ht : t < 4) (hr : r < d) :
    halfEven n d = q + if t = 3 ∨ t = 2 ∧ (r ≠ 0 ∨ ¬ Even q) then 1 else 0 := by
  obtain ⟨m, hm⟩ : ∃ m, n = q * d + m := by
    refine ⟨n - q * d, ?_⟩
    have : 4 * (q * d) ≤ 4 * n := by
      rw [h, Nat.add_mul, Nat.mul_assoc]
      omega
    omega
  have hrest : 4 * m = t * d + r := by
    subst hm
    have hring : 4 * (q * d + m) = 4 * (q * d) + 4 * m := Nat.mul_add _ _ _
    have hring' : (4 * q + t) * d = 4 * (q * d) + t * d := by ring
    omega
  have hlt : m < d := by
    interval_cases t <;> omega
  have hmod : n % d = m := by
    rw [hm, Nat.add_comm, Nat.add_mul_mod_self_right, Nat.mod_eq_of_lt hlt]
  have hdiv : n / d = q := by
    rw [hm, Nat.add_comm, Nat.add_mul_div_right _ _ (by omega), Nat.div_eq_of_lt hlt, Nat.zero_add]
  rw [halfEven, hmod, hdiv]
  interval_cases t
  · rw [if_pos (by omega), if_neg (by omega), Nat.add_zero]
  · rw [if_pos (by omega), if_neg (by omega), Nat.add_zero]
  · by_cases hr0 : r = 0
    · by_cases hq : Even q
      · rw [if_pos (.inr ⟨by omega, hq⟩), if_neg (by simp [hr0, hq]), Nat.add_zero]
      · rw [if_neg (by simp [hq]; omega), if_pos (.inr ⟨rfl, .inr hq⟩)]
    · rw [if_neg (by omega), if_pos (.inr ⟨rfl, .inl hr0⟩)]
  · rw [if_neg (by omega), if_pos (.inl rfl)]

/-- Scaling both sides changes nothing. -/
lemma halfEven_mul (n d : ℕ) {c : ℕ} (hc : 0 < c) : halfEven (n * c) (d * c) = halfEven n d := by
  have hlt : 2 * (n % d * c) < d * c ↔ 2 * (n % d) < d := by
    rw [← Nat.mul_assoc]
    exact Nat.mul_lt_mul_right hc
  have heq : 2 * (n % d * c) = d * c ↔ 2 * (n % d) = d := by
    rw [← Nat.mul_assoc]
    exact Nat.mul_left_inj hc.ne'
  simp only [halfEven, Nat.mul_mod_mul_right, Nat.mul_div_mul_right _ _ hc, hlt, heq]

/-- No multiple of `d` is nearer, and of two nearest ones it is the even one. -/
lemma halfEven_nearest {n d : ℕ} (hd : 0 < d) (j : ℤ) :
    |(halfEven n d * d : ℤ) - n| ≤ |j * d - n| ∧
      (|j * d - n| = |(halfEven n d * d : ℤ) - n| → j = halfEven n d ∨ Even (halfEven n d)) := by
  have hsplit : (n : ℤ) = (n / d : ℕ) * d + (n % d : ℕ) := by
    have h := Nat.div_add_mod n d
    rw [Nat.mul_comm] at h
    exact_mod_cast h.symm
  have hlt : n % d < d := Nat.mod_lt n hd
  have hd' : (0 : ℤ) < d := by exact_mod_cast hd
  -- the multiples below and above the two candidates
  have hbelow : ∀ i : ℤ, i < j → i * d + d ≤ j * d := fun i hi => by
    have := mul_le_mul_of_nonneg_right (Int.add_one_le_iff.mpr hi) hd'.le
    rwa [add_mul, one_mul] at this
  have habove : ∀ i : ℤ, j < i → j * d + d ≤ i * d := fun i hi => by
    have := mul_le_mul_of_nonneg_right (Int.add_one_le_iff.mpr hi) hd'.le
    rwa [add_mul, one_mul] at this
  have hsucc : ((n / d + 1 : ℕ) : ℤ) * d = (n / d : ℕ) * d + d := by
    rw [Nat.cast_succ, add_mul, one_mul]
  rw [halfEven]
  rcases lt_trichotomy j (n / d : ℕ) with hj | rfl | hj
  · have := habove _ hj
    split
    · rw [abs_of_nonpos (by omega), abs_of_nonpos (by omega)]
      exact ⟨by omega, fun h => absurd h (by omega)⟩
    · rw [hsucc, abs_of_nonneg (by omega), abs_of_nonpos (by omega)]
      exact ⟨by omega, fun h => absurd h (by omega)⟩
  · split
    · exact ⟨le_rfl, fun _ => .inl rfl⟩
    · rename_i hup
      rw [hsucc, abs_of_nonneg (by omega), abs_of_nonpos (by omega)]
      refine ⟨by omega, fun h => .inr ?_⟩
      -- a tie that was not rounded down
      have hodd : ¬ Even (n / d) := fun heven => hup (.inr ⟨by omega, heven⟩)
      exact Nat.even_add_one.mpr hodd
  · have := hbelow _ hj
    split
    · rename_i hdown
      rw [abs_of_nonpos (by omega), abs_of_nonneg (by omega)]
      refine ⟨by omega, fun h => .inr ?_⟩
      rcases hdown with hdown | ⟨-, heven⟩
      · omega
      · exact heven
    · rw [hsucc, abs_of_nonneg (by omega), abs_of_nonneg (by omega)]
      refine ⟨by omega, fun h => .inl ?_⟩
      rcases eq_or_lt_of_le (Int.add_one_le_iff.mpr hj) with heq | hgt
      · rw [← heq, Nat.cast_succ]
      · have := hbelow _ hgt
        rw [add_mul, one_mul] at this
        omega

/-- The same among the integers below `lo` besides the multiples. -/
lemma halfEven_grid {n d lo : ℕ} (hd : 0 < d) (hlo : lo ≤ n) (hdvd : d ∣ lo) {z : ℤ}
    (hz : (d : ℤ) ∣ z ∨ z < lo) :
    |(halfEven n d * d : ℤ) - n| ≤ |z - n| ∧
      (|z - n| = |(halfEven n d * d : ℤ) - n| → z = halfEven n d * d ∨ Even (halfEven n d)) := by
  rcases hz with ⟨j, rfl⟩ | hz
  · obtain ⟨hle, htie⟩ := halfEven_nearest (n := n) hd j
    rw [mul_comm (d : ℤ) j]
    exact ⟨hle, fun h => (htie h).imp (fun hj => by rw [hj]) id⟩
  · obtain ⟨i, rfl⟩ := hdvd
    have hle := (halfEven_nearest (n := n) hd i).1
    have hlt : |(i : ℤ) * d - n| < |z - n| := by
      rw [Nat.mul_comm] at hlo hz
      have hlo' : (i : ℤ) * d ≤ n := by exact_mod_cast hlo
      rw [Nat.cast_mul] at hz
      rw [abs_of_nonpos (by omega), abs_of_nonpos (by linarith)]
      linarith
    exact ⟨(hle.trans hlt.le), fun h => absurd h (hle.trans_lt hlt).ne'⟩

/-! ## Rounding to a format -/

namespace Format

variable {F : Format} {b c : ℕ}

/-- No finite pattern is nearer to the number, and of two nearest ones this is that with an even
fraction. -/
structure IsNearest (F : Format) (x : ℚ) (b : ℕ) : Prop where
  finite : F.Finite b
  le : ∀ c, F.Finite c → |F.value b - x| ≤ |F.value c - x|
  even : ∀ c, F.Finite c → |F.value c - x| = |F.value b - x| →
    F.value c = F.value b ∨ Even (F.frac b)

/-- A number of the format is rounded to itself. -/
lemma isNearest_of_eq {x : ℚ} (hfin : F.Finite b) (h : F.value b = x) : F.IsNearest x b where
  finite := hfin
  le c _ := by
    rw [h, sub_self, abs_zero]
    exact abs_nonneg _
  even c _ heq := by
    rw [h, sub_self, abs_zero, abs_eq_zero, sub_eq_zero] at heq
    exact .inl (by rw [heq, h])

lemma sign_mul_sign (b : ℕ) : F.sign b * F.sign b = 1 := by
  rw [sign]
  split <;> rfl

lemma abs_sign (b : ℕ) : |F.sign b| = 1 := by
  rw [sign]
  split <;> rfl

/-- A distance between numbers, in units. -/
lemma abs_value_sub (b c N : ℕ) :
    |F.value c - F.sign b * (N / F.scale)|
      = (|F.sign b * F.sign c * F.units c - (N : ℤ)| : ℤ) / (F.scale : ℚ) := by
  have hscale : (0 : ℚ) < F.scale := by exact_mod_cast F.scale_pos
  have hfactor : F.value c - F.sign b * (N / F.scale)
      = (F.sign b * (F.sign b * F.sign c * F.units c - (N : ℤ)) : ℤ) / (F.scale : ℚ) := by
    have hsplit : F.sign b * (F.sign b * F.sign c * F.units c - (N : ℤ))
        = F.sign c * F.units c - F.sign b * N := by
      calc F.sign b * (F.sign b * F.sign c * F.units c - (N : ℤ))
          = F.sign b * F.sign b * (F.sign c * F.units c) - F.sign b * N := by ring
        _ = _ := by rw [sign_mul_sign, one_mul]
    rw [hsplit, value]
    push_cast
    ring
  rw [hfactor, abs_div, abs_of_pos hscale, ← Int.cast_abs, abs_mul, abs_sign, one_mul]

/-- A magnitude of `N` units is rounded to a multiple of its last place, `2 ^ k` units. -/
lemma isNearest_of_units {N k : ℕ} (hfin : F.Finite b) (hlo : 2 ^ (k + F.fracBits) ≤ N)
    (hb : F.units b = halfEven N (2 ^ k) * 2 ^ k)
    (heven : Even (halfEven N (2 ^ k)) → Even (F.frac b)) :
    F.IsNearest (F.sign b * (N / F.scale)) b := by
  have hscale : (0 : ℚ) < F.scale := by exact_mod_cast F.scale_pos
  have hgrid : ∀ c, ((2 ^ k : ℕ) : ℤ) ∣ F.sign b * F.sign c * F.units c ∨
      F.sign b * F.sign c * F.units c < (2 ^ (k + F.fracBits) : ℕ) := by
    intro c
    rcases Nat.lt_or_ge (F.units c) (2 ^ (k + F.fracBits)) with hlt | hge
    · refine .inr (lt_of_le_of_lt (le_abs_self _) ?_)
      rw [abs_mul, abs_mul, abs_sign, abs_sign, one_mul, one_mul, Nat.abs_cast]
      exact_mod_cast hlt
    · exact .inl (Dvd.dvd.mul_left (Int.natCast_dvd_natCast.mpr (dvd_units hge)) _)
  have hdvd : 2 ^ k ∣ 2 ^ (k + F.fracBits) := Nat.pow_dvd_pow 2 (Nat.le_add_right _ _)
  have hself : F.sign b * F.sign b * F.units b = (halfEven N (2 ^ k) * (2 ^ k : ℕ) : ℤ) := by
    rw [sign_mul_sign, one_mul, hb, Nat.cast_mul]
  refine ⟨hfin, fun c _ => ?_, fun c _ heq => ?_⟩
  · have hle := (halfEven_grid (Nat.two_pow_pos k) hlo hdvd (hgrid c)).1
    rw [abs_value_sub, abs_value_sub, hself]
    exact div_le_div_of_nonneg_right (Int.cast_le.mpr hle) hscale.le
  · rw [abs_value_sub, abs_value_sub, hself, div_left_inj' hscale.ne', Int.cast_inj] at heq
    rcases (halfEven_grid (Nat.two_pow_pos k) hlo hdvd (hgrid c)).2 heq with h | h
    · left
      rw [← hself, mul_assoc, mul_assoc] at h
      have hcancel : F.sign c * F.units c = F.sign b * F.units b := by
        have := congrArg (F.sign b * ·) h
        simpa only [← mul_assoc, sign_mul_sign, one_mul] using this
      rw [value, value, ← mul_div_assoc, ← mul_div_assoc]
      exact congrArg (fun z : ℚ => z / F.scale) (by exact_mod_cast hcancel)
    · exact .inr (heven h)

end Format

end BinaryFloat
