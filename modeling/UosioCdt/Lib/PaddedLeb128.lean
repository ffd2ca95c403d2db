import UosioCdt.Lib.Leb128

/-!
# LEB128 with padding

The encoders that fill up to a given number of groups, so that the place of a number can be
overwritten. Padded numbers are read like short ones (`decodeU_padU`, `decodeS_padS`), and the short
encoding of a number never needs more groups.
-/

namespace Leb128

/-! ## Unsigned -/

/-- Unsigned LEB128 in at least `k` groups: behind the last group of the number come empty ones. -/
def padU (k n : ℕ) : List UInt8 :=
  if n < 128 then
    group (1 < k) n :: (if 1 < k then List.replicate (k - 2) (group true 0) ++ [group false 0] else [])
  else group true (n % 128) :: padU (k - 1) (n / 128)
termination_by n
decreasing_by omega

/-- Empty groups are read as nothing. -/
lemma decodeU_zeros {N : ℕ} (k : ℕ) (hN : 7 * k < N) (rest : List UInt8) :
    decodeU N (List.replicate k (group true 0) ++ group false 0 :: rest) = some (0, rest) := by
  induction k generalizing N with
  | zero => simp [decodeU, toNat_group_false]
  | succ k ih =>
    rw [List.replicate_succ, List.cons_append, decodeU, toNat_group_true (by decide),
      if_neg (by omega), if_pos (by omega), ih (by omega)]
    rfl

/-- Padding does not change what is read, as long as it fits into the width. -/
theorem decodeU_padU {k n N : ℕ} (hn : n < 2 ^ N) (hk : 7 * (k - 1) < N) (rest : List UInt8) :
    decodeU N (padU k n ++ rest) = some (n, rest) := by
  induction n using Nat.strongRecOn generalizing N k with
  | ind n ih =>
    rw [padU]
    by_cases h : n < 128
    · rw [if_pos h]
      by_cases hpad : 1 < k
      · rw [if_pos hpad, decide_eq_true hpad, List.cons_append, decodeU, toNat_group_true h,
          if_neg (by omega), if_pos (by omega), List.append_assoc, List.singleton_append,
          decodeU_zeros (k - 2) (by omega)]
        simp
      · rw [if_neg hpad, decide_eq_false hpad]
        simp only [List.cons_append, List.nil_append, decodeU, toNat_group_false h, if_pos h,
          if_pos hn]
    · obtain ⟨hN, hdiv⟩ := div_lt_of_lt hn (by omega)
      have hmod : n % 128 < 128 := Nat.mod_lt _ (by decide)
      have hrec := ih (n / 128) (by omega) (k := k - 1) hdiv (by omega)
      rw [if_neg h]
      simp only [List.cons_append, decodeU, toNat_group_true hmod, hrec, Option.map_some,
        if_neg (show ¬ n % 128 + 128 < 128 by omega), if_pos hN, Option.some.injEq,
        Prod.mk.injEq, and_true]
      omega

/-- A number with no more groups is padded to exactly `k`. -/
lemma length_padU {k n : ℕ} (hk : 0 < k) (h : n < 128 ^ k) : (padU k n).length = k := by
  induction k generalizing n with
  | zero => exact absurd hk (lt_irrefl 0)
  | succ k ih =>
    rw [padU]
    by_cases hsmall : n < 128
    · rw [if_pos hsmall]
      split <;> simp <;> omega
    · rw [if_neg hsmall, List.length_cons, Nat.add_sub_cancel]
      have hpos : 0 < k := by
        rcases Nat.eq_zero_or_pos k with rfl | hpos
        · omega
        · exact hpos
      rw [ih hpos ((Nat.div_lt_iff_lt_mul (by decide)).mpr (by rwa [← Nat.pow_succ]))]

/-! ## Signed -/

/-- Signed LEB128 in at least `k` groups: behind the last group of the number come groups of its
sign. -/
def padS (k : ℕ) (v : ℤ) : List UInt8 :=
  let pad := if v < 0 then 127 else 0
  if -64 ≤ v ∧ v < 64 then
    group (1 < k) (v % 128).toNat ::
      (if 1 < k then List.replicate (k - 2) (group true pad) ++ [group false pad] else [])
  else group true (v % 128).toNat :: padS (k - 1) (v / 128)
termination_by v.natAbs
decreasing_by omega

/-- Groups of the sign are read as 0 or -1. -/
lemma decodeS_signs {N : ℕ} (k : ℕ) (hN : 7 * k + 1 < N) (neg : Prop) [Decidable neg]
    (rest : List UInt8) :
    decodeS N (List.replicate k (group true (if neg then 127 else 0)) ++
      group false (if neg then 127 else 0) :: rest) = some (if neg then -1 else 0, rest) := by
  have hpow : ∀ N, 1 < N → 2 ^ 1 ≤ 2 ^ (N - 1) := fun N hN =>
    Nat.pow_le_pow_right (show 0 < 2 by decide) (by omega)
  induction k generalizing N with
  | zero =>
    have := hpow N (by omega)
    by_cases h : neg
    · simp only [if_pos h, List.replicate_zero, List.nil_append, decodeS,
        toNat_group_false (show 127 < 128 by decide), if_neg (show ¬ 127 < 64 by decide),
        if_pos (show 127 < 128 by decide), if_pos (show 128 ≤ 127 + 2 ^ (N - 1) by omega)]
      rfl
    · simp only [if_neg h, List.replicate_zero, List.nil_append, decodeS,
        toNat_group_false (show 0 < 128 by decide), if_pos (show 0 < 64 by decide),
        if_pos (show 0 < 2 ^ (N - 1) by omega)]
      rfl
  | succ k ih =>
    have hlt : (if neg then 127 else 0) < 128 := by split <;> decide
    rw [List.replicate_succ, List.cons_append, decodeS, toNat_group_true hlt, if_neg (by omega),
      if_neg (by omega), if_pos (by omega), ih (by omega)]
    split <;> rfl

/-- Padding does not change what is read, as long as it fits into the width. -/
theorem decodeS_padS {k N : ℕ} {v : ℤ} (hlo : -(2 ^ (N - 1) : ℤ) ≤ v) (hhi : v < 2 ^ (N - 1))
    (hk : 1 < k → 7 * (k - 1) + 1 < N) (rest : List UInt8) :
    decodeS N (padS k v ++ rest) = some (v, rest) := by
  induction hv : v.natAbs using Nat.strongRecOn generalizing v N k with
  | ind j ih =>
    have hmod : (v % 128).toNat < 128 := by omega
    rw [padS]
    by_cases h : -64 ≤ v ∧ v < 64
    · rw [if_pos h]
      by_cases hpad : 1 < k
      · rw [if_pos hpad, decide_eq_true hpad, List.cons_append, decodeS, toNat_group_true hmod,
          if_neg (by omega), if_neg (by omega), if_pos (by omega), List.append_assoc,
          List.singleton_append, decodeS_signs (k - 2) (by omega)]
        simp only [Option.map_some, Option.some.injEq, Prod.mk.injEq, and_true]
        split <;> omega
      · have hread := decodeS_encodeS hlo hhi rest
        rw [encodeS_of_small h] at hread
        rw [if_neg hpad, decide_eq_false hpad]
        exact hread
    · obtain ⟨hN, hlo', hhi'⟩ := ediv_bounds hlo hhi h
      have hrec := ih (v / 128).natAbs (by omega) (k := k - 1) hlo' hhi' (by omega) rfl
      rw [if_neg h]
      simp only [List.cons_append, decodeS, toNat_group_true hmod, hrec, Option.map_some,
        if_neg (show ¬ (v % 128).toNat + 128 < 64 by omega),
        if_neg (show ¬ (v % 128).toNat + 128 < 128 by omega), if_pos hN, Option.some.injEq,
        Prod.mk.injEq, and_true]
      omega

/-- A number with no more groups is padded to exactly `k`. -/
lemma length_padS {k : ℕ} {v : ℤ} (hk : 0 < k) (hlo : -(64 * 128 ^ (k - 1) : ℤ) ≤ v)
    (hhi : v < 64 * 128 ^ (k - 1)) : (padS k v).length = k := by
  induction k generalizing v with
  | zero => exact absurd hk (lt_irrefl 0)
  | succ k ih =>
    rw [padS]
    by_cases hsmall : -64 ≤ v ∧ v < 64
    · rw [if_pos hsmall]
      split <;> simp <;> omega
    · rw [if_neg hsmall, List.length_cons, Nat.add_sub_cancel]
      rw [Nat.add_sub_cancel] at hlo hhi
      rcases Nat.eq_zero_or_pos k with rfl | hpos
      · simp only [pow_zero, mul_one] at hlo hhi
        exact absurd ⟨hlo, hhi⟩ hsmall
      · have hsplit : (128 : ℤ) ^ k = 128 ^ (k - 1) * 128 := by
          rw [← pow_succ, Nat.sub_add_cancel hpos]
        rw [hsplit] at hlo hhi
        rw [ih hpos (by omega) (by omega)]

/-- The short encoding needs no more groups. -/
lemma length_encodeS_le {k : ℕ} {v : ℤ} (hk : 0 < k) (hlo : -(64 * 128 ^ (k - 1) : ℤ) ≤ v)
    (hhi : v < 64 * 128 ^ (k - 1)) : (encodeS v).length ≤ k := by
  induction k generalizing v with
  | zero => exact absurd hk (lt_irrefl 0)
  | succ k ih =>
    by_cases hsmall : -64 ≤ v ∧ v < 64
    · rw [encodeS_of_small hsmall, List.length_singleton]
      omega
    · rw [encodeS_of_large hsmall, List.length_cons]
      rw [Nat.add_sub_cancel] at hlo hhi
      rcases Nat.eq_zero_or_pos k with rfl | hpos
      · simp only [pow_zero, mul_one] at hlo hhi
        exact absurd ⟨hlo, hhi⟩ hsmall
      · have hsplit : (128 : ℤ) ^ k = 128 ^ (k - 1) * 128 := by
          rw [← pow_succ, Nat.sub_add_cancel hpos]
        rw [hsplit] at hlo hhi
        have hrec := ih (v := v / 128) hpos (by omega) (by omega)
        omega

end Leb128
