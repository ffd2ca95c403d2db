import Mathlib.Tactic.Ring
import Mathlib.Tactic.Linarith
import Mathlib.Algebra.Order.Ring.Int

/-!
# LEB128 — variable-length integers in groups of seven bits

The unsigned and signed encoders write as few bytes as possible; `decodeU` and `decodeS` are the
width-bounded decoders of the WebAssembly binary grammar (`uN` and `sN`), so they also reject what
does not fit the width, and `decode` reads numbers of any size. `decodeU_encodeU` and
`decodeS_encodeS` are the round trips in front of any trailing bytes.
-/

namespace Leb128

/-- The byte of a group `n < 128`, with or without the continuation bit. -/
def group (more : Bool) (n : ℕ) : UInt8 := UInt8.ofNat (if more then n + 128 else n)

lemma toNat_group_false {n : ℕ} (h : n < 128) : (group false n).toNat = n := by
  simp only [group, Bool.false_eq_true, if_false, UInt8.toNat_ofNat']
  omega

lemma toNat_group_true {n : ℕ} (h : n < 128) : (group true n).toNat = n + 128 := by
  simp only [group, if_true, UInt8.toNat_ofNat']
  omega

/-! ## Unsigned -/

/-- Unsigned LEB128: seven bits a byte, lowest first. -/
def encodeU (n : ℕ) : List UInt8 :=
  if n < 128 then [group false n] else group true (n % 128) :: encodeU (n / 128)
termination_by n
decreasing_by omega

/-- The grammar `uN`: a number below `2 ^ N` and the bytes after it. -/
def decodeU : ℕ → List UInt8 → Option (ℕ × List UInt8)
  | _, [] => none
  | N, b :: rest =>
    if b.toNat < 128 then
      if b.toNat < 2 ^ N then some (b.toNat, rest) else none
    else if 7 < N then
      (decodeU (N - 7) rest).map fun p => (b.toNat - 128 + 128 * p.1, p.2)
    else none

lemma encodeU_of_lt {n : ℕ} (h : n < 128) : encodeU n = [group false n] := by
  rw [encodeU, if_pos h]

lemma encodeU_of_ge {n : ℕ} (h : 128 ≤ n) :
    encodeU n = group true (n % 128) :: encodeU (n / 128) := by
  rw [encodeU, if_neg (by omega)]

/-- A number of `N` bits with more than one group leaves its high part in `N - 7` bits. -/
lemma div_lt_of_lt {n N : ℕ} (hn : n < 2 ^ N) (hge : 128 ≤ n) :
    7 < N ∧ n / 128 < 2 ^ (N - 7) := by
  have hN : 7 < N := by
    by_contra hle
    have : 2 ^ N ≤ 2 ^ 7 := Nat.pow_le_pow_right (by decide) (by omega)
    omega
  refine ⟨hN, ?_⟩
  rw [Nat.div_lt_iff_lt_mul (by decide)]
  have : 2 ^ (N - 7) * 128 = 2 ^ N := by
    rw [show (128 : ℕ) = 2 ^ 7 from rfl, ← Nat.pow_add]
    congr 1
    omega
  omega

/-- The unsigned round trip, in front of any bytes. -/
theorem decodeU_encodeU {n N : ℕ} (hn : n < 2 ^ N) (rest : List UInt8) :
    decodeU N (encodeU n ++ rest) = some (n, rest) := by
  induction n using Nat.strongRecOn generalizing N with
  | ind n ih =>
    by_cases h : n < 128
    · rw [encodeU_of_lt h]
      simp only [List.cons_append, List.nil_append, decodeU, toNat_group_false h, if_pos h,
        if_pos hn]
    · obtain ⟨hN, hdiv⟩ := div_lt_of_lt hn (by omega)
      have hmod : n % 128 < 128 := Nat.mod_lt _ (by decide)
      have hrec := ih (n / 128) (by omega) hdiv
      rw [encodeU_of_ge (by omega)]
      simp only [List.cons_append, decodeU, toNat_group_true hmod, hrec, Option.map_some,
        if_neg (show ¬ n % 128 + 128 < 128 by omega), if_pos hN, Option.some.injEq,
        Prod.mk.injEq, and_true]
      omega

/-- The groups of any number of bytes: the number, and the bytes after it. -/
def decode : List UInt8 → Option (ℕ × List UInt8)
  | [] => none
  | b :: rest =>
    if b.toNat < 128 then some (b.toNat, rest)
    else (decode rest).map fun p => (b.toNat - 128 + 128 * p.1, p.2)

/-- The bytes up to the first one without a continuation bit. -/
def groups : List UInt8 → List UInt8
  | [] => []
  | b :: rest => if b.toNat < 128 then [b] else b :: groups rest

theorem decode_encodeU (n : ℕ) (rest : List UInt8) : decode (encodeU n ++ rest) = some (n, rest) := by
  induction n using Nat.strongRecOn with
  | ind n ih =>
    by_cases h : n < 128
    · rw [encodeU_of_lt h]
      simp only [List.cons_append, List.nil_append, decode, toNat_group_false h, if_pos h]
    · have hmod : n % 128 < 128 := Nat.mod_lt _ (by decide)
      rw [encodeU_of_ge (by omega)]
      simp only [List.cons_append, decode, toNat_group_true hmod, ih (n / 128) (by omega),
        if_neg (show ¬ n % 128 + 128 < 128 by omega), Option.map_some, Option.some.injEq,
        Prod.mk.injEq, and_true]
      omega

/-- The groups in front are those that are read. -/
lemma groups_encodeU (n : ℕ) (rest : List UInt8) : groups (encodeU n ++ rest) = encodeU n := by
  induction n using Nat.strongRecOn with
  | ind n ih =>
    by_cases h : n < 128
    · rw [encodeU_of_lt h]
      simp only [List.cons_append, List.nil_append, groups, toNat_group_false h, if_pos h]
    · have hmod : n % 128 < 128 := Nat.mod_lt _ (by decide)
      rw [encodeU_of_ge (by omega)]
      simp only [List.cons_append, groups, toNat_group_true hmod, ih (n / 128) (by omega),
        if_neg (show ¬ n % 128 + 128 < 128 by omega)]

/-- The bytes of an encoding are as many as its number has groups. -/
lemma length_encodeU_le_iff {n k : ℕ} (hk : 0 < k) : (encodeU n).length ≤ k ↔ n < 128 ^ k := by
  induction k generalizing n with
  | zero => exact absurd hk (lt_irrefl 0)
  | succ k ih =>
    by_cases h : n < 128
    · rw [encodeU_of_lt h]
      have hpow : 128 ^ 1 ≤ 128 ^ (k + 1) := Nat.pow_le_pow_right (by decide) (by omega)
      simp only [List.length_singleton]
      omega
    · rw [encodeU_of_ge (by omega), List.length_cons, Nat.pow_succ]
      by_cases hk0 : k = 0
      · subst hk0
        have hne : encodeU (n / 128) ≠ [] := by
          rw [encodeU]
          split <;> simp
        have hpos := List.length_pos_iff.mpr hne
        omega
      · have hrec := ih (n := n / 128) (by omega)
        rw [Nat.div_lt_iff_lt_mul (by decide)] at hrec
        omega

/-- No encoding is a part of the front of another. -/
theorem encodeU_prefix {m n : ℕ} (h : encodeU m <+: encodeU n) : m = n := by
  obtain ⟨rest, hrest⟩ := h
  have hread := decode_encodeU m rest
  rw [hrest, ← List.append_nil (encodeU n), decode_encodeU] at hread
  exact (congrArg Prod.fst (Option.some.inj hread)).symm

/-! ## Signed -/

/-- Signed LEB128: arithmetic shifts by seven, until the rest is the sign of the last group. -/
def encodeS (v : ℤ) : List UInt8 :=
  if -64 ≤ v ∧ v < 64 then [group false (v % 128).toNat]
  else group true (v % 128).toNat :: encodeS (v / 128)
termination_by v.natAbs
decreasing_by omega

/-- The grammar `sN`: a number of `N` bits in two's complement and the bytes after it. -/
def decodeS : ℕ → List UInt8 → Option (ℤ × List UInt8)
  | _, [] => none
  | N, b :: rest =>
    if b.toNat < 64 then
      if b.toNat < 2 ^ (N - 1) then some (b.toNat, rest) else none
    else if b.toNat < 128 then
      if 128 ≤ b.toNat + 2 ^ (N - 1) then some ((b.toNat : ℤ) - 128, rest) else none
    else if 7 < N then
      (decodeS (N - 7) rest).map fun p => ((b.toNat : ℤ) - 128 + 128 * p.1, p.2)
    else none

lemma encodeS_of_small {v : ℤ} (h : -64 ≤ v ∧ v < 64) :
    encodeS v = [group false (v % 128).toNat] := by
  rw [encodeS, if_pos h]

lemma encodeS_of_large {v : ℤ} (h : ¬(-64 ≤ v ∧ v < 64)) :
    encodeS v = group true (v % 128).toNat :: encodeS (v / 128) := by
  rw [encodeS, if_neg h]

/-- A signed number of `N` bits with more than one group leaves its high part in `N - 7` bits. -/
lemma ediv_bounds {v : ℤ} {N : ℕ} (hlo : -(2 ^ (N - 1) : ℤ) ≤ v) (hhi : v < 2 ^ (N - 1))
    (hbig : ¬(-64 ≤ v ∧ v < 64)) :
    7 < N ∧ -(2 ^ (N - 7 - 1) : ℤ) ≤ v / 128 ∧ v / 128 < 2 ^ (N - 7 - 1) := by
  have hN : 7 < N := by
    by_contra hle
    have hpow : (2 : ℤ) ^ (N - 1) ≤ 2 ^ 6 :=
      pow_le_pow_right₀ (by decide) (by omega)
    omega
  have hsplit : (2 : ℤ) ^ (N - 1) = 2 ^ (N - 7 - 1) * 128 := by
    rw [show (128 : ℤ) = 2 ^ 7 from rfl, ← pow_add]
    congr 1
    omega
  rw [hsplit] at hlo hhi
  exact ⟨hN, by omega, by omega⟩

/-- The signed round trip, in front of any bytes. -/
theorem decodeS_encodeS {v : ℤ} {N : ℕ} (hlo : -(2 ^ (N - 1) : ℤ) ≤ v) (hhi : v < 2 ^ (N - 1))
    (rest : List UInt8) : decodeS N (encodeS v ++ rest) = some (v, rest) := by
  induction hk : v.natAbs using Nat.strongRecOn generalizing v N with
  | ind k ih =>
    have hmod : (v % 128).toNat < 128 := by omega
    by_cases h : -64 ≤ v ∧ v < 64
    · have hpow : ((2 ^ (N - 1) : ℕ) : ℤ) = 2 ^ (N - 1) := by push_cast; rfl
      rw [encodeS_of_small h]
      simp only [List.cons_append, List.nil_append, decodeS, toNat_group_false hmod]
      by_cases hneg : v < 0
      · -- a negative group carries the sign in bit 6
        rw [if_neg (by omega), if_pos hmod, if_pos (by omega)]
        simp only [Option.some.injEq, Prod.mk.injEq, and_true]
        omega
      · rw [if_pos (by omega), if_pos (by omega)]
        simp only [Option.some.injEq, Prod.mk.injEq, and_true]
        omega
    · obtain ⟨hN, hlo', hhi'⟩ := ediv_bounds hlo hhi h
      have hrec := ih (v / 128).natAbs (by omega) hlo' hhi' rfl
      rw [encodeS_of_large h]
      simp only [List.cons_append, decodeS, toNat_group_true hmod, hrec, Option.map_some,
        if_neg (show ¬ (v % 128).toNat + 128 < 64 by omega),
        if_neg (show ¬ (v % 128).toNat + 128 < 128 by omega), if_pos hN, Option.some.injEq,
        Prod.mk.injEq, and_true]
      omega

end Leb128
