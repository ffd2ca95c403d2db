import UosioCdt.Core.Varint
import Mathlib.Order.Bounds.Basic

/-!
# Theorems: variable-length integers

The encodings are the shortest ones, none begins with another, and the signed ones are those of the
zig-zag numbers. The reader of `unsigned_int` does not bound the groups that it reads; it is exact
on the bytes whose groups are at most five and hold a 32-bit number.
-/

namespace UosioCdt.Core.Varint

open Leb128

/-! ## The encodings -/

/-- The zig-zag number: the even numbers are those from 0 on, the odd ones those below. -/
def zigzagOf (n : ℤ) : ℤ := if 0 ≤ n then 2 * n else -2 * n - 1

lemma toNat_zigzag (v : BitVec 32) : ((zigzag v).toNat : ℤ) = zigzagOf v.toInt := by
  have hlt := v.isLt
  have hshift : (v <<< 1).toNat = 2 * v.toNat % 2 ^ 32 := by
    rw [BitVec.toNat_shiftLeft, Nat.shiftLeft_eq, Nat.pow_one, Nat.mul_comm]
  have hsign : v[31] = decide (2 ^ 31 ≤ v.toNat) := by
    exact (BitVec.msb_eq_getLsbD_last v).symm.trans (BitVec.msb_eq_decide v)
  have hint := BitVec.toInt_eq_toNat_cond v
  show ((v <<< 1 ^^^ v.sshiftRight 31).toNat : ℤ) = _
  rw [sshiftRight_31, hsign, zigzagOf]
  by_cases hneg : 2 ^ 31 ≤ v.toNat
  · -- all bits of the doubled number are flipped
    rw [if_neg (by omega)] at hint
    rw [decide_eq_true hneg, if_pos rfl, BitVec.xor_allOnes, BitVec.toNat_not, hshift,
      if_neg (by omega)]
    omega
  · rw [if_pos (by omega)] at hint
    rw [decide_eq_false hneg, if_neg Bool.false_ne_true, BitVec.ofNat_eq_ofNat, BitVec.xor_zero,
      hshift, if_pos (by omega)]
    omega

/-- The encoding has as few groups as hold the number. -/
lemma isLeast_length (x : UInt32) :
    IsLeast {k | 0 < k ∧ x.toNat < 128 ^ k} (writeUnsigned x).length := by
  rw [writeUnsigned, writeGroups_eq, UInt32.toNat_toUInt64]
  have hpos : 0 < (encodeU x.toNat).length := by
    by_contra hzero
    have hnil : (encodeU x.toNat) = [] := List.eq_nil_of_length_eq_zero (by omega)
    have hread := decode_encodeU x.toNat []
    rw [hnil] at hread
    cases hread
  refine ⟨⟨hpos, (length_encodeU_le_iff hpos).mp le_rfl⟩, ?_⟩
  intro k hk
  exact (length_encodeU_le_iff hk.1).mpr hk.2

/-- The encodings are the shortest ones, no encoding begins another, and they are read back in front
of any bytes. -/
theorem encodings_canonical :
    (∀ x : UInt32, IsLeast {k | 0 < k ∧ x.toNat < 128 ^ k} (writeUnsigned x).length ∧
      1 ≤ (writeUnsigned x).length ∧ (writeUnsigned x).length ≤ 5) ∧
    (∀ x y : UInt32, writeUnsigned x <+: writeUnsigned y → x = y) ∧
    (∀ (x : UInt32) (rest : List UInt8),
      readUnsigned (writeUnsigned x ++ rest) = some (x, rest)) ∧
    ∀ y : BitVec 32, writeSigned y = writeUnsigned (zigzag y) ∧
      ((zigzag y).toNat : ℤ) = zigzagOf y.toInt ∧
      ∀ rest : List UInt8, readSigned (writeSigned y ++ rest) = some (y, rest) := by
  refine ⟨?_, ?_, readUnsigned_writeUnsigned, ?_⟩
  · intro x
    have hleast := isLeast_length x
    exact ⟨hleast, hleast.1.1, hleast.2 ⟨by decide, x.toNat_lt.trans (by decide)⟩⟩
  · intro x y hprefix
    rw [writeUnsigned, writeUnsigned, writeGroups_eq, writeGroups_eq] at hprefix
    apply UInt32.toNat_inj.mp
    rw [← UInt32.toNat_toUInt64, ← UInt32.toNat_toUInt64]
    exact encodeU_prefix hprefix
  · intro y
    exact ⟨rfl, toNat_zigzag y, readSigned_writeSigned y⟩

/-! ## The reader on any bytes -/

/-- The shifts of the rounds of `readUnsignedFrom`. -/
def shiftsFrom (n : UInt8) : List UInt8 → List UInt8
  | [] => []
  | b :: rest => n :: if b &&& 0x80 ≠ 0 then shiftsFrom (n + 7) rest else []

/-- The reader shifts by less than 32, its counter does not wrap, and what it returns is the value
of the groups that it has taken. -/
structure ReadsExactly (bytes : List UInt8) : Prop where
  shifts : ∀ n ∈ shiftsFrom 0 bytes, n.toNat < 32
  counter : ∀ n ∈ shiftsFrom 0 bytes, n.toNat + 7 < 256
  exact : ∀ (x : UInt32) (rest : List UInt8), readUnsigned bytes = some (x, rest) →
    decode bytes = some (x.toNat, rest)

/-- There is a round for every group. -/
lemma shiftsFrom_eq (s : ℕ) (bytes : List UInt8) :
    shiftsFrom (UInt8.ofNat s) bytes
      = (List.range (groups bytes).length).map fun i => UInt8.ofNat (s + 7 * i) := by
  induction bytes generalizing s with
  | nil => rfl
  | cons b rest ih =>
    rw [shiftsFrom, groups]
    by_cases hb : b.toNat < 128
    · rw [if_neg (not_not.mpr ((and_0x80_eq_zero_iff b).mpr hb)), if_pos hb]
      rfl
    · -- the counter of eight bits wraps as the sum does
      have hnext : UInt8.ofNat s + 7 = UInt8.ofNat (s + 7) := by
        rw [UInt8.ofNat_add]
        rfl
      rw [if_pos (mt (and_0x80_eq_zero_iff b).mp hb), if_neg hb, hnext, ih, List.length_cons,
        List.range_succ_eq_map, List.map_cons, List.map_map]
      congr 1
      apply List.map_congr_left
      intro i _
      simp only [Function.comp_apply]
      congr 1
      omega

lemma shifts_lt_iff (bytes : List UInt8) :
    (∀ n ∈ shiftsFrom 0 bytes, n.toNat < 32) ↔ (groups bytes).length ≤ 5 := by
  have hrounds : shiftsFrom 0 bytes
      = (List.range (groups bytes).length).map fun i => UInt8.ofNat (0 + 7 * i) :=
    shiftsFrom_eq 0 bytes
  rw [hrounds]
  constructor
  · intro h
    by_contra hlong
    -- the sixth round shifts by 35
    have hsixth := h (UInt8.ofNat (0 + 7 * 5))
      (List.mem_map.mpr ⟨5, List.mem_range.mpr (by omega), rfl⟩)
    exact absurd hsixth (by decide)
  · intro h n hn
    obtain ⟨i, hi, rfl⟩ := List.mem_map.mp hn
    rw [List.mem_range] at hi
    have hlt : 0 + 7 * i < 32 := by omega
    rw [UInt8.toNat_ofNat', Nat.mod_eq_of_lt (hlt.trans (by decide))]
    exact hlt

/-- The reader is exact when the groups in front are at most five and hold less than `2 ^ 32`. -/
theorem readsExactly_iff (bytes : List UInt8) :
    ReadsExactly bytes ↔ (groups bytes).length ≤ 5 ∧
      ∀ (n : ℕ) (rest : List UInt8), decode bytes = some (n, rest) → n < 2 ^ 32 := by
  constructor
  · intro h
    have hlength := (shifts_lt_iff bytes).mp h.shifts
    refine ⟨hlength, fun n rest hn => ?_⟩
    -- the reader returns the number modulo 2^32, which is exact only below 2^32
    have hread := h.exact (UInt32.ofNat n) rest (by rw [readUnsigned_eq hlength, hn]; rfl)
    rw [hn, Option.some.injEq, Prod.mk.injEq] at hread
    have hlt := (UInt32.ofNat n).toNat_lt
    omega
  · rintro ⟨hlength, hvalue⟩
    have hshifts := (shifts_lt_iff bytes).mpr hlength
    refine ⟨hshifts, fun n hn => ?_, fun x rest hx => ?_⟩
    · have hlt := hshifts n hn
      omega
    · rw [readUnsigned_eq hlength, Option.map_eq_some_iff] at hx
      obtain ⟨⟨n, rest'⟩, hn, hpair⟩ := hx
      obtain ⟨rfl, rfl⟩ := Prod.mk.inj hpair
      have hlt := hvalue n rest' hn
      rw [hn, UInt32.toNat_ofNat', Nat.mod_eq_of_lt hlt]

/-- The groups of `2 ^ 32` are read as 0. -/
theorem exists_read_inexactly : ¬ ∀ bytes, ReadsExactly bytes := by
  intro h
  have hread := (h [0x80, 0x80, 0x80, 0x80, 0x10]).exact 0 [] (by decide)
  exact absurd hread (by decide)

end UosioCdt.Core.Varint
