import UosioCdt.Lib.Leb128
import Mathlib.Data.Nat.Bitwise

/-!
# `unsigned_int` and `signed_int`

The variable-length integers of `varint.hpp` and their round trips. A reader works on the bytes that
remain in its stream.
-/

namespace UosioCdt.Core

open Leb128

/-- A reader takes bytes off the stream, or fails a check. -/
abbrev Reader := StateT (List UInt8) Option

namespace Varint

/-! ## The loops of the source -/

/-- The writing loop; each byte is one `write`. It ends when `val` is zero, after at most `n`
groups. -/
def writeLoop : ℕ → UInt64 → List UInt8
  | 0, _ => []
  | n + 1, val =>
    let b : UInt8 := val.toUInt8 &&& 0x7f
    if val >>> 7 > 0 then (b ||| 0x80) :: writeLoop n (val >>> 7) else [b]

/-- Ten groups hold 64 bits. -/
def writeGroups (val : UInt64) : List UInt8 := writeLoop 10 val

/-- The bits of a byte without its continuation bit, shifted by `by` modulo 32. -/
def shifted (b : UInt8) (n : UInt32) : UInt32 := (b &&& 0x7f).toUInt32 <<< n

/-- The reading loop of `unsigned_int`, with a 64-bit value and an 8-bit shift. -/
def readUnsignedFrom (v : UInt64) (n : UInt8) : List UInt8 → Option (UInt32 × List UInt8)
  | [] => none
  | b :: rest =>
    let v := v ||| (shifted b n.toUInt32).toUInt64
    if b &&& 0x80 ≠ 0 then readUnsignedFrom v (n + 7) rest else some (v.toUInt32, rest)

/-- The reading loop of `signed_int`, with a 32-bit value and shift. -/
def readSignedFrom (v n : UInt32) : List UInt8 → Option (UInt32 × List UInt8)
  | [] => none
  | b :: rest =>
    let v := v ||| shifted b n
    if b &&& 0x80 ≠ 0 then readSignedFrom v (n + 7) rest else some (v, rest)

/-- `operator<<` of `unsigned_int` -/
def writeUnsigned (v : UInt32) : List UInt8 := writeGroups v.toUInt64

/-- `operator>>` of `unsigned_int` -/
def readUnsigned : Reader UInt32 := readUnsignedFrom 0 0

/-- `uint32_t((v<<1) ^ (v>>31))` -/
def zigzag (v : BitVec 32) : UInt32 := .ofBitVec ((v <<< 1) ^^^ v.sshiftRight 31)

/-- `(v>>1) ^ (~(v&1)+1ull)`, in 64 bits and truncated -/
def unzigzag (v : UInt32) : BitVec 32 :=
  ((v >>> 1).toUInt64 ^^^ ((~~~(v &&& 1)).toUInt64 + 1)).toUInt32.toBitVec

/-- `operator<<` of `signed_int` -/
def writeSigned (v : BitVec 32) : List UInt8 := writeGroups (zigzag v).toUInt64

/-- `operator>>` of `signed_int` -/
def readSigned : Reader (BitVec 32) := do
  let v ← readSignedFrom 0 0
  return unzigzag v

/-! ## The written groups -/

/-- The loop writes LEB128 when it has enough groups. -/
lemma writeLoop_eq {n : ℕ} {val : UInt64} (hn : val.toNat < 128 ^ n) (hpos : 0 < n) :
    writeLoop n val = encodeU val.toNat := by
  induction n generalizing val with
  | zero => exact absurd hpos (lt_irrefl 0)
  | succ n ih =>
    have hlow : (val.toUInt8 &&& 0x7f).toNat = val.toNat % 128 := by
      rw [UInt8.toNat_and, UInt64.toNat_toUInt8]
      change val.toNat % 256 &&& (2 ^ 7 - 1) = _
      rw [Nat.and_two_pow_sub_one_eq_mod]
      omega
    have hshift : (val >>> 7).toNat = val.toNat / 128 := by
      rw [UInt64.toNat_shiftRight]
      exact Nat.shiftRight_eq_div_pow _ _
    have hmore : val >>> 7 > 0 ↔ ¬ val.toNat < 128 := by
      rw [gt_iff_lt, UInt64.lt_iff_toNat_lt, hshift, UInt64.toNat_zero]
      omega
    rw [writeLoop]
    by_cases hlast : val.toNat < 128
    · rw [if_neg (by rw [hmore]; exact not_not.mpr hlast), encodeU_of_lt hlast]
      congr 1
      apply UInt8.toNat_inj.mp
      rw [hlow, toNat_group_false hlast]
      omega
    · have hdiv : (val >>> 7).toNat < 128 ^ n := by
        rw [hshift]
        rw [Nat.pow_succ] at hn
        omega
      have hn0 : 0 < n := by
        rw [Nat.pos_iff_ne_zero]
        rintro rfl
        rw [hshift] at hdiv
        omega
      rw [if_pos (hmore.mpr hlast), encodeU_of_ge (by omega), ih hdiv hn0, hshift]
      congr 1
      apply UInt8.toNat_inj.mp
      have hmod : val.toNat % 128 < 128 := Nat.mod_lt _ (by decide)
      have hor := Nat.two_pow_add_eq_or_of_lt (i := 7) hmod 1
      rw [UInt8.toNat_or, hlow, toNat_group_true hmod, Nat.or_comm]
      exact hor.symm.trans (by omega)

lemma writeGroups_eq (val : UInt64) : writeGroups val = encodeU val.toNat :=
  writeLoop_eq (val.toNat_lt.trans (by decide)) (by decide)

/-! ## Reading the groups -/

/-- A number is its lowest group and the rest. -/
lemma shiftLeft_groups (n s : ℕ) : (n % 128) <<< s ||| (n / 128) <<< (s + 7) = n <<< s := by
  have hmod : n % 128 < 2 ^ 7 := Nat.mod_lt _ (by decide)
  have hsplit : n % 128 ||| (n / 128) <<< 7 = n := by
    rw [Nat.or_comm, Nat.shiftLeft_eq, Nat.mul_comm, ← Nat.two_pow_add_eq_or_of_lt hmod]
    omega
  rw [Nat.add_comm s 7, Nat.shiftLeft_add, ← Nat.shiftLeft_or_distrib, hsplit]

/-- A group in its place, as a word. -/
lemma shifted_eq (b : UInt8) {s : ℕ} (hs : s < 32) :
    shifted b (UInt32.ofNat s) = UInt32.ofNat ((b.toNat % 128) <<< s) := by
  have hand : (b &&& 0x7f).toNat = b.toNat % 128 := by
    rw [UInt8.toNat_and]
    exact Nat.and_two_pow_sub_one_eq_mod b.toNat 7
  have hsmod : (UInt32.ofNat s).toNat % 32 = s := by
    rw [UInt32.toNat_ofNat']
    omega
  apply UInt32.toNat_inj.mp
  rw [shifted, UInt32.toNat_shiftLeft, UInt8.toNat_toUInt32, hand, hsmod, UInt32.toNat_ofNat']

/-- The continuation bit. -/
lemma and_0x80_eq_zero_iff (b : UInt8) : b &&& 0x80 = 0 ↔ b.toNat < 128 := by
  have hb := b.toNat_lt
  have hand : (b &&& 0x80).toNat = (b.toNat.testBit 7).toNat * 2 ^ 7 := by
    rw [UInt8.toNat_and]
    exact Nat.and_two_pow b.toNat 7
  rw [← UInt8.toNat_inj, hand, Nat.testBit_eq_decide_div_mod_eq]
  by_cases hbit : b.toNat / 2 ^ 7 % 2 = 1
  · rw [decide_eq_true hbit]
    simp
    omega
  · rw [decide_eq_false hbit]
    simp
    omega

/-- A byte without its continuation bit. -/
lemma toNat_sub_of_ge {b : UInt8} (hb : ¬ b.toNat < 128) : b.toNat - 128 = b.toNat % 128 := by
  have hlt := b.toNat_lt
  omega

/-- What the groups add to the value read so far, when none of them is shifted by 32 or more. -/
lemma readSignedFrom_eq {s : ℕ} {bytes : List UInt8} (hs : s + 7 * (groups bytes).length ≤ 38)
    (v : UInt32) :
    readSignedFrom v (UInt32.ofNat s) bytes
      = (decode bytes).map fun p => (v ||| UInt32.ofNat (p.1 <<< s), p.2) := by
  induction bytes generalizing s v with
  | nil => rfl
  | cons b rest ih =>
    rw [groups] at hs
    rw [readSignedFrom, decode]
    by_cases hb : b.toNat < 128
    · rw [if_pos hb, List.length_singleton] at hs
      rw [shifted_eq b (by omega), if_neg (not_not.mpr ((and_0x80_eq_zero_iff b).mpr hb)),
        if_pos hb, Nat.mod_eq_of_lt hb]
      rfl
    · rw [if_neg hb, List.length_cons] at hs
      have hnext : UInt32.ofNat s + 7 = UInt32.ofNat (s + 7) := by
        rw [UInt32.ofNat_add]
        rfl
      rw [shifted_eq b (by omega), if_pos (mt (and_0x80_eq_zero_iff b).mp hb), if_neg hb, hnext,
        ih (by omega), Option.map_map]
      congr 1
      funext p
      -- the group read here is the lowest of the number
      have hsplit := shiftLeft_groups (b.toNat % 128 + 128 * p.1) s
      rw [Nat.add_mul_mod_self_left, Nat.mod_mod, Nat.add_mul_div_left _ _ (by decide),
        Nat.div_eq_of_lt (Nat.mod_lt _ (by decide)), Nat.zero_add] at hsplit
      simp only [Function.comp_apply]
      rw [toNat_sub_of_ge hb, ← hsplit, UInt32.ofNat_or, UInt32.or_assoc]

/-- The loop of `unsigned_int` keeps more bits than it returns. -/
lemma readUnsignedFrom_eq_readSignedFrom {s : ℕ} {bytes : List UInt8}
    (hs : s + 7 * (groups bytes).length ≤ 38) (v : UInt64) :
    readUnsignedFrom v (UInt8.ofNat s) bytes
      = readSignedFrom v.toUInt32 (UInt32.ofNat s) bytes := by
  induction bytes generalizing s v with
  | nil => rfl
  | cons b rest ih =>
    rw [groups] at hs
    have hs32 : (UInt8.ofNat s).toUInt32 = UInt32.ofNat s := by
      apply UInt32.toNat_inj.mp
      rw [UInt8.toNat_toUInt32, UInt8.toNat_ofNat', UInt32.toNat_ofNat']
      split at hs <;> simp at hs <;> omega
    have hlow : (v ||| (shifted b (UInt8.ofNat s).toUInt32).toUInt64).toUInt32
        = v.toUInt32 ||| shifted b (UInt32.ofNat s) := by
      rw [UInt64.toUInt32_or, UInt32.toUInt32_toUInt64, hs32]
    rw [readUnsignedFrom, readSignedFrom]
    by_cases hb : b.toNat < 128
    · have hlast : ¬ b &&& 0x80 ≠ 0 := not_not.mpr ((and_0x80_eq_zero_iff b).mpr hb)
      rw [if_neg hlast, if_neg hlast, hlow]
    · rw [if_neg hb, List.length_cons] at hs
      have hmore : b &&& 0x80 ≠ 0 := mt (and_0x80_eq_zero_iff b).mp hb
      have hnext : UInt8.ofNat s + 7 = UInt8.ofNat (s + 7) := by
        rw [UInt8.ofNat_add]
        rfl
      have hnext' : UInt32.ofNat s + 7 = UInt32.ofNat (s + 7) := by
        rw [UInt32.ofNat_add]
        rfl
      rw [if_pos hmore, if_pos hmore, hnext, hnext', ih (by omega), hlow]

/-- The reader of `unsigned_int` on at most five groups. -/
lemma readUnsigned_eq {bytes : List UInt8} (h : (groups bytes).length ≤ 5) :
    readUnsigned bytes = (decode bytes).map fun p => (UInt32.ofNat p.1, p.2) := by
  have hbound : 0 + 7 * (groups bytes).length ≤ 38 := by omega
  show readUnsignedFrom 0 (UInt8.ofNat 0) bytes = _
  rw [readUnsignedFrom_eq_readSignedFrom hbound, readSignedFrom_eq hbound]
  simp

/-- The loop of `signed_int` on at most five groups. -/
lemma readSignedFrom_zero {bytes : List UInt8} (h : (groups bytes).length ≤ 5) :
    readSignedFrom 0 0 bytes = (decode bytes).map fun p => (UInt32.ofNat p.1, p.2) := by
  show readSignedFrom 0 (UInt32.ofNat 0) bytes = _
  rw [readSignedFrom_eq (by omega)]
  simp

/-- A word has at most five groups. -/
lemma length_groups_writeGroups (v : UInt32) (rest : List UInt8) :
    (groups (writeGroups v.toUInt64 ++ rest)).length ≤ 5 := by
  rw [writeGroups_eq, groups_encodeU, length_encodeU_le_iff (by decide), UInt32.toNat_toUInt64]
  exact v.toNat_lt.trans (by decide)

/-! ## Round trips -/

/-- The round trip of `unsigned_int`. -/
theorem readUnsigned_writeUnsigned (v : UInt32) (rest : List UInt8) :
    readUnsigned (writeUnsigned v ++ rest) = some (v, rest) := by
  have hread := readUnsigned_eq (length_groups_writeGroups v rest)
  rw [writeGroups_eq, decode_encodeU, UInt32.toNat_toUInt64, Option.map_some,
    UInt32.ofNat_toNat] at hread
  rwa [writeUnsigned, writeGroups_eq, UInt32.toNat_toUInt64]

lemma and_one_cases (v : UInt32) :
    (v &&& 1 = 0 ∧ v.toBitVec[0] = false) ∨ (v &&& 1 = 1 ∧ v.toBitVec[0] = true) := by
  have hand : (v &&& 1).toNat = v.toNat % 2 := by
    rw [UInt32.toNat_and]
    exact Nat.and_one_is_mod _
  have hbit : v.toBitVec[0] = decide (v.toNat % 2 = 1) := by
    simp [BitVec.getElem_eq_testBit_toNat, Nat.testBit_zero]
  rcases Nat.mod_two_eq_zero_or_one v.toNat with h | h
  · exact .inl ⟨UInt32.toNat_inj.mp (hand.trans h), by rw [hbit, h]; rfl⟩
  · exact .inr ⟨UInt32.toNat_inj.mp (hand.trans h), by rw [hbit, h]; rfl⟩

/-- The reader of `signed_int` flips the bits of odd numbers. -/
lemma unzigzag_eq (v : UInt32) : unzigzag v =
    if v.toBitVec[0] then ~~~(v.toBitVec >>> 1) else v.toBitVec >>> 1 := by
  have heven : ((~~~(0 : UInt32)).toUInt64 + 1).toUInt32 = 0 := by decide
  have hodd : ((~~~(1 : UInt32)).toUInt64 + 1).toUInt32 = -1 := by decide
  rcases and_one_cases v with ⟨hand, hbit⟩ | ⟨hand, hbit⟩
  · rw [unzigzag, hand, UInt64.toUInt32_xor, heven, hbit, UInt32.toUInt32_toUInt64,
      UInt32.xor_zero]
    rfl
  · rw [unzigzag, hand, UInt64.toUInt32_xor, hodd, hbit, UInt32.toUInt32_toUInt64,
      UInt32.xor_neg_one]
    rfl

/-- The arithmetic shift by 31 spreads the sign. -/
lemma sshiftRight_31 (v : BitVec 32) :
    v.sshiftRight 31 = if v[31] then BitVec.allOnes 32 else 0 := by
  ext i hi
  have hmsb : v.msb = v[31] := BitVec.msb_eq_getLsbD_last v
  rw [BitVec.getElem_sshiftRight, hmsb]
  by_cases hzero : i = 0
  · subst hzero
    cases hsign : v[31] <;> simp [hsign]
  · rw [dif_neg (by omega)]
    cases hsign : v[31] with
    | false => simp
    | true => rw [if_pos rfl, BitVec.getElem_allOnes]

/-- Shifting left and back keeps the bits below the sign. -/
lemma shiftLeft_shiftRight_getElem (v : BitVec 32) {i : ℕ} (hi : i < 32) :
    ((v <<< 1) >>> 1)[i] = (decide (i < 31) && v[i]) := by
  rw [BitVec.getElem_ushiftRight, BitVec.getLsbD_shiftLeft]
  by_cases hlast : i < 31
  · simp [hlast, hi]
    omega
  · simp [hlast]
    omega

/-- The zig-zag numbers are read back. -/
lemma unzigzag_zigzag (v : BitVec 32) : unzigzag (zigzag v) = v := by
  rw [unzigzag_eq, zigzag, sshiftRight_31]
  cases hsign : v[31] with
  | false =>
    have hlow : (v <<< 1 ^^^ 0#32)[0] = false := by simp
    have hbits : (v <<< 1 ^^^ 0#32) >>> 1 = v := by
      ext i hi
      rw [BitVec.xor_zero, shiftLeft_shiftRight_getElem v hi]
      by_cases hlast : i < 31
      · simp [hlast]
      · obtain rfl : i = 31 := by omega
        simp [hsign]
    change (if (v <<< 1 ^^^ 0#32)[0] then _ else (v <<< 1 ^^^ 0#32) >>> 1) = v
    rw [hlow, hbits, if_neg Bool.false_ne_true]
  | true =>
    have hlow : (v <<< 1 ^^^ BitVec.allOnes 32)[0] = true := by simp
    have hbits : ~~~((v <<< 1 ^^^ BitVec.allOnes 32) >>> 1) = v := by
      ext i hi
      rw [BitVec.xor_allOnes, BitVec.getElem_not, BitVec.getElem_ushiftRight,
        BitVec.getLsbD_not, BitVec.getLsbD_shiftLeft]
      by_cases hlast : i < 31
      · have hrange : 1 + i < 32 := by omega
        simp [hrange, BitVec.getLsbD_eq_getElem hi]
      · obtain rfl : i = 31 := by omega
        simp [hsign]
    change (if (v <<< 1 ^^^ BitVec.allOnes 32)[0] then
      ~~~((v <<< 1 ^^^ BitVec.allOnes 32) >>> 1) else _) = v
    rw [hlow, hbits, if_pos rfl]

/-- The round trip of `signed_int`. -/
theorem readSigned_writeSigned (v : BitVec 32) (rest : List UInt8) :
    readSigned (writeSigned v ++ rest) = some (v, rest) := by
  have hread := readSignedFrom_zero (length_groups_writeGroups (zigzag v) rest)
  rw [writeGroups_eq, decode_encodeU, UInt32.toNat_toUInt64, Option.map_some,
    UInt32.ofNat_toNat] at hread
  rw [writeSigned, writeGroups_eq, UInt32.toNat_toUInt64]
  change (readSignedFrom 0 0 _).bind (fun r => some (unzigzag r.1, r.2)) = _
  rw [hread, Option.bind_some, unzigzag_zigzag]

end Varint

end UosioCdt.Core
