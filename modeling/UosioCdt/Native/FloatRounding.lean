import UosioCdt.Rt.FixInt

/-!
# `_uosio_f32_trunc`, `_uosio_f32_ceil` and the others — rounding to an integral value

The functions that the native runtime offers in place of the instructions of the same names, as far
as they work on the bits alone. A word is a number with the parts of `fp32` or `fp64`.
-/

namespace UosioCdt.Native

open UosioCdt.Rt

/-- `(int)(a.v >> 23 & 0xFF) - 0X7F`, and `(int)(a.v >> 52 & 0x7ff) - 0x3ff` -/
def unbiased (R : FpRep) (a : BitVec R.typeWidth) : ℤ :=
  ((a >>> R.significandBits &&& BitVec.ofNat _ R.maxExponent).toNat : ℤ) - R.exponentBias

/-! ## `trunc` -/

/-- `_uosio_f32_trunc` and `_uosio_f64_trunc`; the offset of `e` is 9 or 12. -/
def trunc (R : FpRep) (a : BitVec R.typeWidth) : BitVec R.typeWidth :=
  let offset : ℤ := R.exponentBits + 1
  let e := unbiased R a + offset
  if e ≥ R.significandBits + offset then a
  else
    let e := if e < offset then 1 else e
    let m := BitVec.allOnes R.typeWidth >>> e.toNat
    if a &&& m = 0 then a else a &&& ~~~m

/-- `_uosio_f32_trunc` -/
def f32Trunc (a : BitVec 32) : BitVec 32 := trunc fp32 a

/-- `_uosio_f64_trunc` -/
def f64Trunc (a : BitVec 64) : BitVec 64 := trunc fp64 a

/-! ## `ceil` and `floor` -/

/-- The branch for the numbers from 1 on: the fraction bits are rounded up when `up` says so. -/
def roundFraction (up : Bool) (a : BitVec 32) (e : ℕ) : BitVec 32 :=
  let m := 0x007FFFFF#32 >>> e
  if a &&& m = 0 then a
  else (if up then a + m else a) &&& ~~~m

/-- `_uosio_f32_ceil` -/
def f32Ceil (a : BitVec 32) : BitVec 32 :=
  let e := unbiased fp32 a
  if e ≥ 23 then a
  else if e ≥ 0 then roundFraction (a >>> 31 = 0#32) a e.toNat
  else if a >>> 31 ≠ 0#32 then 0x80000000#32
  else if a <<< 1 ≠ 0#32 then 0x3F800000#32
  else a

/-- `_uosio_f32_floor` -/
def f32Floor (a : BitVec 32) : BitVec 32 :=
  let e := unbiased fp32 a
  if e ≥ 23 then a
  else if e ≥ 0 then roundFraction (a >>> 31 ≠ 0#32) a e.toNat
  else if a >>> 31 = 0#32 then 0#32
  else if a <<< 1 ≠ 0#32 then 0xBF800000#32
  else a

end UosioCdt.Native
