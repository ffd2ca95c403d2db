import UosioCdt.Lib.BinaryFloat

/-!
# `__fixsfti`, `__fixunsdfti` and the others — floating point to 128-bit integers

The headers `fp32.h`, `fp64.h` and `fp128.h` give the same macros for three representations; the
conversions are one body over them. A shift or product that overflows `__int128` wraps.
-/

namespace UosioCdt.Rt

/-! ## `fp32.h`, `fp64.h`, `fp128.h` -/

/-- What the macros are made of: the size of `rep_t` in bits, and `significandBits`. -/
structure FpRep where
  typeWidth : ℕ
  significandBits : ℕ
  /-- There are at least 8 bits for the exponent. -/
  exponent_le : significandBits + 9 ≤ typeWidth
  /-- The significand with its leading one is an `__int128`. -/
  significand_le : significandBits ≤ 112
  typeWidth_le : typeWidth ≤ 128

namespace FpRep

variable (R : FpRep)

def exponentBits : ℕ := R.typeWidth - R.significandBits - 1

def maxExponent : ℕ := 1 <<< R.exponentBits - 1

def exponentBias : ℕ := R.maxExponent >>> 1

def implicitBit : BitVec R.typeWidth := (1 : BitVec _) <<< R.significandBits

def significandMask : BitVec R.typeWidth := R.implicitBit - 1

def signBit : BitVec R.typeWidth :=
  (1 : BitVec _) <<< (R.significandBits + R.exponentBits)

def absMask : BitVec R.typeWidth := R.signBit - 1

end FpRep

/-- `fp32.h` -/
def fp32 : FpRep := ⟨32, 23, by decide, by decide, by decide⟩

/-- `fp64.h` -/
def fp64 : FpRep := ⟨64, 52, by decide, by decide, by decide⟩

/-- `fp128.h`, whose `rep_t` is an `__int128` -/
def fp128 : FpRep := ⟨128, 112, by decide, by decide, by decide⟩

/-! ## The parts of a representation -/

section parts

variable (R : FpRep) (aRep : BitVec R.typeWidth)

def aAbs : BitVec R.typeWidth := aRep &&& R.absMask

/-- `(aAbs >> significandBits) - exponentBias`, as an `int` -/
def exponent : ℤ := ((aAbs R aRep >>> R.significandBits).toNat : ℤ) - R.exponentBias

def significand : BitVec R.typeWidth := (aAbs R aRep &&& R.significandMask) ||| R.implicitBit

end parts

/-! ## Signed results -/

/-- `(fixint_t)((~(fixuint_t)0) / 2)` -/
def fixintMax : BitVec 128 := ~~~0#128 / 2

/-- `-fixint_max - 1` -/
def fixintMin : BitVec 128 := -fixintMax - 1

/-- The body of `___fixsfti`, `___fixdfti` and `___fixtfti`. -/
def fixint (R : FpRep) (a : BitVec R.typeWidth) : BitVec 128 :=
  let sign : BitVec 128 := if a &&& R.signBit ≠ 0 then -1 else 1
  let exponent := exponent R a
  let significand := significand R a
  if exponent < 0 then 0
  -- too large for the integer type: saturate
  else if exponent ≥ 128 then if sign = 1 then fixintMax else fixintMin
  else if exponent < R.significandBits then
    sign * (significand >>> (R.significandBits - exponent).toNat).setWidth 128
  else sign * (significand.setWidth 128 <<< (exponent - R.significandBits).toNat)

/-- `___fixsfti` -/
def fixsfti (a : BitVec 32) : BitVec 128 := fixint fp32 a

/-- `___fixdfti` -/
def fixdfti (a : BitVec 64) : BitVec 128 := fixint fp64 a

/-- `___fixtfti` -/
def fixtfti (a : BitVec 128) : BitVec 128 := fixint fp128 a

/-! ## Unsigned results -/

/-- The body of `___fixunssfti`, `___fixunsdfti` and `___fixunstfti`. -/
def fixuint (R : FpRep) (a : BitVec R.typeWidth) : BitVec 128 :=
  let sign : ℤ := if a &&& R.signBit ≠ 0 then -1 else 1
  let exponent := exponent R a
  let significand := significand R a
  if sign = -1 ∨ exponent < 0 then 0
  else if exponent ≥ 128 then ~~~0#128
  else if exponent < R.significandBits then
    (significand >>> (R.significandBits - exponent).toNat).setWidth 128
  else significand.setWidth 128 <<< (exponent - R.significandBits).toNat

/-- `___fixunssfti` -/
def fixunssfti (a : BitVec 32) : BitVec 128 := fixuint fp32 a

/-- `___fixunsdfti` -/
def fixunsdfti (a : BitVec 64) : BitVec 128 := fixuint fp64 a

/-- `___fixunstfti` -/
def fixunstfti (a : BitVec 128) : BitVec 128 := fixuint fp128 a

end UosioCdt.Rt
