import UosioCdt.Rt.FixInt

/-!
# `__floattidf` and `__floatuntidf` — 128-bit integers to doubles

Both functions round the magnitude with the same steps; `>>` is the arithmetic shift in one and the
logical shift in the other. The negation of the least `__int128` wraps to itself.
-/

namespace UosioCdt.Rt

/-- `DBL_MANT_DIG` -/
def dblMantDig : ℕ := 53

/-- `__builtin_clzll`, for an argument other than 0 -/
def builtinClzll (x : BitVec 64) : ℕ := x.clz.toNat

/-- `__clzti2` -/
def clzti2 (a : BitVec 128) : ℕ :=
  let low : BitVec 64 := a.setWidth 64
  let high : BitVec 64 := (a >>> 64).setWidth 64
  let f : BitVec 64 := if high = 0 then -1 else 0
  builtinClzll ((high &&& ~~~f) ||| (low &&& f)) + (f.setWidth 32 &&& 64#32).toNat

/-- A condition as an integer. -/
def ofBool (c : Bool) : BitVec 128 := if c then 1 else 0

/-- The bits `1xx…xPQR`: the leading `DBL_MANT_DIG` bits end with `P`, `Q` is the next one, and `R`
the "or" of all bits behind it. -/
def guardBits (a : BitVec 128) (sd : ℕ) : BitVec 128 :=
  if sd = dblMantDig + 1 then a <<< 1
  else if sd = dblMantDig + 2 then a
  else (a >>> (sd - (dblMantDig + 2))) |||
    ofBool (a &&& (BitVec.allOnes 128 >>> (128 + dblMantDig + 2 - sd)) ≠ 0)

/-- The magnitude and the exponent, rounded to `DBL_MANT_DIG` bits. -/
def roundMantissa (shr : BitVec 128 → ℕ → BitVec 128) (a : BitVec 128) : BitVec 128 × ℕ :=
  let sd := 128 - clzti2 a
  let e := sd - 1
  if sd > dblMantDig then
    let a := guardBits a sd
    let a := a ||| ofBool (a &&& 4 ≠ 0)
    -- this step may add a significant bit
    let a := a + 1
    let a := shr a 2
    if a &&& ((1 : BitVec 128) <<< dblMantDig) ≠ 0 then (shr a 1, e + 1) else (a, e)
  else (a <<< (dblMantDig - sd), e)

/-- `double_bits` -/
def doubleBits (high low : BitVec 32) : BitVec 64 := high ++ low

/-- `___floattidf` -/
def floattidf (a : BitVec 128) : BitVec 64 :=
  if a = 0 then 0
  else
    let s := a.sshiftRight 127
    let a := (a ^^^ s) - s
    let (a, e) := roundMantissa .sshiftRight a
    doubleBits
      ((s.setWidth 32 &&& 0x80000000#32) ||| (BitVec.ofNat 32 (e + 1023) <<< 20) |||
        ((a.sshiftRight 32).setWidth 32 &&& 0x000FFFFF#32))
      (a.setWidth 32)

/-- `___floatuntidf` -/
def floatuntidf (a : BitVec 128) : BitVec 64 :=
  if a = 0 then 0
  else
    let (a, e) := roundMantissa .ushiftRight a
    doubleBits
      ((BitVec.ofNat 32 (e + 1023) <<< 20) |||
        ((a.ushiftRight 32).setWidth 32 &&& 0x000FFFFF#32))
      (a.setWidth 32)

end UosioCdt.Rt
