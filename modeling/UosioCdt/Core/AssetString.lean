import UosioCdt.Core.SymbolCode
import UosioCdt.Lib.Decimal

/-!
# `asset::to_string`

The loops of `to_string` on 64-bit words, with its two local buffers. An arithmetic step may trap or
wrap, and a write has to stay inside of its buffer.
-/

namespace UosioCdt.Core

open WrapArith

/-- How `to_string` may fail: a trap of the machine, or a write outside of a buffer. -/
inductive Fault where
  | trap
  | outside
deriving DecidableEq, Repr

abbrev StringOp := Arith Fault

/-- `buffer[i] = c` -/
def store (buffer : List Char) (i : ℕ) (c : Char) : StringOp (List Char) :=
  if i < buffer.length then return buffer.set i c else .fail .outside

/-- The string that starts here, up to its terminator. -/
def cString (buffer : List Char) : List Char := buffer.takeWhile (· ≠ '\x00')

/-- `snprintf` into a buffer of this size, one character of which is the terminator. -/
def snprintf (size : ℕ) (text : List Char) : List Char := text.take (size - 1)

namespace Asset

/-- `is_valid` -/
def isValid (self : Asset) : Bool :=
  ((-maxAmount).sle self.amount && self.amount.sle maxAmount) && self.symbol.isValid

/-- `while( p > 0 ) { p10 *= 10; --p; }` -/
def powerOfTen : ℕ → BitVec 64 → StringOp (BitVec 64)
  | 0, p10 => return p10
  | p + 1, p10 => do
    let p10 ← WrapArith.mul p10 10
    powerOfTen p p10

/-- The loop over the digits of the fraction, from the last one, with `n` to go. -/
def fractionDigits : ℕ → BitVec 64 → List Char → StringOp (List Char)
  | 0, _, fraction => return fraction
  | i + 1, change, fraction => do
    let digit ← WrapArith.rem .trap change 10
    let c ← WrapArith.add digit 48
    let fraction ← store fraction i (Char.ofNat (c.setWidth 8).toNat)
    let change ← WrapArith.div .trap change 10
    fractionDigits i change fraction

/-- `to_string`; `memory` is what the local buffer holds before. -/
def toString (self : Asset) (memory : ℕ → Char) : StringOp (List Char) := do
  let p := self.symbol.precision.toNat
  let p10 ← powerOfTen p 1
  let fraction := (List.range (p + 1)).map memory
  let fraction ← store fraction p '\x00'
  let invert : BitVec 64 := if self.amount.slt 0 then -1 else 1
  let remainder ← WrapArith.rem .trap self.amount p10
  let change ← WrapArith.mul remainder invert
  let fraction ← fractionDigits p change fraction
  let integer ← WrapArith.div .trap self.amount p10
  let point := if fraction.head? ≠ some '\x00' then ['.'] else []
  let text := Decimal.signed integer.toInt ++ point ++ cString fraction ++ [' ']
    ++ cString self.symbol.code.toString
  return cString (snprintf (p + 32) text)

end Asset

end UosioCdt.Core
