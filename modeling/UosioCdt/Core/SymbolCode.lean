import UosioCdt.Core.NameString
import UosioCdt.Core.Serialize

/-!
# `symbol_code`, `symbol` and `extended_symbol`

The constructors, the checks and the printing of `symbol.hpp`. A local buffer is the memory from its
first character on: printing up to a terminator may read behind what has been written.
-/

namespace UosioCdt.Core

namespace SymbolCode

/-- The loop of the constructor, over the characters from the last one on. -/
def pushChars : UInt64 → List Char → Except String UInt64
  | value, [] => .ok value
  | value, c :: cs =>
    if c < 'A' ∨ 'Z' < c then .error "only uppercase letters allowed in symbol_code string"
    else pushChars (value <<< 8 ||| UInt64.ofNat c.toNat) cs

/-- `symbol_code(std::string_view)` -/
def ofString (str : List Char) : Except String SymbolCode :=
  if str.length > 7 then .error "string is too long to be a valid symbol_code"
  else do
    let value ← pushChars 0 str.reverse
    return ⟨value⟩

/-- `(char)(sym & 0xFF)` -/
def lowChar (sym : UInt64) : Char := Char.ofNat (sym &&& 0xFF).toNat

/-- The inner loop of `is_valid`, with `n` turns to go: no character may follow. -/
def onlyZeros : ℕ → UInt64 → Bool
  | 0, _ => true
  | n + 1, sym =>
    let sym := sym >>> 8
    if sym &&& 0xFF ≠ 0 then false else onlyZeros n sym

/-- The outer loop of `is_valid`, with `n` turns to go. Both loops count with the same variable, so
the outer one ends with the inner one. -/
def validFrom : ℕ → UInt64 → Bool
  | 0, _ => true
  | n + 1, sym =>
    if ¬ ('A' ≤ lowChar sym ∧ lowChar sym ≤ 'Z') then false
    else
      let sym := sym >>> 8
      if sym &&& 0xFF = 0 then onlyZeros (n + 1) sym else validFrom n sym

/-- `is_valid` -/
def isValid (self : SymbolCode) : Bool := validFrom 7 self.value

/-- The loop of `length`, with `n` turns to go until `len` passes 7. -/
def lengthFrom : ℕ → UInt64 → ℕ → ℕ
  | 0, _, len => len
  | n + 1, sym, len => if sym &&& 0xFF ≠ 0 then lengthFrom n (sym >>> 8) (len + 1) else len

/-- `length` -/
def length (self : SymbolCode) : ℕ := lengthFrom 8 self.value 0

/-- The loop of `write_as_string` with `n` characters to go. -/
def writeChars : ℕ → UInt64 → List Char
  | 0, _ => []
  | n + 1, v => if v = 0 then [] else lowChar v :: writeChars n (v >>> 8)

/-- `to_string`: `write_as_string` into a buffer of 7 characters. -/
def toString (self : SymbolCode) : List Char := writeChars 7 self.value

end SymbolCode

/-! ## Printing -/

/-- `prints`: the characters up to the terminator; reading past the end of the memory is a trap. -/
def prints (memory : List Char) : Option (List Char) :=
  if '\x00' ∈ memory then some (memory.takeWhile (· ≠ '\x00')) else none

/-- `prints_l` -/
def printsL (memory : List Char) (len : ℕ) : Option (List Char) :=
  if len ≤ memory.length then some (memory.take len) else none

/-- `printui` -/
def printui (n : UInt64) : List Char := Nat.toDigits 10 n.toNat

/-- `printi` of a number that is not negative -/
def printi (n : ℕ) : List Char := Nat.toDigits 10 n

/-- `printn` -/
def printn (n : Name) : List Char := n.toString

/-- A local buffer in memory, after characters have been written to its start. -/
def writeBuffer (memory text : List Char) : List Char := text ++ memory.drop text.length

/-- `symbol_code::print`; `memory` is what lies at the local buffer and behind it. -/
def SymbolCode.print (self : SymbolCode) (memory : List Char) : Option (List Char) :=
  let text := self.toString
  if text ≠ [] then printsL (writeBuffer memory text) text.length else some []

namespace Symbol

/-- `symbol(symbol_code, uint8_t)` -/
def ofCode (sc : SymbolCode) (precision : UInt8) : Symbol := ⟨sc.value <<< 8 ||| precision.toUInt64⟩

/-- `symbol(std::string_view, uint8_t)` -/
def ofString (ss : List Char) (precision : UInt8) : Except String Symbol := do
  let sc ← SymbolCode.ofString ss
  return ofCode sc precision

/-- `code` -/
def code (self : Symbol) : SymbolCode := ⟨self.value >>> 8⟩

/-- `precision` -/
def precision (self : Symbol) : UInt8 := (self.value &&& 0xFF).toUInt8

/-- `is_valid` -/
def isValid (self : Symbol) : Bool := self.code.isValid

/-- `print`: the buffer is printed up to a terminator, and its length as a number. -/
def print (self : Symbol) (memory : List Char) (showPrecision : Bool) : Option (List Char) := do
  let precision := if showPrecision then printui self.precision.toUInt64 ++ [','] else []
  let text := self.code.toString
  if text ≠ [] then
    let code ← prints (writeBuffer memory text)
    return precision ++ code ++ printi text.length
  else return precision

end Symbol

/-- `extended_symbol` -/
structure ExtendedSymbol where
  symbol : Symbol
  contract : Name
deriving DecidableEq, Repr

/-- `extended_symbol::print` -/
def ExtendedSymbol.print (self : ExtendedSymbol) (memory : List Char) (showPrecision : Bool) :
    Option (List Char) := do
  let symbol ← self.symbol.print memory showPrecision
  return symbol ++ ['@'] ++ printn self.contract

end UosioCdt.Core
