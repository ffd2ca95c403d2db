import UosioCdt.Core.Asset
import Mathlib.Data.Char

/-!
# `name` and its string form

The constructor of `name.hpp` packs twelve characters of five bits and one of four from the left, and
rejects what it cannot pack. `write_as_string` unpacks them from the left and stops when only dots
are left. `length` and `suffix` look for dots among the packed characters.
-/

namespace UosioCdt.Core

namespace Name

/-- `charmap` of `write_as_string`. -/
def charmap : List Char := ".12345abcdefghijklmnopqrstuvwxyz".toList

/-- `char_to_value` -/
def charToValue (c : Char) : Except String UInt8 :=
  if c = '.' then .ok 0
  else if '1' ≤ c ∧ c ≤ '5' then .ok (UInt8.ofNat (c.toNat - '1'.toNat) + 1)
  else if 'a' ≤ c ∧ c ≤ 'z' then .ok (UInt8.ofNat (c.toNat - 'a'.toNat) + 6)
  else .error "character is not in allowed character set for names"

/-- The loop of the constructor over the characters of five bits. -/
def packChars : UInt64 → List Char → Except String UInt64
  | value, [] => .ok value
  | value, c :: cs => do
    let v ← charToValue c
    packChars (value <<< 5 ||| v.toUInt64) cs

/-- The thirteenth character. -/
def packLast (value : UInt64) (c : Char) : Except String Name := do
  let v ← charToValue c
  if v > 0x0F then .error "thirteenth character in name cannot be a letter that comes after j"
  else .ok ⟨value ||| v.toUInt64⟩

/-- `name(std::string_view)` -/
def ofString (str : List Char) : Except String Name :=
  if str.length > 13 then .error "string is too long to be a valid name"
  else if str = [] then .ok ⟨0⟩
  else do
    let value ← packChars 0 (str.take (min str.length 12))
    -- the characters that are not there count as dots
    let value := value <<< UInt64.ofNat (4 + 5 * (12 - min str.length 12))
    if h : str.length = 13 then packLast value str[12] else .ok ⟨value⟩

/-- `charmap[indx]` -/
def charAt (indx : UInt64) : Char := charmap.getD indx.toNat '.'

/-- The loop of `write_as_string` with `n` characters to go. -/
def writeChars : ℕ → UInt64 → List Char
  | 0, _ => []
  | n + 1, v =>
    if v = 0 then []
    else charAt ((v &&& 0xF800000000000000) >>> (if n = 0 then 60 else 59)) :: writeChars n (v <<< 5)

/-- `to_string`: `write_as_string` into a buffer of 13 characters. -/
def toString (n : Name) : List Char := writeChars 13 n.value

/-- The loop of `length` with `n` characters to go: `l` is the place of the last one that is no
dot. -/
def lastPlace : ℕ → UInt64 → UInt8 → UInt8 → UInt8
  | 0, _, _, l => l
  | n + 1, v, i, l =>
    lastPlace n (v <<< 5) (i + 1) (if v &&& 0xF800000000000000 > 0 then i else l)

/-- `length` -/
def length (self : Name) : UInt8 :=
  if self.value = 0 then 0 else lastPlace 13 self.value 0 0 + 1

/-- The loop of `suffix` over the first twelve characters, with `n` to go: `tmp` counts the bits behind
the last dot, and `last` the bits behind the last dot with a character behind it. -/
def scanDots (value : UInt64) : ℕ → ℕ → ℕ → ℕ × ℕ
  | 0, tmp, last => (tmp, last)
  | n + 1, tmp, last =>
    let remainingBits := 5 * n + 4
    let c := (value >>> UInt64.ofNat remainingBits) &&& 0x1F
    if c = 0 then scanDots value n remainingBits last else scanDots value n tmp tmp

/-- `suffix` -/
def suffix (self : Name) : Name :=
  let scanned := scanDots self.value 12 0 0
  let thirteenth := self.value &&& 0x0F
  let remaining := if thirteenth ≠ 0 then scanned.1 else scanned.2
  if remaining = 0 then self
  else
    let mask := ((1 : UInt64) <<< UInt64.ofNat remaining) - 16
    let shift := UInt64.ofNat (64 - remaining)
    ⟨((self.value &&& mask) <<< shift) + (thirteenth <<< (shift - 1))⟩

/-- `operator<` -/
instance : LT Name := ⟨fun a b => a.value < b.value⟩

end Name

end UosioCdt.Core
