import Mathlib.Data.List.Basic
import Mathlib.Tactic.Basic

/-!
# Names in the build tools

`string_to_name`, `validate_name` and `name_to_string` of the tools: a name is twelve characters
of five bits and one of four, highest first. A string that `validate_name` accepts is determined by
its number (`eq_of_stringToName_eq`).
-/

namespace UosioCdt.Tools

/-- `std::string` and `StringRef`. -/
abbrev Str := List Char

/-- A property of the characters of a string is checked on each of them. -/
instance (priority := high) decidableForallMem (p : Char → Prop) [DecidablePred p] (str : Str) :
    Decidable (∀ c ∈ str, p c) := List.decidableBAll p str

/-- `char_to_symbol`: every other character counts as a dot. -/
def charToSymbol (c : Char) : UInt64 :=
  if 'a' ≤ c ∧ c ≤ 'z' then UInt64.ofNat (c.toNat - 'a'.toNat) + 6
  else if '1' ≤ c ∧ c ≤ '5' then UInt64.ofNat (c.toNat - '1'.toNat) + 1
  else 0

/-- The loop of `string_to_name` at character `i`, and the thirteenth character behind it. The
string ends at the first NUL. -/
def stringToNameFrom : ℕ → UInt64 → Str → UInt64
  | _, name, [] => name
  | i, name, c :: cs =>
    if c = '\x00' then name
    else if i < 12 then
      stringToNameFrom (i + 1)
        (name ||| (charToSymbol c &&& 0x1f) <<< UInt64.ofNat (64 - 5 * (i + 1))) cs
    else name ||| (charToSymbol c &&& 0x0F)

/-- `string_to_name` -/
def stringToName (str : Str) : UInt64 := stringToNameFrom 0 0 str

/-- The character table of names. -/
def charmap : List Char := ".12345abcdefghijklmnopqrstuvwxyz".toList

/-- `charmap[i]` -/
def charAt (i : UInt64) : Char := charmap.getD i.toNat '.'

/-- The characters of `tmp`, five bits each, in front of those already read. -/
def nameCharsFrom : ℕ → UInt64 → Str → Str
  | 0, _, str => str
  | n + 1, tmp, str => nameCharsFrom n (tmp >>> 5) (charAt (tmp &&& 0x1f) :: str)

/-- The thirteen characters of a name, read from the low end. -/
def nameChars (nm : UInt64) : Str := nameCharsFrom 12 (nm >>> 4) [charAt (nm &&& 0x0f)]

/-- `trim` of `validate_name`: no trailing dots. -/
def trim (str : Str) : Str := (str.reverse.dropWhile (· = '.')).reverse

/-- `trim_right_dots` of `name_to_string`: a string of dots only is left as it is. -/
def trimRightDots (str : Str) : Str := if str.all (· = '.') then str else trim str

/-- `validate_name`: `false` where it calls the error handler. -/
def validateName (str : Str) : Bool :=
  decide (str.length ≤ 13) && decide (trim (nameChars (stringToName str)) = str)

/-- `name_to_string` -/
def nameToString (nm : UInt64) : Str := trimRightDots (nameChars nm)

/-- A valid name is written back as it was read. -/
lemma trim_nameChars_of_valid {str : Str} (h : validateName str = true) :
    trim (nameChars (stringToName str)) = str := by
  simp only [validateName, Bool.and_eq_true, decide_eq_true_eq] at h
  exact h.2

/-- Valid names with one number are one name. -/
theorem eq_of_stringToName_eq {s t : Str} (hs : validateName s = true)
    (ht : validateName t = true) (h : stringToName s = stringToName t) : s = t := by
  rw [← trim_nameChars_of_valid hs, ← trim_nameChars_of_valid ht, h]

example : stringToName "uosio".toList = 15362035614681661440 := by decide

lemma validateName_uosio : validateName "uosio".toList = true := by decide

lemma validateName_onerror : validateName "onerror".toList = true := by decide

end UosioCdt.Tools
