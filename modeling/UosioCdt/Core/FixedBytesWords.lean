import UosioCdt.Core.Serialize

/-!
# `fixed_bytes` from words

The constructors and the factory that take words, and the comparison operators. The constructors from
arrays leave the words that they do not store as they were, which is passed in as `memory`.
-/

namespace UosioCdt.Core

open Chunks LittleEndian

/-- The types of words: the unsigned integers and the internal word. -/
inductive WordType where
  | u8
  | u16
  | u32
  | u64
  | u128
deriving DecidableEq, Repr

/-- `sizeof(Word)` -/
def WordType.bytes : WordType → ℕ
  | .u8 => 1
  | .u16 => 2
  | .u32 => 4
  | .u64 => 8
  | .u128 => 16

/-- `num_sub_words` -/
def WordType.numSubWords (t : WordType) : ℕ := 16 / t.bytes

/-- Words that the `static_assert` of the constructors lets through. -/
structure WordSequence (size : ℕ) where
  type : WordType
  words : List (BitVec (8 * type.bytes))
  fits : type.bytes * words.length ≤ size

namespace WordSequence

variable {size : ℕ}

/-- The bytes of each word, highest first. -/
def groups (s : WordSequence size) : List (List UInt8) :=
  s.words.map fun w => (toBytes s.type.bytes w.toNat).reverse

/-- The words that `set_from_word_sequence` stores. -/
def stored (s : WordSequence size) : List Word :=
  storeWords (8 * s.type.bytes) s.type.numSubWords (s.words.map (BitVec.setWidth 128)) 0
    s.type.numSubWords

/-- How many words it stores. -/
def storedCount (s : WordSequence size) : ℕ :=
  (s.words.length + s.type.numSubWords - 1) / s.type.numSubWords

lemma bytes_mul_numSubWords (t : WordType) : t.bytes * t.numSubWords = 16 := by cases t <;> rfl

lemma bytes_pos (t : WordType) : 0 < t.bytes := by cases t <;> decide

lemma numSubWords_pos (t : WordType) : 0 < t.numSubWords := by cases t <;> decide

lemma length_of_mem_groups (s : WordSequence size) : ∀ g ∈ s.groups, g.length = s.type.bytes := by
  intro g hg
  obtain ⟨w, -, rfl⟩ := List.mem_map.mp hg
  rw [List.length_reverse, length_toBytes]

/-- A word is the word of its bytes. -/
lemma stored_eq (s : WordSequence size) :
    s.stored = storeWords (8 * s.type.bytes) s.type.numSubWords (s.groups.map groupWord) 0
      s.type.numSubWords := by
  have hwords : s.words.map (BitVec.setWidth 128) = s.groups.map groupWord := by
    rw [groups, List.map_map]
    apply List.map_congr_left
    intro w _
    have hlt : w.toNat < 256 ^ s.type.bytes := by
      rw [show 256 = 2 ^ 8 by rfl, ← Nat.pow_mul]
      exact w.isLt
    rw [Function.comp_apply, groupWord, bigEndian_reverse_toBytes, Nat.mod_eq_of_lt hlt,
      BitVec.ofNat_toNat]
  rw [stored, hwords]

lemma length_stored (s : WordSequence size) : s.stored.length = s.storedCount := by
  rw [stored_eq, length_storeWords s.length_of_mem_groups (numSubWords_pos s.type), groups,
    List.length_map, storedCount]

lemma storedCount_le (s : WordSequence size) : s.storedCount ≤ numWords size := by
  have hbound : ∀ (t : WordType) (n : ℕ), t.bytes * n ≤ size →
      (n + t.numSubWords - 1) / t.numSubWords ≤ numWords size := by
    intro t n hfits
    rw [numWords]
    cases t <;> simp only [WordType.bytes, WordType.numSubWords] at hfits ⊢ <;> omega
  exact hbound s.type s.words.length s.fits

/-- `set_from_word_sequence` -/
def setFromWordSequence (s : WordSequence size) (key : FixedBytes size) : FixedBytes size :=
  ⟨s.stored ++ key.data.drop s.stored.length, by
    have hle := s.storedCount_le
    rw [List.length_append, List.length_drop, key.length_eq, s.length_stored]
    omega⟩

end WordSequence

/-- The constructors and the factory that take words: an array of internal words, or an array or the
arguments of another type. A C array has an element, and the factory has a first word. -/
inductive WordSource (size : ℕ) where
  | wordArray (arr : List Word) (h : arr.length = numWords size)
  | stdArray (arr : WordSequence size) (h : arr.type.bytes < 16)
  | cArray (arr : WordSequence size) (h : arr.type.bytes < 16) (hne : arr.words ≠ [])
  | makeFromWordSequence (words : WordSequence size) (hne : words.words ≠ [])

/-- The value that is built where `memory` was before. -/
def WordSource.build {size : ℕ} (memory : FixedBytes size) : WordSource size → FixedBytes size
  | .wordArray arr h => ⟨arr, h⟩
  | .stdArray arr _ => arr.setFromWordSequence memory
  | .cArray arr _ _ => arr.setFromWordSequence memory
  | .makeFromWordSequence words _ => words.setFromWordSequence (.zero size)

/-- Every way to a value: the default constructor, words, and `operator>>`. -/
inductive Construction (size : ℕ) where
  | default
  | words (source : WordSource size)
  | deserialized (lt : KeyOrder) (old : FixedBytes size) (bytes : List UInt8) (d : FixedBytes size)
      (rest : List UInt8) (h : (Ty.fixedBytes size).read lt old bytes = some (d, rest))

/-- The value that is built where `memory` was before. -/
def Construction.build {size : ℕ} (memory : FixedBytes size) : Construction size → FixedBytes size
  | .default => .zero size
  | .words source => source.build memory
  | .deserialized _ _ _ d _ _ => d

/-! ## Comparisons -/

/-- `std::lexicographical_compare` -/
def lexicographicalCompare {α : Type} (less : α → α → Bool) : List α → List α → Bool
  | _, [] => false
  | [], _ :: _ => true
  | x :: xs, y :: ys =>
    if less x y then true else if less y x then false else lexicographicalCompare less xs ys

/-- The operators of `fixed_bytes`, those of `std::array` on the words. -/
def FixedBytes.compare {size : ℕ} (c : Comparison) (c1 c2 : FixedBytes size) : Bool :=
  match c with
  | .eq => c1.data == c2.data
  | .ne => !(c1.data == c2.data)
  | .gt => lexicographicalCompare BitVec.ult c2.data c1.data
  | .lt => lexicographicalCompare BitVec.ult c1.data c2.data
  | .ge => !lexicographicalCompare BitVec.ult c1.data c2.data
  | .le => !lexicographicalCompare BitVec.ult c2.data c1.data

end UosioCdt.Core
