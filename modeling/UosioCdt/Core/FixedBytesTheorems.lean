import UosioCdt.Core.FixedBytesWords

/-!
# Padding and comparisons of `fixed_bytes`

The bytes of the words are the bytes extracted and the padding. Where the padding is zero a value is
determined by its bytes (`eq_of_extract_eq`), reading back its bytes gives it
(`ofByteArray_extract_iff`), and the operators compare the bytes (`compare_iff`).
-/

namespace UosioCdt.Core

open Chunks LittleEndian

namespace FixedBytes

variable {size : ℕ} {d d' : FixedBytes size}

/-! ## Padding -/

/-- The bits of the last word beyond `size` bytes are zero. -/
def PaddingZero (d : FixedBytes size) : Prop :=
  ∀ w, d.data.getLast? = some w → ∀ i < 8 * paddedBytes size, w.getLsbD i = false

/-- The lowest bytes of a word are zero when their bits are. -/
lemma wordBytes_eq_zero_iff (n : ℕ) (w : Word) :
    (∀ x ∈ wordBytes n w, x = 0) ↔ ∀ i < 8 * n, w.getLsbD i = false := by
  have hmod : (∀ x ∈ wordBytes n w, x = 0) ↔ w.toNat % 2 ^ (8 * n) = 0 := by
    rw [Nat.pow_mul, ← forall_mem_toBytes_iff, wordBytes]
    simp only [List.mem_reverse]
  rw [hmod]
  constructor
  · intro hzero i hi
    have hbit : (w.toNat % 2 ^ (8 * n)).testBit i = false := by rw [hzero, Nat.zero_testBit]
    rw [Nat.testBit_mod_two_pow, decide_eq_true hi, Bool.true_and] at hbit
    exact hbit
  · intro hbits
    apply Nat.eq_of_testBit_eq
    intro i
    rw [Nat.testBit_mod_two_pow, Nat.zero_testBit]
    by_cases hi : i < 8 * n
    · have hbit : w.toNat.testBit i = false := hbits i hi
      rw [hbit, Bool.and_false]
    · rw [decide_eq_false hi, Bool.false_and]

/-- The padding in bytes. -/
lemma paddingZero_iff (d : FixedBytes size) :
    d.PaddingZero ↔ ∀ x ∈ d.allBytes.drop size, x = 0 := by
  have hlen := d.length_eq
  rcases List.eq_nil_or_concat d.data with hnil | ⟨ws, w, hws⟩
  · rw [PaddingZero, allBytes, hnil]
    simp
  · have hpad := paddedBytes_le size
    have hsize : size = 16 * ws.length + (16 - paddedBytes size) := by
      have hsub := sub_paddedBytes size
      rw [hws, List.length_concat] at hlen
      omega
    have hflat : d.allBytes = ws.flatMap (wordBytes 16) ++ wordBytes 16 w := by
      rw [allBytes, hws, List.concat_eq_append, List.flatMap_append, List.flatMap_singleton]
    have hdrop : d.allBytes.drop size = (wordBytes 16 w).drop (16 - paddedBytes size) := by
      rw [← length_flatMap_wordBytes] at hsize
      nth_rewrite 1 [hflat, hsize]
      rw [List.drop_length_add_append]
    have hlow : (wordBytes 16 w).drop (16 - paddedBytes size) = wordBytes (paddedBytes size) w := by
      have hsplit := toBytes_add (paddedBytes size) (16 - paddedBytes size) w.toNat
      rw [Nat.add_sub_cancel' hpad] at hsplit
      rw [wordBytes, hsplit, List.reverse_append,
        List.drop_left' (by rw [List.length_reverse, length_toBytes]), wordBytes]
    rw [hdrop, hlow, wordBytes_eq_zero_iff, PaddingZero, hws]
    simp

/-- The bytes of all words determine the value. -/
lemma eq_of_allBytes_eq (h : d.allBytes = d'.allBytes) : d = d' := by
  have hdata : d.data = d'.data :=
    flatMap_injective (length_wordBytes 16) wordBytes_injective
      (d.length_eq.trans d'.length_eq.symm) h
  cases d
  cases d'
  cases hdata
  rfl

/-- With zero padding, the bytes extracted and zeros are all the bytes. -/
lemma allBytes_of_paddingZero (hd : d.PaddingZero) :
    d.allBytes = d.extractAsByteArray ++ List.replicate (paddedBytes size) 0 := by
  have hdrop : d.allBytes.drop size = List.replicate (paddedBytes size) 0 := by
    rw [List.eq_replicate_iff, List.length_drop, length_allBytes]
    refine ⟨?_, d.paddingZero_iff.mp hd⟩
    rw [paddedBytes, Nat.mul_comm]
  rw [← hdrop, extract_eq_take, List.take_append_drop]

lemma paddingZero_ofByteArray (arr : List UInt8) (h : arr.length = size) :
    (ofByteArray arr h).PaddingZero := by
  rw [paddingZero_iff, allBytes_ofByteArray, List.drop_left' h]
  exact fun x hx => List.eq_of_mem_replicate hx

lemma allBytes_zero (size : ℕ) : (zero size).allBytes = List.replicate (16 * numWords size) 0 := by
  rw [allBytes, zero, List.flatMap_replicate, show wordBytes 16 0 = List.replicate 16 0 by rfl,
    List.flatten_replicate_replicate, Nat.mul_comm]

lemma paddingZero_zero (size : ℕ) : (zero size).PaddingZero := by
  rw [paddingZero_iff, allBytes_zero, List.drop_replicate]
  exact fun x hx => List.eq_of_mem_replicate hx

/-- Values with zero padding are equal when their bytes are. -/
theorem eq_of_extract_eq (hd : d.PaddingZero) (hd' : d'.PaddingZero)
    (h : d.extractAsByteArray = d'.extractAsByteArray) : d = d' := by
  apply eq_of_allBytes_eq
  rw [allBytes_of_paddingZero hd, allBytes_of_paddingZero hd', h]

/-- The bytes extracted give the value back exactly when its padding is zero. -/
theorem ofByteArray_extract_iff (d : FixedBytes size) :
    ofByteArray d.extractAsByteArray d.length_extract = d ↔ d.PaddingZero := by
  constructor
  · intro h
    have hpad := paddingZero_ofByteArray d.extractAsByteArray d.length_extract
    rwa [h] at hpad
  · intro hd
    exact eq_of_extract_eq (paddingZero_ofByteArray _ _) hd (extract_ofByteArray _ _)

/-! ## Comparisons -/

/-- The order of `std::lexicographical_compare` on words. -/
lemma lexicographicalCompare_iff (xs ys : List Word) :
    lexicographicalCompare BitVec.ult xs ys = true ↔ xs < ys := by
  induction xs generalizing ys with
  | nil => cases ys <;> simp [lexicographicalCompare]
  | cons x xs ih =>
    cases ys with
    | nil => simp [lexicographicalCompare]
    | cons y ys =>
      have hult (v w : Word) : v.ult w = true ↔ v < w := by rw [BitVec.ult, decide_eq_true_iff]; rfl
      rw [lexicographicalCompare, List.cons_lt_cons_iff]
      by_cases hxy : x < y
      · rw [if_pos ((hult x y).mpr hxy)]
        exact iff_of_true rfl (.inl hxy)
      · rw [if_neg (by rwa [hult])]
        by_cases hyx : y < x
        · rw [if_pos ((hult y x).mpr hyx)]
          refine iff_of_false (by decide) ?_
          rintro (hlt | ⟨rfl, -⟩)
          · exact hxy hlt
          · exact hxy hyx
        · have heq : x = y := by
            apply BitVec.eq_of_toNat_eq
            rw [BitVec.lt_def] at hxy hyx
            omega
          rw [if_neg (by rwa [hult]), ih, heq]
          simp

/-- A comparison of bytes, in lexicographic order. -/
def OnBytes (c : Comparison) (xs ys : List UInt8) : Prop :=
  match c with
  | .eq => xs = ys
  | .ne => xs ≠ ys
  | .lt => xs < ys
  | .le => xs ≤ ys
  | .gt => xs > ys
  | .ge => xs ≥ ys

/-- With zero padding, words are ordered as the bytes extracted. -/
lemma data_lt_iff (hd : d.PaddingZero) (hd' : d'.PaddingZero) :
    d.data < d'.data ↔ d.extractAsByteArray < d'.extractAsByteArray := by
  have hblocks : d.allBytes < d'.allBytes ↔ d.data < d'.data :=
    flatMap_lt_flatMap_iff (length_wordBytes 16) wordBytes_injective wordBytes_lt_iff
      (d.length_eq.trans d'.length_eq.symm)
  rw [← hblocks, allBytes_of_paddingZero hd, allBytes_of_paddingZero hd',
    append_lt_append_iff (d.length_extract.trans d'.length_extract.symm)]
  have hpadding : ¬ List.replicate (paddedBytes size) (0 : UInt8)
      < List.replicate (paddedBytes size) 0 := List.lt_irrefl _
  simp only [hpadding, and_false, or_false]

/-- With zero padding, the operators compare the bytes extracted. -/
theorem compare_iff_of_paddingZero (c : Comparison) (hd : d.PaddingZero) (hd' : d'.PaddingZero) :
    compare c d d' = true ↔ OnBytes c d.extractAsByteArray d'.extractAsByteArray := by
  have hdata : d.data = d'.data ↔ d.extractAsByteArray = d'.extractAsByteArray := by
    constructor
    · intro h
      rw [extractAsByteArray, h, extractAsByteArray]
    · intro h
      rw [eq_of_extract_eq hd hd' h]
  have hlt := (lexicographicalCompare_iff d.data d'.data).trans (data_lt_iff hd hd')
  have hgt := (lexicographicalCompare_iff d'.data d.data).trans (data_lt_iff hd' hd)
  cases c with
  | eq => rw [compare, beq_iff_eq, hdata, OnBytes]
  | ne => rw [compare, Bool.not_eq_true', beq_eq_false_iff_ne, ne_eq, hdata, OnBytes]
  | lt => exact hlt
  | le =>
    rw [compare, Bool.not_eq_true', ← Bool.not_eq_true, hgt]
    rfl
  | gt => exact hgt
  | ge =>
    rw [compare, Bool.not_eq_true', ← Bool.not_eq_true, hlt]
    rfl

end FixedBytes

end UosioCdt.Core
