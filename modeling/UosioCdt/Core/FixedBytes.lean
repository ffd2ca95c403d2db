import UosioCdt.Lib.Chunks
import UosioCdt.Lib.LittleEndian

/-!
# `fixed_bytes`

An array of 128-bit words that holds `Size` bytes, most significant first; the last word is padded
with zeros. `extract_ofByteArray`: the bytes it was built from are the bytes extracted.
-/

namespace UosioCdt.Core

open Chunks LittleEndian

abbrev Word := BitVec 128

/-! ## The loops of the source -/

/-- `fixed_bytes::num_words` -/
def numWords (size : ℕ) : ℕ := (size + 16 - 1) / 16

/-- `fixed_bytes::padded_bytes` -/
def paddedBytes (size : ℕ) : ℕ := numWords size * 16 - size

/-- The words that `set_from_word_sequence` stores, with `temp_word` and `sub_words_left` passed in.
The count runs from `num` down to 1, so the check in its branch never fails. -/
def storeWords (shift num : ℕ) : List Word → Word → ℕ → List Word
  | [], tempWord, left =>
    if left ≠ num then [if left > 1 then tempWord <<< (8 * (left - 1)) else tempWord] else []
  | w :: ws, tempWord, left =>
    if left > 1 then storeWords shift num ws ((tempWord ||| w) <<< shift) (left - 1)
    else (tempWord ||| w) :: storeWords shift num ws 0 num

/-- A byte as a word of the backing array. -/
def byteWord (b : UInt8) : Word := BitVec.ofNat 128 b.toNat

/-- The lowest `n` bytes of a word, written from the end. -/
def wordBytes (n : ℕ) (w : Word) : List UInt8 := (toBytes n w.toNat).reverse

/-- The loop of `extract_as_byte_array`; the last word is shifted down by the padding. -/
def extractWords (padded : ℕ) : List Word → List UInt8
  | [] => []
  | [w] => wordBytes (16 - padded) (w >>> (8 * padded))
  | w :: ws => wordBytes 16 w ++ extractWords padded ws

/-! ## The bytes of words -/

lemma length_wordBytes (n : ℕ) (w : Word) : (wordBytes n w).length = n := by
  rw [wordBytes, List.length_reverse, length_toBytes]

lemma bigEndian_wordBytes (w : Word) : bigEndian (wordBytes 16 w) = w.toNat := by
  have hlt : w.toNat < 256 ^ 16 := w.isLt
  rw [wordBytes, bigEndian_reverse_toBytes, Nat.mod_eq_of_lt hlt]

lemma wordBytes_injective : Function.Injective (wordBytes 16) := by
  intro w v h
  apply BitVec.eq_of_toNat_eq
  rw [← bigEndian_wordBytes w, ← bigEndian_wordBytes v, h]

/-- The order of words is the order of their bytes. -/
lemma wordBytes_lt_iff (w v : Word) : wordBytes 16 w < wordBytes 16 v ↔ w < v := by
  rw [← bigEndian_lt_iff (by rw [length_wordBytes, length_wordBytes]), bigEndian_wordBytes,
    bigEndian_wordBytes, BitVec.lt_def]

lemma length_flatMap_wordBytes (ws : List Word) :
    (ws.flatMap (wordBytes 16)).length = 16 * ws.length := by
  rw [List.flatMap_def, length_flatten_of_forall (m := 16), List.length_map]
  intro g hg
  obtain ⟨w, -, rfl⟩ := List.mem_map.mp hg
  exact length_wordBytes 16 w

/-- A shift down by the padding leaves the first bytes. -/
lemma wordBytes_shiftRight {padded : ℕ} (h : padded ≤ 16) (w : Word) :
    wordBytes (16 - padded) (w >>> (8 * padded)) = (wordBytes 16 w).take (16 - padded) := by
  have hsplit := toBytes_add padded (16 - padded) w.toNat
  rw [Nat.add_sub_cancel' h] at hsplit
  rw [wordBytes, wordBytes, hsplit, List.reverse_append,
    List.take_left' (by rw [List.length_reverse, length_toBytes]), BitVec.toNat_ushiftRight,
    Nat.shiftRight_eq_div_pow, Nat.pow_mul]

/-- The bytes extracted are the first ones. -/
lemma extractWords_eq_take {padded : ℕ} (h : padded ≤ 16) (ws : List Word) :
    extractWords padded ws = (ws.flatMap (wordBytes 16)).take (16 * ws.length - padded) := by
  induction ws with
  | nil => rw [extractWords, List.flatMap_nil, List.take_nil]
  | cons w ws ih =>
    cases ws with
    | nil =>
      rw [extractWords, wordBytes_shiftRight h, List.flatMap_cons, List.flatMap_nil,
        List.append_nil, List.length_singleton, Nat.mul_one]
    | cons v vs =>
      have hlen : 16 * (w :: v :: vs).length - padded = 16 + (16 * (v :: vs).length - padded) := by
        rw [List.length_cons, List.length_cons]
        omega
      show wordBytes 16 w ++ extractWords padded (v :: vs)
        = (wordBytes 16 w ++ (v :: vs).flatMap (wordBytes 16)).take _
      have hw := length_wordBytes 16 w
      rw [ih, hlen, List.take_append, List.take_of_length_le (l := wordBytes 16 w) (by omega), hw,
        Nat.add_sub_cancel_left]

/-! ## The words of groups of bytes -/

/-- The word with these bytes as its lowest ones. -/
def groupWord (g : List UInt8) : Word := BitVec.ofNat 128 (bigEndian g)

lemma toNat_groupWord {g : List UInt8} (h : g.length ≤ 16) : (groupWord g).toNat = bigEndian g := by
  have hlt : bigEndian g < 2 ^ 128 := by
    calc bigEndian g < 256 ^ g.length := bigEndian_lt g
      _ ≤ 256 ^ 16 := Nat.pow_le_pow_right (by decide) h
      _ = 2 ^ 128 := by decide
  rw [groupWord, BitVec.toNat_ofNat, Nat.mod_eq_of_lt hlt]

lemma wordBytes_groupWord {g : List UInt8} (h : g.length = 16) : wordBytes 16 (groupWord g) = g := by
  have hback := toBytes_ofBytes g.reverse
  rw [List.length_reverse, h] at hback
  rw [wordBytes, toNat_groupWord h.le, bigEndian, hback, List.reverse_reverse]

/-- Zeros in front change nothing, and zeros behind shift. -/
lemma groupWord_zeros (a b : ℕ) (bs : List UInt8) :
    groupWord (List.replicate a 0 ++ bs ++ List.replicate b 0)
      = BitVec.ofNat 128 (bigEndian bs * 256 ^ b) := by
  rw [groupWord, bigEndian_append, bigEndian_append, bigEndian_replicate_zero,
    bigEndian_replicate_zero, List.length_replicate, Nat.zero_mul, Nat.zero_add, Nat.add_zero]

/-- One more group behind the bytes read. -/
lemma or_groupWord (q g : List UInt8) :
    BitVec.ofNat 128 (bigEndian q * 256 ^ g.length) ||| groupWord g = groupWord (q ++ g) := by
  have hg : bigEndian g < 2 ^ (8 * g.length) := by
    rw [Nat.pow_mul]
    exact bigEndian_lt g
  have hpow : 256 ^ g.length = 2 ^ (8 * g.length) := (Nat.pow_mul 2 8 g.length).symm
  rw [groupWord, ← BitVec.ofNat_or, groupWord, bigEndian_append, hpow, Nat.mul_comm,
    ← Nat.two_pow_add_eq_or_of_lt hg]

lemma ofNat_shiftLeft (n k : ℕ) :
    BitVec.ofNat 128 n <<< (8 * k) = BitVec.ofNat 128 (n * 256 ^ k) := by
  apply BitVec.eq_of_toNat_eq
  rw [BitVec.toNat_shiftLeft, BitVec.toNat_ofNat, BitVec.toNat_ofNat, Nat.shiftLeft_eq,
    Nat.pow_mul, Nat.mod_mul_mod]

/-- The bytes of the word stored for these groups. The last word of a sequence, if its groups do not
fill it, is shifted by one group and then by one byte for each group that is missing. -/
def layout (sz num : ℕ) (g : List (List UInt8)) : List UInt8 :=
  if g.length = num then g.flatten
  else List.replicate ((sz - 1) * (num - g.length - 1)) 0 ++ g.flatten
    ++ List.replicate (sz + (num - g.length) - 1) 0

section store

variable {sz num : ℕ} {p : List (List UInt8)}

/-- Fewer groups than a word holds are gathered in `temp_word`. -/
lemma storeWords_gather (hp : ∀ g ∈ p, g.length = sz) (q : List UInt8) (k : ℕ) (rest : List Word)
    (h : k + p.length < num) :
    storeWords (8 * sz) num (p.map groupWord ++ rest) (BitVec.ofNat 128 (bigEndian q * 256 ^ sz))
        (num - k)
      = storeWords (8 * sz) num rest (BitVec.ofNat 128 (bigEndian (q ++ p.flatten) * 256 ^ sz))
          (num - (k + p.length)) := by
  induction p generalizing q k with
  | nil => simp
  | cons g p ih =>
    have hg : g.length = sz := hp g List.mem_cons_self
    rw [List.length_cons] at h
    have hshift : (BitVec.ofNat 128 (bigEndian q * 256 ^ sz) ||| groupWord g) <<< (8 * sz)
        = BitVec.ofNat 128 (bigEndian (q ++ g) * 256 ^ sz) := by
      rw [← hg, or_groupWord, groupWord, ofNat_shiftLeft]
    have hrec := ih (fun x hx => hp x (List.mem_cons_of_mem g hx)) (q ++ g) (k + 1) (by omega)
    rw [List.append_assoc, ← List.flatten_cons] at hrec
    rw [List.map_cons, List.cons_append, storeWords, if_pos (by omega), hshift,
      show num - k - 1 = num - (k + 1) by omega, hrec, List.length_cons,
      show k + 1 + p.length = k + (p.length + 1) by omega]

/-- The same from the start of a word. -/
lemma storeWords_start (hp : ∀ g ∈ p, g.length = sz) (rest : List Word) (h : p.length < num) :
    storeWords (8 * sz) num (p.map groupWord ++ rest) 0 num
      = storeWords (8 * sz) num rest (BitVec.ofNat 128 (bigEndian p.flatten * 256 ^ sz))
          (num - p.length) := by
  have hgather := storeWords_gather hp [] 0 rest (by rwa [Nat.zero_add])
  have hzero : BitVec.ofNat 128 (bigEndian [] * 256 ^ sz) = 0 := by
    show BitVec.ofNat 128 (0 * 256 ^ sz) = BitVec.ofNat 128 0
    rw [Nat.zero_mul]
  rwa [List.nil_append, Nat.zero_add, Nat.sub_zero, hzero] at hgather

/-- As many groups as a word holds are a word. -/
lemma storeWords_chunk (hp : ∀ g ∈ p, g.length = sz) (hnum : 0 < num) (hlen : p.length = num)
    (rest : List Word) :
    storeWords (8 * sz) num (p.map groupWord ++ rest) 0 num
      = groupWord p.flatten :: storeWords (8 * sz) num rest 0 num := by
  obtain ⟨q, g, rfl⟩ : ∃ q g, p = q ++ [g] := by
    have hne : p ≠ [] := by
      rintro rfl
      rw [List.length_nil] at hlen
      omega
    exact ⟨p.dropLast, p.getLast hne, (List.dropLast_concat_getLast hne).symm⟩
  have hg : g.length = sz := hp g (by simp)
  rw [List.length_append, List.length_singleton] at hlen
  rw [List.map_append, List.append_assoc,
    storeWords_start (fun x hx => hp x (List.mem_append_left [g] hx)) _
      (show q.length < num by omega),
    List.map_singleton, List.singleton_append, storeWords, if_neg (by omega), ← hg, or_groupWord,
    List.flatten_append, List.flatten_singleton]

/-- Fewer groups are a word of their own. -/
lemma storeWords_last (hp : ∀ g ∈ p, g.length = sz) (hpos : 0 < p.length) (hlen : p.length < num) :
    storeWords (8 * sz) num (p.map groupWord) 0 num = [groupWord (layout sz num p)] := by
  have hstart := storeWords_start hp [] hlen
  have hleft : num - p.length ≠ num := by omega
  rw [List.append_nil] at hstart
  rw [hstart, storeWords, if_pos hleft, layout, if_neg hlen.ne, groupWord_zeros]
  by_cases hone : num - p.length > 1
  · rw [if_pos hone, ofNat_shiftLeft, Nat.mul_assoc, ← Nat.pow_add,
      show sz + (num - p.length - 1) = sz + (num - p.length) - 1 by omega]
  · rw [if_neg hone, show sz + (num - p.length) - 1 = sz by omega]

/-- The words stored are those of the chunks. -/
theorem storeWords_eq (hp : ∀ g ∈ p, g.length = sz) (hnum : 0 < num) :
    storeWords (8 * sz) num (p.map groupWord) 0 num
      = (chunks num p).map fun g => groupWord (layout sz num g) := by
  induction p using chunk_induction hnum with
  | nil => simp [storeWords]
  | short p hpos hlt => rw [storeWords_last hp hpos hlt, chunks_short hpos hlt.le, List.map_singleton]
  | chunk xs p hxs ih =>
    rw [List.map_append, storeWords_chunk (fun g hg => hp g (List.mem_append_left p hg)) hnum hxs,
      ih fun g hg => hp g (List.mem_append_right xs hg), chunks_append hxs hnum, List.map_cons,
      layout, if_pos hxs]

lemma length_storeWords (hp : ∀ g ∈ p, g.length = sz) (hnum : 0 < num) :
    (storeWords (8 * sz) num (p.map groupWord) 0 num).length = (p.length + num - 1) / num := by
  rw [storeWords_eq hp hnum, List.length_map, length_chunks hnum]

lemma length_layout (hp : ∀ g ∈ p, g.length = sz) (hsz : sz * num = 16) (hlen : p.length ≤ num) :
    (layout sz num p).length = 16 := by
  have hflat : p.flatten.length = sz * p.length := length_flatten_of_forall hp
  rw [layout]
  split
  · rename_i hfull
    rw [hflat, hfull, hsz]
  · rename_i hpart
    obtain ⟨k, hk⟩ : ∃ k, num = p.length + k + 1 := ⟨num - p.length - 1, by omega⟩
    obtain ⟨m, rfl⟩ : ∃ m, sz = m + 1 := ⟨sz - 1, by
      have hpos : sz ≠ 0 := by
        rintro rfl
        omega
      omega⟩
    have hmul : (m + 1) * num = (m + 1) * p.length + (m * k + (m + 1 + k)) := by
      rw [hk]
      ring
    simp only [List.length_append, List.length_replicate, hflat]
    rw [show num - p.length - 1 = k by omega, show m + 1 - 1 = m by omega,
      show m + 1 + (num - p.length) - 1 = m + 1 + k by omega]
    omega

/-- The bytes of the words stored. -/
theorem flatMap_storeWords (hp : ∀ g ∈ p, g.length = sz) (hsz : sz * num = 16) :
    (storeWords (8 * sz) num (p.map groupWord) 0 num).flatMap (wordBytes 16)
      = (chunks num p).flatMap (layout sz num) := by
  have hnum : 0 < num := by
    rcases Nat.eq_zero_or_pos num with rfl | hpos
    · omega
    · exact hpos
  rw [storeWords_eq hp hnum, List.flatMap_map, List.flatMap_def, List.flatMap_def]
  congr 1
  apply List.map_congr_left
  intro g hg
  exact wordBytes_groupWord (length_layout (fun x hx => hp x (mem_of_mem_chunks hnum hg hx)) hsz
    (length_le_of_mem_chunks hnum hg))

/-- Groups that fill words, and fewer groups than fill one. -/
lemma flatMap_layout (hnum : 0 < num) {q t : List (List UInt8)} (hq : num ∣ q.length)
    (ht : t.length < num) :
    (chunks num (q ++ t)).flatMap (layout sz num)
      = q.flatten ++ if t = [] then [] else layout sz num t := by
  have hfull : (chunks num q).flatMap (layout sz num) = q.flatten := by
    rw [List.flatMap_def, List.map_congr_left (g := List.flatten), ← List.flatten_flatten,
      flatten_chunks hnum]
    intro g hg
    rw [layout, if_pos (length_of_mem_chunks hnum hq hg)]
  rw [chunks_append_of_dvd hnum hq, List.flatMap_append, hfull]
  congr 1
  split
  · rename_i hnil
    rw [hnil, chunks_nil, List.flatMap_nil]
  · rename_i hne
    rw [chunks_short (List.length_pos_iff.mpr hne) ht.le, List.flatMap_cons, List.flatMap_nil,
      List.append_nil]

end store

/-! ## The words of a byte array -/

lemma paddedBytes_le (size : ℕ) : paddedBytes size ≤ 16 := by
  rw [paddedBytes, numWords]
  omega

lemma sub_paddedBytes (size : ℕ) : 16 * numWords size - paddedBytes size = size := by
  rw [paddedBytes, numWords]
  omega

lemma map_byteWord (bs : List UInt8) :
    bs.map byteWord = (bs.map fun b => [b]).map groupWord := by
  rw [List.map_map]
  apply List.map_congr_left
  intro b _
  simp [byteWord, groupWord, bigEndian, ofBytes]

lemma length_of_mem_singletons {bs g : List UInt8} (hg : g ∈ bs.map fun b => [b]) :
    g.length = 1 := by
  obtain ⟨b, -, rfl⟩ := List.mem_map.mp hg
  rfl

lemma length_storeWords_bytes (bs : List UInt8) :
    (storeWords 8 16 (bs.map byteWord) 0 16).length = numWords bs.length := by
  have hlen : (storeWords (8 * 1) 16 ((bs.map fun b => [b]).map groupWord) 0 16).length
      = ((bs.map fun b => [b]).length + 16 - 1) / 16 :=
    length_storeWords (fun g hg => length_of_mem_singletons hg) (by decide)
  rw [List.length_map] at hlen
  rw [map_byteWord, numWords]
  exact hlen

/-- The bytes are followed by zeros. -/
lemma flatMap_storeWords_bytes (bs : List UInt8) :
    (storeWords 8 16 (bs.map byteWord) 0 16).flatMap (wordBytes 16)
      = bs ++ List.replicate (paddedBytes bs.length) 0 := by
  have hbytes : (storeWords (8 * 1) 16 ((bs.map fun b => [b]).map groupWord) 0 16).flatMap
      (wordBytes 16) = (chunks 16 (bs.map fun b => [b])).flatMap (layout 1 16) :=
    flatMap_storeWords (fun g hg => length_of_mem_singletons hg) rfl
  rw [← map_byteWord] at hbytes
  refine Eq.trans hbytes ?_
  -- the bytes that fill words, and the others
  obtain ⟨q, t, rfl, hq, ht⟩ : ∃ q t, bs = q ++ t ∧ 16 ∣ q.length ∧ t.length < 16 := by
    refine ⟨bs.take (16 * (bs.length / 16)), bs.drop (16 * (bs.length / 16)),
      (List.take_append_drop _ bs).symm, ⟨bs.length / 16, ?_⟩, ?_⟩
    · rw [List.length_take]
      omega
    · rw [List.length_drop]
      omega
  have hsingles (l : List UInt8) : (l.map fun b => [b]).flatten = l := by
    rw [← List.flatMap_def, List.flatMap_singleton']
  rw [List.map_append, flatMap_layout (by decide) (by rwa [List.length_map])
    (by rwa [List.length_map]), hsingles, List.append_assoc]
  congr 1
  by_cases hnil : t = []
  · have hpad : paddedBytes (q ++ t).length = 0 := by
      rw [paddedBytes, numWords, hnil, List.append_nil]
      omega
    rw [if_pos (by rw [hnil, List.map_nil]), hpad, hnil]
    rfl
  · have hpos := List.length_pos_iff.mpr hnil
    have hpad : 16 - t.length = paddedBytes (q ++ t).length := by
      rw [paddedBytes, numWords, List.length_append]
      omega
    rw [if_neg (by rwa [List.map_eq_nil_iff]), layout, List.length_map, if_neg ht.ne, hsingles,
      Nat.sub_self, Nat.zero_mul, List.replicate_zero, List.nil_append, ← hpad]
    congr 2
    omega

/-! ## The type -/

/-- `fixed_bytes<Size>` -/
structure FixedBytes (size : ℕ) where
  data : List Word
  length_eq : data.length = numWords size
deriving DecidableEq

namespace FixedBytes

variable {size : ℕ}

/-- The default constructor. -/
def zero (size : ℕ) : FixedBytes size := ⟨List.replicate (numWords size) 0, List.length_replicate⟩

/-- The constructor from a full array of bytes. -/
def ofByteArray (arr : List UInt8) (h : arr.length = size) : FixedBytes size :=
  ⟨storeWords 8 16 (arr.map byteWord) 0 16, h ▸ length_storeWords_bytes arr⟩

/-- `extract_as_byte_array` -/
def extractAsByteArray (d : FixedBytes size) : List UInt8 := extractWords (paddedBytes size) d.data

/-- All the bytes of the words, with the padding. -/
def allBytes (d : FixedBytes size) : List UInt8 := d.data.flatMap (wordBytes 16)

lemma length_allBytes (d : FixedBytes size) : d.allBytes.length = 16 * numWords size := by
  rw [allBytes, length_flatMap_wordBytes, d.length_eq]

lemma extract_eq_take (d : FixedBytes size) : d.extractAsByteArray = d.allBytes.take size := by
  rw [extractAsByteArray, extractWords_eq_take (paddedBytes_le size), d.length_eq,
    sub_paddedBytes, allBytes]

lemma size_le_length_allBytes (d : FixedBytes size) : size ≤ d.allBytes.length := by
  have hsub := sub_paddedBytes size
  rw [length_allBytes]
  omega

lemma length_extract (d : FixedBytes size) : d.extractAsByteArray.length = size := by
  rw [extract_eq_take, List.length_take, Nat.min_eq_left d.size_le_length_allBytes]

lemma allBytes_ofByteArray (arr : List UInt8) (h : arr.length = size) :
    (ofByteArray arr h).allBytes = arr ++ List.replicate (paddedBytes size) 0 := by
  rw [allBytes, ofByteArray, flatMap_storeWords_bytes, h]

theorem extract_ofByteArray (arr : List UInt8) (h : arr.length = size) :
    (ofByteArray arr h).extractAsByteArray = arr := by
  rw [extract_eq_take, allBytes_ofByteArray, List.take_left' h]

end FixedBytes

end UosioCdt.Core
