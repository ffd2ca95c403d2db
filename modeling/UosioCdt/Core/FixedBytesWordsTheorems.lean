import UosioCdt.Core.FixedBytesTheorems

/-!
# The bytes of words

`set_from_word_sequence` as bytes: the groups that fill internal words, the last word with the shift
that the source gives it, and the words left as they were.
-/

namespace UosioCdt.Core

open Chunks LittleEndian

variable {size : ℕ}

namespace WordSequence

/-- The bytes of the words, one word after another. -/
def bytes (s : WordSequence size) : List UInt8 := s.groups.flatten

/-- How many words are in internal words that are filled. -/
def fullCount (s : WordSequence size) : ℕ :=
  s.type.numSubWords * (s.words.length / s.type.numSubWords)

/-- The words that do not fill an internal word. -/
def lastWords (s : WordSequence size) : List (BitVec (8 * s.type.bytes)) :=
  s.words.drop s.fullCount

def lastGroups (s : WordSequence size) : List (List UInt8) := s.groups.drop s.fullCount

def lastBytes (s : WordSequence size) : List UInt8 := s.lastGroups.flatten

/-- The shift of the last internal word in bytes. -/
def lastShift (s : WordSequence size) : ℕ :=
  s.type.bytes + (s.type.numSubWords - s.lastWords.length) - 1

/-- The words that do not fill an internal word, if there are any, are single bytes, or lack one to
fill it, or are all zero. -/
def Aligned (s : WordSequence size) : Prop :=
  s.type.bytes = 1 ∨ s.lastWords.length + 1 = s.type.numSubWords ∨ ∀ w ∈ s.lastWords, w = 0

/-- Every internal word is stored. -/
def FillsAll (s : WordSequence size) : Prop := s.storedCount = numWords size

/-- The bytes of the last internal word that its shift leaves behind `size` are zero. -/
def TailClear (s : WordSequence size) : Prop :=
  ∀ x ∈ s.lastBytes.drop (s.lastBytes.length + s.lastShift - paddedBytes size), x = 0

instance (s : WordSequence size) : Decidable s.Aligned := by unfold Aligned; infer_instance

instance (s : WordSequence size) : Decidable s.FillsAll := by unfold FillsAll; infer_instance

instance (s : WordSequence size) : Decidable s.TailClear :=
  List.decidableBAll (fun x : UInt8 => x = 0) _

section layout

variable (s : WordSequence size)

lemma length_groups : s.groups.length = s.words.length := by rw [groups, List.length_map]

lemma fullCount_le : s.fullCount ≤ s.words.length := Nat.mul_div_le _ _

lemma length_lastGroups : s.lastGroups.length = s.lastWords.length := by
  rw [lastGroups, List.length_drop, length_groups, lastWords, List.length_drop]

lemma length_lastWords : s.lastWords.length = s.words.length % s.type.numSubWords := by
  have hsplit := Nat.div_add_mod s.words.length s.type.numSubWords
  rw [lastWords, List.length_drop, fullCount]
  omega

lemma length_lastWords_lt : s.lastWords.length < s.type.numSubWords := by
  rw [length_lastWords]
  exact Nat.mod_lt _ (numSubWords_pos s.type)

lemma length_of_mem_lastGroups : ∀ g ∈ s.lastGroups, g.length = s.type.bytes :=
  fun g hg => s.length_of_mem_groups g (List.mem_of_mem_drop hg)

lemma length_lastBytes : s.lastBytes.length = s.type.bytes * s.lastWords.length := by
  rw [lastBytes, length_flatten_of_forall s.length_of_mem_lastGroups, length_lastGroups]

lemma lastWords_eq_map : s.lastGroups
    = s.lastWords.map fun w => (toBytes s.type.bytes w.toNat).reverse := by
  rw [lastGroups, groups, lastWords, List.map_drop]

/-- The bytes of the last words are zero when these are. -/
lemma forall_mem_lastBytes_iff : (∀ x ∈ s.lastBytes, x = 0) ↔ ∀ w ∈ s.lastWords, w = 0 := by
  have hword (w : BitVec (8 * s.type.bytes)) :
      (∀ x ∈ (toBytes s.type.bytes w.toNat).reverse, x = 0) ↔ w = 0 := by
    have hlt : w.toNat < 256 ^ s.type.bytes := by
      rw [show 256 = 2 ^ 8 by rfl, ← Nat.pow_mul]
      exact w.isLt
    simp only [List.mem_reverse]
    rw [forall_mem_toBytes_iff, Nat.mod_eq_of_lt hlt]
    exact BitVec.toNat_inj (x := w) (y := 0#_)
  rw [lastBytes, lastWords_eq_map]
  constructor
  · intro hzero w hw
    rw [← hword]
    exact fun x hx => hzero x (List.mem_flatten.mpr ⟨_, List.mem_map_of_mem hw, hx⟩)
  · intro hzero x hx
    obtain ⟨g, hg, hxg⟩ := List.mem_flatten.mp hx
    obtain ⟨w, hw, rfl⟩ := List.mem_map.mp hg
    exact (hword w).mpr (hzero w hw) x hxg

/-- The bytes of the internal words that are filled. -/
def fullBytes : List UInt8 := (s.groups.take s.fullCount).flatten

lemma bytes_eq : s.bytes = s.fullBytes ++ s.lastBytes := by
  rw [bytes, fullBytes, lastBytes, lastGroups, ← List.flatten_append, List.take_append_drop]

/-- The bytes of the internal words stored. -/
def storedBytes : List UInt8 := s.stored.flatMap (wordBytes 16)

lemma length_storedBytes : s.storedBytes.length = 16 * s.storedCount := by
  rw [storedBytes, length_flatMap_wordBytes, length_stored]

lemma storedBytes_eq : s.storedBytes = s.fullBytes ++ if s.lastGroups = [] then []
    else layout s.type.bytes s.type.numSubWords s.lastGroups := by
  have hdvd : s.type.numSubWords ∣ (s.groups.take s.fullCount).length := by
    rw [List.length_take, length_groups, Nat.min_eq_left s.fullCount_le]
    exact Nat.dvd_mul_right _ _
  have hlt : s.lastGroups.length < s.type.numSubWords := by
    rw [length_lastGroups]
    exact s.length_lastWords_lt
  rw [storedBytes, stored_eq, flatMap_storeWords s.length_of_mem_groups
    (bytes_mul_numSubWords s.type), fullBytes, ← flatMap_layout (numSubWords_pos s.type) hdvd hlt,
    lastGroups, List.take_append_drop]

/-- The bytes of the value: those stored, and those that were there. -/
lemma allBytes_setFromWordSequence (key : FixedBytes size) :
    (s.setFromWordSequence key).allBytes
      = s.storedBytes ++ key.allBytes.drop (16 * s.storedCount) := by
  rw [FixedBytes.allBytes, setFromWordSequence, List.flatMap_append,
    flatMap_drop (length_wordBytes 16), length_stored]
  rfl

lemma length_bytes_le : s.bytes.length ≤ size := by
  rw [bytes, length_flatten_of_forall s.length_of_mem_groups, length_groups]
  exact s.fits

/-- The last internal word as bytes: zeros in front that the shift leaves, and zeros behind. -/
lemma storedBytes_of_ne (h : s.lastGroups ≠ []) : ∃ k,
    s.storedBytes = s.fullBytes ++ (List.replicate k 0 ++ s.lastBytes
      ++ List.replicate s.lastShift 0) ∧ k + s.lastBytes.length + s.lastShift = 16 ∧
    (k = 0 ↔ s.type.bytes = 1 ∨ s.lastWords.length + 1 = s.type.numSubWords) := by
  have hlt := s.length_lastWords_lt
  have hpos := bytes_pos s.type
  have hlayout : layout s.type.bytes s.type.numSubWords s.lastGroups
      = List.replicate ((s.type.bytes - 1) * (s.type.numSubWords - s.lastWords.length - 1)) 0
        ++ s.lastBytes ++ List.replicate s.lastShift 0 := by
    rw [layout, if_neg (by rw [length_lastGroups]; exact hlt.ne), length_lastGroups, lastShift,
      lastBytes]
  refine ⟨(s.type.bytes - 1) * (s.type.numSubWords - s.lastWords.length - 1), ?_, ?_, ?_⟩
  · rw [storedBytes_eq, if_neg h, hlayout]
  · have hlen := length_layout s.length_of_mem_lastGroups (bytes_mul_numSubWords s.type)
      (by rw [length_lastGroups]; exact hlt.le)
    rw [hlayout, List.length_append, List.length_append, List.length_replicate,
      List.length_replicate] at hlen
    exact hlen
  · rw [Nat.mul_eq_zero]
    omega

/-! ## The bytes extracted -/

/-- Bytes between zeros, as far as `m` zeros behind the bytes reach, are the bytes and the zeros only
when none are in front or all are zero. -/
lemma take_between_zeros_iff {l : List UInt8} {k b n m : ℕ} (hlen : k + l.length + b = n) :
    (List.replicate k 0 ++ l ++ List.replicate b 0).take (l.length + m)
      = (l ++ List.replicate m 0).take n ↔ k = 0 ∨ ∀ x ∈ l, x = 0 := by
  constructor
  · intro h
    rcases k with - | k
    · exact .inl rfl
    · right
      -- the bytes are also where the zeros in front are
      have hright : l <+: (l ++ List.replicate m 0).take n := by
        rw [List.prefix_take_iff]
        exact ⟨List.prefix_append _ _, by omega⟩
      rw [← h] at hright
      have hshifted : l <+: List.replicate (k + 1) 0 ++ l :=
        List.prefix_of_prefix_length_le (hright.trans (List.take_prefix _ _))
          (List.prefix_append _ _) (by simp)
      exact eq_of_prefix_replicate_append hshifted
  · rintro (rfl | hzero)
    · rw [List.replicate_zero, List.nil_append, List.take_length_add_append, List.take_replicate,
        show n = l.length + b by omega, List.take_length_add_append, List.take_replicate,
        Nat.min_comm]
    · have hall : l = List.replicate l.length 0 := List.eq_replicate_iff.mpr ⟨rfl, hzero⟩
      rw [hall]
      simp only [List.replicate_append_replicate, List.take_replicate, List.length_replicate]
      rw [hlen, Nat.min_comm]

/-- The words stored are the words one after another exactly when the last one is aligned. -/
lemma storedBytes_take_iff : s.storedBytes.take size
    = (s.bytes ++ List.replicate (size - s.bytes.length) 0).take (16 * s.storedCount)
      ↔ s.Aligned := by
  have hfits := s.length_bytes_le
  by_cases hnil : s.lastGroups = []
  · have hbytes : s.bytes = s.storedBytes := by
      rw [bytes_eq, storedBytes_eq, if_pos hnil, lastBytes, hnil, List.flatten_nil]
    have hwords : s.lastWords = [] := by
      rw [← List.length_eq_zero_iff, ← length_lastGroups, hnil, List.length_nil]
    rw [hbytes] at hfits ⊢
    refine iff_of_true ?_ (.inr (.inr fun w hw => ?_))
    · rw [List.take_of_length_le hfits, ← length_storedBytes, List.take_left]
    · rw [hwords] at hw
      cases hw
  · obtain ⟨k, hstored, hlen, hk⟩ := s.storedBytes_of_ne hnil
    have hcount := s.length_storedBytes
    rw [hstored] at hcount
    simp only [List.length_append, List.length_replicate] at hcount
    rw [bytes_eq, List.length_append] at hfits
    obtain ⟨m, hm⟩ : ∃ m, size = s.fullBytes.length + (s.lastBytes.length + m) :=
      ⟨size - s.fullBytes.length - s.lastBytes.length, by omega⟩
    have hrest : size - s.bytes.length = m := by
      rw [bytes_eq, List.length_append]
      omega
    have hsixteen : 16 * s.storedCount = s.fullBytes.length + 16 := by omega
    rw [hrest, hstored, hsixteen, bytes_eq, List.append_assoc s.fullBytes,
      List.take_length_add_append]
    nth_rewrite 1 [hm]
    rw [List.take_length_add_append, List.append_right_inj, take_between_zeros_iff hlen, hk,
      or_assoc, forall_mem_lastBytes_iff, Aligned]

/-- The bytes extracted are the words, and zeros, exactly when the last word stored is aligned and
the words behind it hold zeros. -/
lemma extract_setFromWordSequence_iff (key : FixedBytes size) :
    (s.setFromWordSequence key).extractAsByteArray
      = s.bytes ++ List.replicate (size - s.bytes.length) 0 ↔
    s.Aligned ∧ ∀ x ∈ (key.allBytes.drop (16 * s.storedCount)).take (size - 16 * s.storedCount),
      x = 0 := by
  have hfits := s.length_bytes_le
  have hcount := s.length_storedBytes
  have hkey := key.size_le_length_allBytes
  have hlen : (s.storedBytes.take size).length
      = ((s.bytes ++ List.replicate (size - s.bytes.length) 0).take (16 * s.storedCount)).length := by
    simp only [List.length_take, List.length_append, List.length_replicate, hcount]
    omega
  have hbytes : s.bytes.length ≤ 16 * s.storedCount := by
    rw [← hcount]
    by_cases hnil : s.lastGroups = []
    · rw [bytes_eq, storedBytes_eq, if_pos hnil, lastBytes, hnil]
      simp
    · obtain ⟨k, hstored, -⟩ := s.storedBytes_of_ne hnil
      rw [bytes_eq, hstored]
      simp only [List.length_append]
      omega
  have hdrop : (s.bytes ++ List.replicate (size - s.bytes.length) 0).drop (16 * s.storedCount)
      = List.replicate (size - 16 * s.storedCount) 0 := by
    rw [List.drop_append, List.drop_of_length_le hbytes, List.nil_append, List.drop_replicate]
    congr 1
    omega
  rw [FixedBytes.extract_eq_take, allBytes_setFromWordSequence, List.take_append, hcount]
  nth_rewrite 1 [← List.take_append_drop (16 * s.storedCount)
    (s.bytes ++ List.replicate (size - s.bytes.length) 0)]
  rw [hdrop, ← storedBytes_take_iff]
  constructor
  · intro h
    obtain ⟨hstored, hrest⟩ := List.append_inj h hlen
    refine ⟨hstored, fun x hx => ?_⟩
    rw [hrest] at hx
    exact List.eq_of_mem_replicate hx
  · rintro ⟨hstored, hzero⟩
    rw [hstored, List.eq_replicate_iff.mpr ⟨?_, hzero⟩]
    have hle := s.storedCount_le
    have hall := key.length_allBytes
    rw [List.length_take, List.length_drop]
    omega

/-! ## The padding -/

/-- The padding is that of the last word stored, or of the memory behind it. -/
lemma paddingZero_setFromWordSequence_iff (key : FixedBytes size) :
    (s.setFromWordSequence key).PaddingZero ↔
      if s.FillsAll then s.TailClear else key.PaddingZero := by
  have hfits := s.length_bytes_le
  have hcount := s.length_storedBytes
  have hpadded : paddedBytes size = numWords size * 16 - size := rfl
  have hwords : numWords size = (size + 16 - 1) / 16 := rfl
  rw [FixedBytes.paddingZero_iff, allBytes_setFromWordSequence, List.drop_append, hcount]
  by_cases hfills : s.FillsAll
  · have hcount' : s.storedCount = numWords size := hfills
    have hrest : key.allBytes.drop (16 * s.storedCount) = [] := by
      rw [List.drop_eq_nil_iff, key.length_allBytes, hcount']
    rw [if_pos hfills, hrest, List.drop_nil, List.append_nil, TailClear]
    by_cases hnil : s.lastGroups = []
    · -- the words end where the value does
      have hbytes : s.bytes = s.storedBytes := by
        rw [bytes_eq, storedBytes_eq, if_pos hnil, lastBytes, hnil, List.flatten_nil]
      rw [hbytes] at hfits
      rw [List.drop_of_length_le hfits, lastBytes, hnil]
      simp
    · obtain ⟨k, hstored, hlen, -⟩ := s.storedBytes_of_ne hnil
      rw [hstored] at hcount
      simp only [List.length_append, List.length_replicate] at hcount
      have hsize : size = s.fullBytes.length + (16 - paddedBytes size) := by omega
      have hsub : 16 - paddedBytes size - k
          = s.lastBytes.length + s.lastShift - paddedBytes size := by omega
      rw [hstored]
      nth_rewrite 1 [hsize]
      rw [List.drop_length_add_append, List.append_assoc, List.drop_append, List.length_replicate,
        List.drop_append, hsub]
      simp only [List.mem_append, List.drop_replicate, List.mem_replicate]
      constructor
      · exact fun h x hx => h x (.inr (.inl hx))
      · rintro h x (⟨-, hx⟩ | hx | ⟨-, hx⟩)
        · exact hx
        · exact h x hx
        · exact hx
  · have hle := s.storedCount_le
    have hne : s.storedCount ≠ numWords size := hfills
    have hbehind : 16 * s.storedCount ≤ size := by omega
    rw [if_neg hfills, List.drop_of_length_le (hcount.trans_le hbehind), List.nil_append,
      List.drop_drop, Nat.add_sub_cancel' hbehind, ← FixedBytes.paddingZero_iff]

end layout

end WordSequence

/-! ## Memory -/

namespace FixedBytes

instance : Inhabited (FixedBytes size) := ⟨zero size⟩

/-- Memory that holds ones only. -/
def ones (size : ℕ) : FixedBytes size :=
  ⟨List.replicate (numWords size) (BitVec.allOnes 128), List.length_replicate⟩

lemma allBytes_ones (size : ℕ) : (ones size).allBytes = List.replicate (16 * numWords size) 255 := by
  have hword : wordBytes 16 (BitVec.allOnes 128) = List.replicate 16 255 := by decide
  rw [allBytes, ones, List.flatMap_replicate, hword, List.flatten_replicate_replicate, Nat.mul_comm]

/-- Zeros in a part of the memory, whatever this holds, are in no part of it. -/
lemma forall_memory_take_iff {k n : ℕ} (h : k + n ≤ 16 * numWords size) :
    (∀ memory : FixedBytes size, ∀ x ∈ (memory.allBytes.drop k).take n, x = 0) ↔ n = 0 := by
  constructor
  · intro hzero
    have hones := hzero (ones size)
    rw [allBytes_ones, List.drop_replicate, List.take_replicate, Nat.min_eq_left (by omega)] at hones
    by_contra hn
    exact absurd (hones 255 (List.mem_replicate.mpr ⟨hn, rfl⟩)) (by decide)
  · rintro rfl memory x hx
    rw [List.take_zero] at hx
    cases hx

lemma forall_memory_paddingZero_iff :
    (∀ memory : FixedBytes size, memory.PaddingZero) ↔ paddedBytes size = 0 := by
  have hsub := sub_paddedBytes size
  have hle : paddedBytes size ≤ 16 * numWords size := by rw [paddedBytes]; omega
  have hbound : size + paddedBytes size ≤ 16 * numWords size := by omega
  rw [← forall_memory_take_iff hbound]
  have htake (memory : FixedBytes size) :
      (memory.allBytes.drop size).take (paddedBytes size) = memory.allBytes.drop size := by
    apply List.take_of_length_le
    rw [List.length_drop, length_allBytes]
    omega
  simp only [paddingZero_iff, htake]

end FixedBytes

/-! ## The bytes of words -/

namespace WordSource

/-- The bytes of the words, each highest byte first, one word after another. -/
def bytes : WordSource size → List UInt8
  | .wordArray arr _ => arr.flatMap (wordBytes 16)
  | .stdArray arr _ => arr.bytes
  | .cArray arr _ _ => arr.bytes
  | .makeFromWordSequence words _ => words.bytes

/-- The bytes extracted are those of the words, padded with zeros, and depend on the words alone. -/
structure Concatenates (source : WordSource size) : Prop where
  extract : ∀ memory, (source.build memory).extractAsByteArray
    = source.bytes ++ List.replicate (size - source.bytes.length) 0
  independent : ∀ memory memory', (source.build memory).extractAsByteArray
    = (source.build memory').extractAsByteArray

/-- The last word stored is aligned, and the constructors from arrays store every internal word. -/
def Exact : WordSource size → Prop
  | .wordArray _ _ => True
  | .stdArray arr _ => arr.Aligned ∧ arr.FillsAll
  | .cArray arr _ _ => arr.Aligned ∧ arr.FillsAll
  | .makeFromWordSequence words _ => words.Aligned

/-- The second part follows from the first one. -/
lemma concatenates_iff_extract (source : WordSource size) :
    source.Concatenates ↔ ∀ memory, (source.build memory).extractAsByteArray
      = source.bytes ++ List.replicate (size - source.bytes.length) 0 :=
  ⟨fun h => h.extract, fun h => ⟨h, fun memory memory' => (h memory).trans (h memory').symm⟩⟩

/-- An array stored into memory that may hold anything. -/
lemma forall_memory_extract_iff (arr : WordSequence size) :
    (∀ memory, (arr.setFromWordSequence memory).extractAsByteArray
      = arr.bytes ++ List.replicate (size - arr.bytes.length) 0) ↔ arr.Aligned ∧ arr.FillsAll := by
  have hle := arr.storedCount_le
  have hpadded : paddedBytes size = numWords size * 16 - size := rfl
  have hwords : numWords size = (size + 16 - 1) / 16 := rfl
  by_cases hcount : 16 * arr.storedCount ≤ size
  · simp only [arr.extract_setFromWordSequence_iff, forall_and, forall_const]
    rw [FixedBytes.forall_memory_take_iff (by omega), WordSequence.FillsAll]
    refine and_congr_right fun _ => ?_
    omega
  · -- the last internal word is stored, and nothing is behind it
    have hfills : arr.FillsAll := by
      rw [WordSequence.FillsAll]
      omega
    have hnone : size - 16 * arr.storedCount = 0 := by omega
    simp only [arr.extract_setFromWordSequence_iff, hnone, List.take_zero, List.not_mem_nil,
      false_implies, implies_true, and_true, forall_const, hfills]

/-- Words that fit are given back one after another, whatever the memory held, exactly when the last
word stored is aligned and, for the constructors from arrays, every internal word is stored. -/
theorem concatenates_iff (source : WordSource size) (hfits : source.bytes.length ≤ size) :
    source.Concatenates ↔ source.Exact := by
  rw [concatenates_iff_extract]
  cases source with
  | wordArray arr h =>
    refine iff_of_true (fun memory => ?_) trivial
    have hlen := length_flatMap_wordBytes arr
    have hwords : numWords size = (size + 16 - 1) / 16 := rfl
    have hsize : (arr.flatMap (wordBytes 16)).length = size := by
      rw [bytes, hlen, h] at hfits
      rw [hlen, h]
      omega
    rw [FixedBytes.extract_eq_take, bytes, hsize, Nat.sub_self, List.replicate_zero, List.append_nil]
    exact List.take_of_length_le hsize.le
  | stdArray arr h => exact forall_memory_extract_iff arr
  | cArray arr h hne => exact forall_memory_extract_iff arr
  | makeFromWordSequence words hne =>
    show (∀ _, (words.setFromWordSequence (.zero size)).extractAsByteArray = _) ↔ words.Aligned
    rw [forall_const, bytes, words.extract_setFromWordSequence_iff, FixedBytes.allBytes_zero,
      List.drop_replicate, List.take_replicate]
    exact and_iff_left fun x hx => List.eq_of_mem_replicate hx

/-- Four words of eight bytes fill 32 bytes. -/
theorem concatenates_iff_u64 :
    let source : WordSource 32 := .makeFromWordSequence ⟨.u64, [1, 2, 3, 4], by decide⟩ (by decide)
    source.Concatenates ↔ source.Exact :=
  concatenates_iff _ (by decide)

/-- One word of four bytes is six bytes behind its place. -/
theorem exists_misplaced : ¬ ∀ (size : ℕ) (source : WordSource size),
    source.bytes.length ≤ size → source.Concatenates := by
  intro h
  have hextract := (h 16 (.makeFromWordSequence ⟨.u32, [1], by decide⟩ (by decide))
    (by decide)).extract (.zero 16)
  exact absurd hextract (by decide)

end WordSource

/-! ## Every construction -/

/-- `pack` of a value makes one call of `write`, with its bytes. -/
lemma FixedBytes.pack_eq (d : FixedBytes size) :
    Ty.pack (.fixedBytes size) d = some d.extractAsByteArray := by
  have hle : (UInt32.ofNat d.extractAsByteArray.length).toNat ≤ d.extractAsByteArray.length := by
    rw [UInt32.toNat_ofNat']
    exact Nat.mod_le _ _
  have hcap : packSize [d.extractAsByteArray] = UInt32.ofNat d.extractAsByteArray.length := by
    rw [packSize, List.foldl_cons, List.foldl_nil, UInt32.zero_add]
  show (packInto (packSize [d.extractAsByteArray]) [d.extractAsByteArray] []).bind _ = _
  rw [packInto, hcap, if_pos, packInto, Option.bind_some, List.nil_append,
    show packSize (Ty.writes (.fixedBytes size) d) = _ from hcap, Nat.sub_eq_zero_of_le hle,
    List.replicate_zero, List.append_nil]
  · rfl
  · rw [List.length_nil, show UInt32.ofNat 0 = 0 by rfl, UInt32.sub_zero, BitVec.sle_iff_toInt_le]

/-- `operator>>` reads the bytes of an array. -/
lemma FixedBytes.read_eq {lt : KeyOrder} {old : FixedBytes size} {bytes : List UInt8}
    (hlen : size ≤ bytes.length) : Ty.read lt (.fixedBytes size) old bytes
      = some (ofByteArray (bytes.take size) (List.length_take_of_le hlen), bytes.drop size) :=
  dif_pos hlen

lemma FixedBytes.read_eq_none {lt : KeyOrder} {old : FixedBytes size} {bytes : List UInt8}
    (hlen : ¬ size ≤ bytes.length) : Ty.read lt (.fixedBytes size) old bytes = none :=
  dif_neg hlen

/-- A value is unpacked from its packed bytes exactly when its padding is zero. -/
lemma FixedBytes.unpack_pack_iff_paddingZero (lt : KeyOrder) (d : FixedBytes size) :
    (Ty.pack (.fixedBytes size) d).bind (Ty.unpack lt (.fixedBytes size)) = some d
      ↔ d.PaddingZero := by
  have hlen := d.length_extract
  have hunpack : Ty.unpack lt (.fixedBytes size) d.extractAsByteArray
      = some (ofByteArray d.extractAsByteArray hlen) := by
    refine (congrArg (Option.map Prod.fst) (read_eq hlen.ge)).trans ?_
    simp only [List.take_of_length_le hlen.le]
    rfl
  rw [pack_eq, Option.bind_some, hunpack, ← ofByteArray_extract_iff]
  exact Option.some_inj

namespace Construction

/-- What zero padding takes: of internal words that the last one has it, of the factory that the
last word stored has it if it is the last internal word, and of an array that this is so, or that
there is no padding. -/
def Clear : Construction size → Prop
  | .default => True
  | .words (.wordArray arr _) =>
    ∀ w, arr.getLast? = some w → ∀ i < 8 * paddedBytes size, w.getLsbD i = false
  | .words (.stdArray arr _) => paddedBytes size = 0 ∨ arr.FillsAll ∧ arr.TailClear
  | .words (.cArray arr _ _) => paddedBytes size = 0 ∨ arr.FillsAll ∧ arr.TailClear
  | .words (.makeFromWordSequence arr _) => arr.FillsAll → arr.TailClear
  | .deserialized _ _ _ _ _ _ => True

lemma forall_memory_setFromWordSequence_iff (arr : WordSequence size) :
    (∀ memory, (arr.setFromWordSequence memory).PaddingZero)
      ↔ paddedBytes size = 0 ∨ arr.FillsAll ∧ arr.TailClear := by
  simp only [arr.paddingZero_setFromWordSequence_iff]
  by_cases hfills : arr.FillsAll
  · simp only [hfills, if_true, forall_const, true_and]
    constructor
    · exact .inr
    · rintro (hnone | htail)
      · intro x hx
        rw [hnone, Nat.sub_zero, List.drop_of_length_le (Nat.le_add_right _ _)] at hx
        cases hx
      · exact htail
  · simp only [hfills, if_false, false_and, or_false]
    exact FixedBytes.forall_memory_paddingZero_iff

/-- The padding of what is built is zero, whatever the memory held, exactly under this condition. -/
theorem paddingZero_build_iff (c : Construction size) :
    (∀ memory, (c.build memory).PaddingZero) ↔ c.Clear := by
  cases c with
  | default => exact iff_of_true (fun _ => FixedBytes.paddingZero_zero size) trivial
  | words source =>
    cases source with
    | wordArray arr h => exact ⟨fun hzero => hzero (.zero size), fun hzero _ => hzero⟩
    | stdArray arr h => exact forall_memory_setFromWordSequence_iff arr
    | cArray arr h hne => exact forall_memory_setFromWordSequence_iff arr
    | makeFromWordSequence arr hne =>
      show (∀ _, (arr.setFromWordSequence (.zero size)).PaddingZero) ↔ _
      rw [forall_const, arr.paddingZero_setFromWordSequence_iff, Clear]
      by_cases hfills : arr.FillsAll
      · rw [if_pos hfills]
        exact ⟨fun htail _ => htail, fun h => h hfills⟩
      · rw [if_neg hfills]
        exact iff_of_true (FixedBytes.paddingZero_zero size) fun hc => absurd hc hfills
  | deserialized lt old bytes d rest h =>
    refine iff_of_true (fun _ => ?_) trivial
    by_cases hlen : size ≤ bytes.length
    · have hread := h.symm.trans (FixedBytes.read_eq hlen)
      obtain ⟨rfl, -⟩ := Prod.mk.inj (Option.some.inj hread)
      exact FixedBytes.paddingZero_ofByteArray _ (List.length_take_of_le hlen)
    · rw [FixedBytes.read_eq_none hlen] at h
      cases h

/-- Zero padding, values with equal bytes that compare equal, and values that are unpacked from their
packed bytes, whatever the memory held. -/
structure Canonical (c c' : Construction size) : Prop where
  padding : ∀ memory, (c.build memory).PaddingZero ∧ (c'.build memory).PaddingZero
  equal : ∀ memory memory',
    (c.build memory).extractAsByteArray = (c'.build memory').extractAsByteArray →
      FixedBytes.compare .eq (c.build memory) (c'.build memory') = true
  unpack : ∀ (lt : KeyOrder) (memory : FixedBytes size), ∀ x ∈ [c.build memory, c'.build memory],
    (Ty.pack (.fixedBytes size) x).bind (Ty.unpack lt (.fixedBytes size)) = some x

theorem canonical_iff (c c' : Construction size) : c.Canonical c' ↔ c.Clear ∧ c'.Clear := by
  constructor
  · intro h
    rw [← paddingZero_build_iff, ← paddingZero_build_iff]
    exact ⟨fun memory => (h.padding memory).1, fun memory => (h.padding memory).2⟩
  · rintro ⟨hc, hc'⟩
    rw [← paddingZero_build_iff] at hc hc'
    refine ⟨fun memory => ⟨hc memory, hc' memory⟩, fun memory memory' hbytes => ?_,
      fun lt memory x hx => ?_⟩
    · rw [FixedBytes.compare_iff_of_paddingZero .eq (hc memory) (hc' memory')]
      exact hbytes
    · rw [FixedBytes.unpack_pack_iff_paddingZero]
      rw [List.mem_cons, List.mem_singleton] at hx
      rcases hx with rfl | rfl
      · exact hc memory
      · exact hc' memory

/-- An internal word of ones has ones behind a single byte. -/
theorem exists_padding : ¬ ∀ (size : ℕ) (c c' : Construction size), c.Canonical c' := by
  intro h
  have hpadding := (h 1 (.words (.wordArray [BitVec.allOnes 128] rfl)) .default).padding (.zero 1)
  exact absurd (hpadding.1 _ rfl 0 (by decide)) (by decide)

/-! ## Values from bytes -/

/-- Default constructed, built from a full array of bytes, or deserialized. -/
def FromBytes : Construction size → Prop
  | .default => True
  | .words (.wordArray _ _) => False
  | .words (.stdArray arr _) => arr.type = .u8 ∧ arr.words.length = size
  | .words (.cArray arr _ _) => arr.type = .u8 ∧ arr.words.length = size
  | .words (.makeFromWordSequence _ _) => False
  | .deserialized _ _ _ _ _ _ => True

/-- A full array of bytes is stored with zeros behind. -/
lemma clear_of_bytes {arr : WordSequence size} (htype : arr.type = .u8)
    (hfull : arr.words.length = size) : arr.FillsAll ∧ arr.TailClear := by
  have hlen := arr.length_lastWords
  have hnum : arr.type.numSubWords = 16 := by rw [htype]; rfl
  have hone : arr.type.bytes = 1 := by rw [htype]; rfl
  have hshift : arr.lastShift = 16 - arr.lastWords.length := by
    unfold WordSequence.lastShift
    omega
  have hbytes : arr.lastBytes.length = arr.lastWords.length :=
    arr.length_lastBytes.trans ((congrArg (· * _) hone).trans (Nat.one_mul _))
  have hpadded : paddedBytes size = numWords size * 16 - size := rfl
  have hwords : numWords size = (size + 16 - 1) / 16 := rfl
  rw [hnum, hfull] at hlen
  constructor
  · rw [WordSequence.FillsAll, WordSequence.storedCount, hnum, hfull, hwords]
  · intro x hx
    rw [List.drop_of_length_le (by omega)] at hx
    cases hx

lemma FromBytes.clear {c : Construction size} (h : c.FromBytes) : c.Clear := by
  cases c with
  | default => trivial
  | words source =>
    cases source with
    | wordArray arr hlen => exact h.elim
    | stdArray arr hlt => exact .inr (clear_of_bytes h.1 h.2)
    | cArray arr hlt hne => exact .inr (clear_of_bytes h.1 h.2)
    | makeFromWordSequence arr hne => exact h.elim
  | deserialized lt old bytes d rest hread => trivial

/-- The operators on values from bytes compare their bytes. -/
theorem compare_iff (c c' : Construction size) (h : c.FromBytes) (h' : c'.FromBytes)
    (memory memory' : FixedBytes size) (op : Comparison) :
    FixedBytes.compare op (c.build memory) (c'.build memory') = true ↔
      FixedBytes.OnBytes op (c.build memory).extractAsByteArray
        (c'.build memory').extractAsByteArray :=
  FixedBytes.compare_iff_of_paddingZero op ((paddingZero_build_iff c).mpr h.clear memory)
    ((paddingZero_build_iff c').mpr h'.clear memory')

/-- Two arrays of 20 bytes, which differ in the second word only. -/
theorem compare_iff_twenty :
    let c : Construction 20 := .words (.stdArray ⟨.u8, List.replicate 20 7, by decide⟩ (by decide))
    let c' : Construction 20 :=
      .words (.stdArray ⟨.u8, List.replicate 19 7 ++ [8], by decide⟩ (by decide))
    FixedBytes.compare .lt (c.build (.zero 20)) (c'.build (.zero 20)) = true ↔
      FixedBytes.OnBytes .lt (c.build (.zero 20)).extractAsByteArray
        (c'.build (.zero 20)).extractAsByteArray :=
  compare_iff (.words (.stdArray ⟨.u8, List.replicate 20 7, by decide⟩ (by decide)))
    (.words (.stdArray ⟨.u8, List.replicate 19 7 ++ [8], by decide⟩ (by decide)))
    ⟨rfl, rfl⟩ ⟨rfl, rfl⟩ (.zero 20) (.zero 20) .lt

end Construction

end UosioCdt.Core
