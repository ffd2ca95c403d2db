import UosioCdt.Core.NameString
import UosioCdt.Lib.MixedRadix
import Mathlib.Data.List.DropRight

/-!
# Names and their strings

A name is a mixed-radix numeral: twelve digits in base 32 and one in base 16. The constructor gives
the value of the digits of its string (`ofString_eq`), and `to_string` is the digits of the value
without the dots at the end (`toString_eq`).
-/

namespace UosioCdt.Core

open MixedRadix

namespace Name

/-! ## The characters of a name -/

/-- The bases of the thirteen characters. -/
def bases : List ℕ := List.replicate 12 32 ++ [16]

/-- The numbers of the characters. -/
def symbols (str : List Char) : List ℕ := str.map charmap.idxOf

/-- The strings of names: at most 13 characters of the alphabet, the last of them at most `j`. -/
def Accepted (str : List Char) : Prop :=
  str.length ≤ 13 ∧ (∀ c ∈ str, c ∈ charmap) ∧ ∀ c, str[12]? = some c → c ≤ 'j'

lemma prod_bases : bases.prod = 2 ^ 64 := by decide

/-- The characters `char_to_value` knows are those of the table, and their values are their places. -/
lemma charToValue_eq (c : Char) : charToValue c =
    if c ∈ charmap then .ok (UInt8.ofNat (charmap.idxOf c))
    else .error "character is not in allowed character set for names" := by
  by_cases hmem : c ∈ charmap
  · have hall : ∀ c ∈ charmap, charToValue c = .ok (UInt8.ofNat (charmap.idxOf c)) :=
      List.forall_iff_forall_mem.mp (by decide)
    rw [if_pos hmem, hall c hmem]
  · have hdigits : ∀ k < 5, Char.ofNat ('1'.toNat + k) ∈ charmap := by decide
    have hletters : ∀ k < 26, Char.ofNat ('a'.toNat + k) ∈ charmap := by decide
    have hdot : c ≠ '.' := by
      rintro rfl
      exact hmem (by decide)
    -- a character of one of the two ranges would be in the table
    have hrange : ∀ lo hi : Char, (∀ k < hi.toNat + 1 - lo.toNat,
        Char.ofNat (lo.toNat + k) ∈ charmap) → ¬ (lo ≤ c ∧ c ≤ hi) := by
      intro lo hi htable hc
      have hlo : lo.toNat ≤ c.toNat := hc.1
      have hhi : c.toNat ≤ hi.toNat := hc.2
      have hk := htable (c.toNat - lo.toNat) (by omega)
      rw [Nat.add_sub_cancel' hlo, Char.ofNat_toNat] at hk
      exact hmem hk
    unfold charToValue
    rw [if_neg hdot, if_neg (hrange '1' '5' hdigits), if_neg (hrange 'a' 'z' hletters), if_neg hmem]

/-- A digit shifted in from the right. -/
lemma toNat_shiftIn {value : UInt64} {d n : ℕ} (hvalue : value.toNat < 32 ^ n) (hn : n < 12)
    (hd : d < 32) : (value <<< 5 ||| (UInt8.ofNat d).toUInt64).toNat = value.toNat * 32 + d := by
  have hpow : 32 ^ n ≤ 32 ^ 11 := Nat.pow_le_pow_right (by decide) (by omega)
  -- below twelve characters the shift loses no bit
  have hlow : value.toNat * 2 ^ 5 % 2 ^ 64 = 2 ^ 5 * value.toNat := by omega
  have hdigit : (UInt8.ofNat d).toUInt64.toNat = d := by
    rw [UInt8.toNat_toUInt64, UInt8.toNat_ofNat', Nat.mod_eq_of_lt (by omega)]
  have hshift : (value <<< 5).toNat = 2 ^ 5 * value.toNat := by
    rw [UInt64.toNat_shiftLeft, Nat.shiftLeft_eq]
    exact hlow
  rw [UInt64.toNat_or, hshift, hdigit, ← Nat.two_pow_add_eq_or_of_lt hd]
  omega

lemma idxOf_lt {c : Char} (h : c ∈ charmap) : charmap.idxOf c < 32 := List.idxOf_lt_length_of_mem h

/-- The loop of the constructor over characters of the table. -/
lemma packChars_eq {value : UInt64} {cs : List Char} {n : ℕ} (hvalue : value.toNat < 32 ^ n)
    (hlen : n + cs.length ≤ 12) (hcs : ∀ c ∈ cs, c ∈ charmap) :
    ∃ w, packChars value cs = .ok w ∧
      w.toNat = (symbols cs).foldl (fun a d => a * 32 + d) value.toNat := by
  induction cs generalizing value n with
  | nil => exact ⟨value, rfl, rfl⟩
  | cons c cs ih =>
    rw [List.length_cons] at hlen
    have hc : c ∈ charmap := hcs c List.mem_cons_self
    -- one round multiplies by the base and adds the digit
    have hstep := toNat_shiftIn hvalue (by omega) (idxOf_lt hc)
    have hbound : value.toNat * 32 + charmap.idxOf c < 32 ^ (n + 1) := by
      have := idxOf_lt hc
      rw [Nat.pow_succ]
      omega
    obtain ⟨w, hw, hval⟩ := ih (hstep ▸ hbound) (by omega)
      fun d hd => hcs d (List.mem_cons_of_mem _ hd)
    refine ⟨w, ?_, ?_⟩
    · rw [packChars, charToValue_eq, if_pos hc]
      exact hw
    · rw [hval, hstep]
      rfl

/-- The loop of the constructor starts at zero. -/
lemma packChars_zero {cs : List Char} (hlen : cs.length ≤ 12) (hcs : ∀ c ∈ cs, c ∈ charmap) :
    ∃ w, packChars 0 cs = .ok w ∧ w.toNat = (symbols cs).foldl (fun a d => a * 32 + d) 0 :=
  packChars_eq (n := 0) (by decide) (by omega) hcs

/-- The loop stops at a character that is not in the table. -/
lemma packChars_error {value : UInt64} {cs : List Char} (hcs : ∃ c ∈ cs, c ∉ charmap) :
    packChars value cs = .error "character is not in allowed character set for names" := by
  induction cs generalizing value with
  | nil =>
    obtain ⟨c, hc, -⟩ := hcs
    exact absurd hc List.not_mem_nil
  | cons c cs ih =>
    rw [packChars, charToValue_eq]
    by_cases hc : c ∈ charmap
    · have hrest : ∃ d ∈ cs, d ∉ charmap := by
        obtain ⟨d, hd, hnot⟩ := hcs
        rcases List.mem_cons.mp hd with rfl | hd
        · exact absurd hc hnot
        · exact ⟨d, hd, hnot⟩
      rw [if_pos hc]
      exact ih hrest
    · rw [if_neg hc]
      rfl

/-- A string is accepted when its characters are in the table and their numbers are digits. -/
lemma accepted_iff {str : List Char} :
    Accepted str ↔ (∀ c ∈ str, c ∈ charmap) ∧ Fit bases (symbols str) := by
  -- the characters up to `j` are those that fit four bits
  have hlast : ∀ c ∈ charmap, charmap.idxOf c < 16 ↔ c ≤ 'j' :=
    List.forall_iff_forall_mem.mp (by decide)
  have hbase : ∀ i b, bases[i]? = some b → b = if i = 12 then 16 else 32 := by
    intro i b hb
    have hi : i < 13 := (List.getElem?_eq_some_iff.mp hb).1
    have hall : ∀ i < 13, bases[i]? = some (if i = 12 then 16 else 32) := by decide
    exact Option.some.inj (hb.symm.trans (hall i hi))
  unfold Accepted symbols
  rw [fit_iff, List.length_map]
  constructor
  · rintro ⟨hlen, hmem, hj⟩
    refine ⟨hmem, hlen, fun i d b hd hb => ?_⟩
    obtain ⟨c, hc, rfl⟩ : ∃ c, str[i]? = some c ∧ charmap.idxOf c = d := by
      simpa using hd
    have hcmem : c ∈ charmap := hmem c (List.mem_of_getElem? hc)
    rw [hbase i b hb]
    split
    · rename_i h12
      subst h12
      exact (hlast c hcmem).mpr (hj c hc)
    · exact idxOf_lt hcmem
  · rintro ⟨hmem, hlen, hfit⟩
    refine ⟨hlen, hmem, fun c hc => ?_⟩
    have hd : (str.map charmap.idxOf)[12]? = some (charmap.idxOf c) := by
      rw [List.getElem?_map, hc, Option.map_some]
    exact (hlast c (hmem c (List.mem_of_getElem? hc))).mp (hfit 12 _ 16 hd rfl)

/-- The number of an accepted string is a 64-bit number. -/
lemma Accepted.ofDigits_lt {str : List Char} (h : Accepted str) :
    ofDigits bases (symbols str) < 2 ^ 64 := by
  rw [← prod_bases]
  exact MixedRadix.ofDigits_lt (by decide) (accepted_iff.mp h).2

/-- At most twelve characters, packed and moved to their place. -/
lemma shift_horner {str : List Char} (hpos : 0 < str.length) (hlen : str.length ≤ 12) {w : UInt64}
    (hw : w.toNat = (symbols str).foldl (fun a d => a * 32 + d) 0) :
    w <<< UInt64.ofNat (4 + 5 * (12 - str.length)) = UInt64.ofNat (ofDigits bases (symbols str)) := by
  have hsymbols : (symbols str).length = str.length := List.length_map _
  -- the bases behind the digits of the string only scale its number
  have hsplit : bases = List.replicate (symbols str).length 32
      ++ (List.replicate (12 - str.length) 32 ++ [16]) := by
    rw [hsymbols, ← List.append_assoc, ← List.replicate_add, Nat.add_sub_cancel' hlen]
    rfl
  have hrest : (List.replicate (12 - str.length) 32 ++ [16]).prod
      = 2 ^ (4 + 5 * (12 - str.length)) := by
    rw [List.prod_append, List.prod_replicate, List.prod_singleton, Nat.pow_add, Nat.pow_mul,
      Nat.mul_comm]
  have hvalue : ofDigits bases (symbols str) = w.toNat * 2 ^ (4 + 5 * (12 - str.length)) := by
    have hreplicate : (symbols str).length = (List.replicate (symbols str).length 32).length := by
      rw [List.length_replicate]
    have happ := ofDigits_append_nil (List.replicate (12 - str.length) 32 ++ [16]) hreplicate
    rw [← hsplit, hrest] at happ
    rw [happ, hw, foldl_horner, Nat.zero_mul, Nat.zero_add]
  have hshift : (UInt64.ofNat (4 + 5 * (12 - str.length))).toNat % 64 = 4 + 5 * (12 - str.length) := by
    rw [UInt64.toNat_ofNat']
    omega
  apply UInt64.toNat_inj.mp
  rw [UInt64.toNat_shiftLeft, hshift, Nat.shiftLeft_eq, ← hvalue, UInt64.toNat_ofNat']

/-- Up to twelve characters are packed and moved to their place. -/
lemma ofString_eq_of_le {str : List Char} (hlen : str.length ≤ 12) (h : Accepted str) :
    ofString str = .ok ⟨UInt64.ofNat (ofDigits bases (symbols str))⟩ := by
  unfold ofString
  rcases Nat.eq_zero_or_pos str.length with hzero | hpos
  · rw [List.length_eq_zero_iff.mp hzero]
    rfl
  · have hne : str ≠ [] := List.ne_nil_of_length_pos hpos
    obtain ⟨w, hw, hval⟩ := packChars_zero hlen h.2.1
    have hmove := shift_horner hpos hlen hval
    rw [if_neg (by omega), if_neg hne, Nat.min_eq_left hlen, List.take_length, hw]
    show (if _ : str.length = 13 then _ else Except.ok (Name.mk (w <<< _))) = _
    rw [dif_neg (by omega), hmove]

/-- A thirteenth character up to `j` goes into the low bits. -/
lemma packLast_eq (value : UInt64) {c : Char} (hmem : c ∈ charmap) (hc : c ≤ 'j') :
    packLast value c = .ok ⟨value ||| (UInt8.ofNat (charmap.idxOf c)).toUInt64⟩ := by
  have hsmall : ∀ c ∈ charmap, c ≤ 'j' → ¬ UInt8.ofNat (charmap.idxOf c) > 0x0F :=
    List.forall_iff_forall_mem.mp (by decide)
  rw [packLast, charToValue_eq, if_pos hmem]
  show (if UInt8.ofNat (charmap.idxOf c) > 0x0F then _ else Except.ok (Name.mk _)) = _
  rw [if_neg (hsmall c hmem hc)]

/-- A later one is rejected. -/
lemma packLast_error {value : UInt64} {c : Char} (h : ¬ (c ∈ charmap ∧ c ≤ 'j')) :
    ∃ msg, packLast value c = .error msg := by
  have hlarge : ∀ c ∈ charmap, ¬ c ≤ 'j' → UInt8.ofNat (charmap.idxOf c) > 0x0F :=
    List.forall_iff_forall_mem.mp (by decide)
  rw [packLast, charToValue_eq]
  by_cases hmem : c ∈ charmap
  · refine ⟨"thirteenth character in name cannot be a letter that comes after j", ?_⟩
    rw [if_pos hmem]
    show (if UInt8.ofNat (charmap.idxOf c) > 0x0F then _ else Except.ok (Name.mk _)) = _
    rw [if_pos (hlarge c hmem fun hc => h ⟨hmem, hc⟩)]
  · rw [if_neg hmem]
    exact ⟨_, rfl⟩

/-- A string of thirteen characters is its first twelve and the last. -/
lemma take_append_last {str : List Char} (hlast : 12 < str.length) (hlen : str.length ≤ 13) :
    str.take 12 ++ [str[12]] = str := by
  rw [List.take_append_getElem, List.take_of_length_le hlen]

/-- The last character comes behind the digits of the others. -/
lemma or_last {str : List Char} (hlast : 12 < str.length) (h : Accepted str) :
    UInt64.ofNat (ofDigits bases (symbols (str.take 12))) |||
        (UInt8.ofNat (charmap.idxOf str[12])).toUInt64
      = UInt64.ofNat (ofDigits bases (symbols str)) := by
  have hfirst : (symbols (str.take 12)).length = (List.replicate 12 32).length := by
    unfold symbols
    rw [List.length_map, List.length_take, List.length_replicate]
    omega
  have hsymbols : symbols str = symbols (str.take 12) ++ [charmap.idxOf str[12]] := by
    conv_lhs => rw [← take_append_last hlast h.1]
    unfold symbols
    rw [List.map_append, List.map_singleton]
  have htable : ∀ c ∈ charmap, c ≤ 'j' → charmap.idxOf c < 2 ^ 4 :=
    List.forall_iff_forall_mem.mp (by decide)
  have hsmall : charmap.idxOf str[12] < 2 ^ 4 :=
    htable _ (h.2.1 _ (List.getElem_mem _)) (h.2.2 _ (List.getElem?_eq_getElem _))
  -- the twelve digits leave the four low bits to the last one
  have hhigh : ofDigits bases (symbols (str.take 12))
      = 2 ^ 4 * ofDigits (List.replicate 12 32) (symbols (str.take 12)) := by
    rw [Nat.mul_comm]
    exact ofDigits_append_nil [16] hfirst
  have hall : ofDigits bases (symbols str)
      = ofDigits bases (symbols (str.take 12)) + charmap.idxOf str[12] := by
    rw [hsymbols, hhigh]
    show ofDigits (List.replicate 12 32 ++ [16]) _ = _
    rw [ofDigits_append hfirst]
    show _ * 16 + (charmap.idxOf str[12] * 1 + 0) = _
    omega
  have hbound : ofDigits bases (symbols str) < 2 ^ 64 := h.ofDigits_lt
  have hdigit : (UInt8.ofNat (charmap.idxOf str[12])).toUInt64.toNat = charmap.idxOf str[12] := by
    rw [UInt8.toNat_toUInt64, UInt8.toNat_ofNat', Nat.mod_eq_of_lt (by omega)]
  apply UInt64.toNat_inj.mp
  rw [UInt64.toNat_or, UInt64.toNat_ofNat', UInt64.toNat_ofNat', hdigit, Nat.mod_eq_of_lt hbound,
    Nat.mod_eq_of_lt (by omega), hall, hhigh, Nat.two_pow_add_eq_or_of_lt hsmall]

/-- The thirteenth character has the four bits behind the others. -/
lemma ofString_eq_of_thirteen {str : List Char} (hlen : str.length = 13) (h : Accepted str) :
    ofString str = .ok ⟨UInt64.ofNat (ofDigits bases (symbols str))⟩ := by
  have hne : str ≠ [] := List.ne_nil_of_length_pos (by omega)
  have hlen12 : (str.take 12).length = 12 := by
    rw [List.length_take]
    omega
  have hmem : ∀ c ∈ str.take 12, c ∈ charmap := fun c hc => h.2.1 c (List.mem_of_mem_take hc)
  obtain ⟨w, hw, hval⟩ := packChars_zero (by omega) hmem
  have hmove := shift_horner (by omega) (by omega) hval
  rw [hlen12] at hmove
  have hlast := packLast_eq (UInt64.ofNat (ofDigits bases (symbols (str.take 12))))
    (h.2.1 str[12] (List.getElem_mem _)) (h.2.2 str[12] (List.getElem?_eq_getElem _))
  unfold ofString
  rw [if_neg (by omega), if_neg hne, show min str.length 12 = 12 by omega, hw]
  show (if h : str.length = 13 then packLast (w <<< UInt64.ofNat (4 + 5 * (12 - 12))) str[12]
    else _) = _
  rw [dif_pos hlen, hmove, hlast, or_last (by omega) h]

/-- An accepted string is the name of its digits. -/
theorem ofString_eq {str : List Char} (h : Accepted str) :
    ofString str = .ok ⟨UInt64.ofNat (ofDigits bases (symbols str))⟩ := by
  rcases Nat.lt_or_ge 12 str.length with hlt | hle
  · have hlen := h.1
    exact ofString_eq_of_thirteen (by omega) h
  · exact ofString_eq_of_le hle h

/-- Every other string is rejected. -/
theorem ofString_error {str : List Char} (h : ¬ Accepted str) :
    ∃ msg, ofString str = .error msg := by
  unfold ofString
  by_cases hlong : str.length > 13
  · rw [if_pos hlong]
    exact ⟨_, rfl⟩
  have hne : str ≠ [] := by
    rintro rfl
    exact h ⟨by decide, by simp, by simp⟩
  rw [if_neg hlong, if_neg hne]
  by_cases hmem : ∀ c ∈ str.take (min str.length 12), c ∈ charmap
  · -- the first characters are packed, so the thirteenth is the wrong one
    obtain ⟨w, hw, -⟩ := packChars_zero (by rw [List.length_take]; omega) hmem
    by_cases hlen : str.length = 13
    · have hlt : 12 < str.length := by omega
      have hlast : ¬ (str[12] ∈ charmap ∧ str[12] ≤ 'j') := by
        rintro ⟨hc, hj⟩
        refine h ⟨by omega, fun c hmemc => ?_, fun c hc' => ?_⟩
        · rw [← take_append_last hlt (by omega), List.mem_append, List.mem_singleton] at hmemc
          rcases hmemc with hmemc | rfl
          · exact hmem c (by rwa [show min str.length 12 = 12 by omega])
          · exact hc
        · rw [List.getElem?_eq_getElem (by omega)] at hc'
          exact Option.some.inj hc' ▸ hj
      rw [hw]
      show ∃ msg, (if h : str.length = 13 then packLast _ str[12] else _) = _
      rw [dif_pos hlen]
      exact packLast_error hlast
    · -- a shorter string with packed characters would be accepted
      refine absurd ⟨by omega, fun c hc => ?_, fun c hc => ?_⟩ h
      · rw [show min str.length 12 = str.length by omega, List.take_length] at hmem
        exact hmem c hc
      · rw [List.getElem?_eq_none (by omega)] at hc
        cases hc
  · push Not at hmem
    rw [packChars_error hmem]
    exact ⟨_, rfl⟩

/-! ## Writing a name -/

/-- The characters of some digits. -/
def chars (ds : List ℕ) : List Char := ds.map fun d => charmap.getD d '.'

/-- A string without its trailing dots. -/
def trimDots (str : List Char) : List Char := str.rdropWhile (· = '.')

/-- Trailing dots are those behind the last character that is none. -/
lemma trimDots_cons (c : Char) (str : List Char) :
    trimDots (c :: str) = if c = '.' ∧ trimDots str = [] then [] else c :: trimDots str := by
  unfold trimDots
  rw [List.rdropWhile, List.reverse_cons, List.dropWhile_append]
  by_cases hrest : str.rdropWhile (· = '.') = []
  · have hempty : str.reverse.dropWhile (· = '.') = [] := by
      rwa [List.rdropWhile, List.reverse_eq_nil_iff] at hrest
    by_cases hc : c = '.'
    · simp [hempty, hrest, hc]
    · simp [hempty, hrest, hc]
  · have hne : ¬ (str.reverse.dropWhile (· = '.')).isEmpty = true := by
      rw [List.isEmpty_iff]
      intro hnil
      exact hrest (by rw [List.rdropWhile, hnil, List.reverse_nil])
    rw [if_neg hne, if_neg (fun h => hrest h.2), List.reverse_append]
    rfl

lemma trimDots_cons_eq_nil {c : Char} {str : List Char} :
    trimDots (c :: str) = [] ↔ c = '.' ∧ trimDots str = [] := by
  rw [trimDots_cons]
  split <;> simp_all

lemma trimDots_cons_of_ne {c : Char} {str : List Char} (h : trimDots (c :: str) ≠ []) :
    trimDots (c :: str) = c :: trimDots str := by
  rw [ne_eq, trimDots_cons_eq_nil] at h
  rw [trimDots_cons, if_neg h]

/-- Dots at the end are dropped. -/
lemma trimDots_append_dots (str : List Char) (n : ℕ) :
    trimDots (str ++ List.replicate n '.') = trimDots str := by
  unfold trimDots
  rw [List.rdropWhile, List.reverse_append, List.reverse_replicate,
    List.dropWhile_append_of_pos (by simp), List.rdropWhile]

/-- Nothing is dropped when the last character is no dot. -/
lemma trimDots_eq_self_iff {str : List Char} : trimDots str = str ↔ str.getLast? ≠ some '.' := by
  unfold trimDots
  rw [List.rdropWhile_eq_self_iff]
  cases h : str.getLast? with
  | none =>
    rw [List.getLast?_eq_none_iff] at h
    simp [h]
  | some c =>
    have hne : str ≠ [] := by
      rintro rfl
      cases h
    rw [List.getLast?_eq_some_getLast hne] at h
    obtain rfl := Option.some.inj h
    simp [hne]

/-- A string is what is left of it and some dots. -/
lemma exists_trimDots (str : List Char) : ∃ n, str = trimDots str ++ List.replicate n '.' := by
  have hdots : ∀ c ∈ str.rtakeWhile (· = '.'), c = '.' := by
    intro c hc
    have hdot := List.mem_rtakeWhile_imp hc
    exact of_decide_eq_true hdot
  refine ⟨(str.rtakeWhile (· = '.')).length, ?_⟩
  rw [← List.eq_replicate_of_mem hdots]
  exact List.rdropWhile_append_rtakeWhile.symm

lemma chars_replicate_zero (n : ℕ) : chars (List.replicate n 0) = List.replicate n '.' :=
  List.map_replicate

/-- Characters of the table have their digits back. -/
lemma chars_symbols {str : List Char} (h : ∀ c ∈ str, c ∈ charmap) : chars (symbols str) = str := by
  have htable : ∀ c ∈ charmap, charmap.getD (charmap.idxOf c) '.' = c :=
    List.forall_iff_forall_mem.mp (by decide)
  unfold chars symbols
  rw [List.map_map]
  calc str.map ((fun d => charmap.getD d '.') ∘ charmap.idxOf) = str.map id :=
        List.map_congr_left fun c hc => htable c (h c hc)
    _ = str := List.map_id str

/-- The highest bits of a word, taken out with the mask. -/
lemma toNat_highest {v : UInt64} {k : UInt64} (hk : k = 59 ∨ k = 60) :
    ((v &&& 0xF800000000000000) >>> k).toNat = v.toNat / 2 ^ k.toNat := by
  have hv : v.toNat < 2 ^ 64 := v.toNat_lt
  rw [UInt64.toNat_shiftRight, UInt64.toNat_and, Nat.shiftRight_and_distrib]
  rcases hk with rfl | rfl
  · show v.toNat >>> 59 &&& 2 ^ 5 - 1 = v.toNat / 2 ^ 59
    rw [Nat.and_two_pow_sub_one_eq_mod, Nat.shiftRight_eq_div_pow]
    omega
  · show v.toNat >>> 60 &&& 2 ^ 4 - 1 = v.toNat / 2 ^ 60
    rw [Nat.and_two_pow_sub_one_eq_mod, Nat.shiftRight_eq_div_pow]
    omega

/-- Only the digit zero is a dot. -/
lemma getD_charmap_eq_dot_iff {d : ℕ} (hd : d < 32) : charmap.getD d '.' = '.' ↔ d = 0 := by
  have htable : ∀ d < 32, charmap.getD d '.' = '.' ↔ d = 0 := by decide
  exact htable d hd

/-- Digits are written as nothing when they are zeros. -/
lemma trimDots_digits_eq_nil {bs : List ℕ} {w : ℕ} (hbs : ∀ b ∈ bs, b ≤ 32) (hw : w < bs.prod) :
    trimDots (chars (digits bs w)) = [] ↔ w = 0 := by
  induction bs generalizing w with
  | nil =>
    rw [List.prod_nil] at hw
    have hzero : w = 0 := by omega
    rw [hzero]
    simp [digits, chars, trimDots]
  | cons b bs ih =>
    rw [List.prod_cons] at hw
    -- the first digit is zero, and the others are by induction
    have hprod : 0 < bs.prod := Nat.pos_of_lt_mul_left hw
    have hfirst : w / bs.prod < b := (Nat.div_lt_iff_lt_mul hprod).mpr hw
    have hb : b ≤ 32 := hbs b List.mem_cons_self
    have hdot := getD_charmap_eq_dot_iff (show w / bs.prod < 32 by omega)
    have hrest := ih (fun c hc => hbs c (List.mem_cons_of_mem _ hc)) (Nat.mod_lt w hprod)
    show trimDots (charmap.getD (w / bs.prod) '.' :: chars (digits bs (w % bs.prod))) = [] ↔ w = 0
    rw [trimDots_cons_eq_nil, hdot, hrest]
    constructor
    · rintro ⟨hdiv, hmod⟩
      rw [← Nat.div_add_mod w bs.prod, hdiv, hmod, Nat.mul_zero]
    · rintro rfl
      exact ⟨Nat.zero_div _, Nat.zero_mod _⟩

/-- One character of `write_as_string`, when nothing is left exactly when the rest is dots. -/
lemma writeChars_succ {n : ℕ} {v : UInt64} {c : Char} {cs : List Char}
    (hzero : v = 0 ↔ trimDots (c :: cs) = [])
    (hc : charAt ((v &&& 0xF800000000000000) >>> (if n = 0 then 60 else 59)) = c)
    (hrest : writeChars n (v <<< 5) = trimDots cs) : writeChars (n + 1) v = trimDots (c :: cs) := by
  rw [writeChars]
  by_cases hv : v = 0
  · rw [if_pos hv, hzero.mp hv]
  · rw [if_neg hv, hc, hrest, trimDots_cons_of_ne fun hnil => hv (hzero.mpr hnil)]

/-- Nothing is left exactly when the rest is dots. -/
lemma eq_zero_iff_trimDots {m w k : ℕ} {v : UInt64} (hw : w < (List.replicate m 32 ++ [16]).prod)
    (hv : v.toNat = w * 2 ^ k) :
    v = 0 ↔ trimDots (chars (digits (List.replicate m 32 ++ [16]) w)) = [] := by
  have hbases : ∀ b ∈ List.replicate m 32 ++ [16], b ≤ 32 := by
    intro b hb
    rw [List.mem_append, List.mem_replicate, List.mem_singleton] at hb
    omega
  rw [trimDots_digits_eq_nil hbases hw, ← UInt64.toNat_inj, hv]
  simp

/-- The loop of `write_as_string` with `m + 1` characters to go: `w` is what is left of the value,
moved to the high end of `v`. -/
lemma writeChars_eq {m w : ℕ} {v : UInt64} (hm : m ≤ 12)
    (hw : w < (List.replicate m 32 ++ [16]).prod) (hv : v.toNat = w * 2 ^ (5 * (12 - m))) :
    writeChars (m + 1) v = trimDots (chars (digits (List.replicate m 32 ++ [16]) w)) := by
  induction m generalizing w v with
  | zero =>
    -- the last character is what is left, in four bits
    have hdigit : ((v &&& 0xF800000000000000) >>> 60).toNat = w / 1 := by
      rw [toNat_highest (.inr rfl), hv]
      show w * 2 ^ 60 / 2 ^ 60 = w / 1
      omega
    apply writeChars_succ (eq_zero_iff_trimDots hw hv)
    · rw [if_pos rfl, charAt, hdigit]
      rfl
    · rfl
  | succ m ih =>
    have hprod : (List.replicate m 32 ++ [16]).prod = 2 ^ (5 * m + 4) := by
      rw [List.prod_append, List.prod_replicate, List.prod_singleton, Nat.pow_add, Nat.pow_mul]
    -- the highest five bits are the first digit of what is left, and the shift drops them
    have hexp : 5 * m + 4 + 5 * (12 - (m + 1)) = 59 := by omega
    have hdigit : ((v &&& 0xF800000000000000) >>> 59).toNat
        = w / (List.replicate m 32 ++ [16]).prod := by
      rw [toNat_highest (.inl rfl), hv, hprod]
      show w * 2 ^ (5 * (12 - (m + 1))) / 2 ^ 59 = _
      rw [← hexp, Nat.pow_add, Nat.mul_div_mul_right _ _ (Nat.two_pow_pos _)]
    have hshift : (v <<< 5).toNat
        = w % (List.replicate m 32 ++ [16]).prod * 2 ^ (5 * (12 - m)) := by
      rw [UInt64.toNat_shiftLeft, Nat.shiftLeft_eq, hv, hprod]
      show w * 2 ^ (5 * (12 - (m + 1))) * 2 ^ 5 % 2 ^ 64 = _
      rw [Nat.mul_assoc, ← Nat.pow_add, show 5 * (12 - (m + 1)) + 5 = 5 * (12 - m) by omega,
        show 64 = 5 * m + 4 + 5 * (12 - m) by omega, Nat.pow_add, Nat.mul_mod_mul_right]
    apply writeChars_succ (eq_zero_iff_trimDots hw hv)
    · rw [if_neg (Nat.succ_ne_zero m), charAt, hdigit]
      rfl
    · exact ih (by omega) (Nat.mod_lt _ (hprod ▸ Nat.two_pow_pos _)) hshift

/-- The string of a name is its digits without the dots at the end. -/
theorem toString_eq (n : Name) : n.toString = trimDots (chars (digits bases n.value.toNat)) := by
  have hlt : n.value.toNat < (List.replicate 12 32 ++ [16]).prod := by
    show _ < bases.prod
    rw [prod_bases]
    exact n.value.toNat_lt
  exact writeChars_eq (Nat.le_refl 12) hlt (by simp)

/-! ## Names and strings -/

/-- The digits of a character are its place in the table. -/
lemma symbols_chars {ds : List ℕ} (h : ∀ d ∈ ds, d < 32) : symbols (chars ds) = ds := by
  have htable : ∀ d < 32, charmap.idxOf (charmap.getD d '.') = d := by decide
  unfold symbols chars
  rw [List.map_map]
  calc ds.map (charmap.idxOf ∘ fun d => charmap.getD d '.') = ds.map id :=
        List.map_congr_left fun d hd => htable d (h d hd)
    _ = ds := List.map_id ds

/-- The name of an accepted string is written as the string without its trailing dots. -/
theorem toString_of_accepted {str : List Char} (h : Accepted str) :
    toString ⟨UInt64.ofNat (ofDigits bases (symbols str))⟩ = trimDots str := by
  have hfit : Fit bases (symbols str) := (accepted_iff.mp h).2
  have hdigits := digits_ofDigits (by decide) hfit
  have hchars : chars (symbols str ++ List.replicate (bases.length - (symbols str).length) 0)
      = str ++ List.replicate (bases.length - (symbols str).length) '.' := by
    nth_rewrite 3 [← chars_symbols h.2.1]
    rw [← chars_replicate_zero]
    exact List.map_append
  rw [toString_eq]
  show trimDots (chars (digits bases (UInt64.ofNat (ofDigits bases (symbols str))).toNat)) = _
  rw [UInt64.toNat_ofNat', Nat.mod_eq_of_lt h.ofDigits_lt, hdigits, hchars, trimDots_append_dots]

lemma toNat_lt_prod (v : UInt64) : v.toNat < bases.prod := by
  rw [prod_bases]
  exact v.toNat_lt

/-- The digits of a name are places in the table. -/
lemma digits_lt (v : UInt64) : ∀ d ∈ digits bases v.toNat, d < 32 := by
  have hfit : Fit bases (digits bases v.toNat) := fit_digits (toNat_lt_prod v)
  intro d hd
  obtain ⟨i, hi⟩ := List.mem_iff_getElem?.mp hd
  have hlen : i < bases.length := by
    rw [← length_digits bases v.toNat]
    exact (List.getElem?_eq_some_iff.mp hi).1
  have hall : ∀ b ∈ bases, b ≤ 32 := by decide
  have hbase := (fit_iff.mp hfit).2 i d _ hi (List.getElem?_eq_getElem hlen)
  have := hall _ (List.getElem_mem hlen)
  omega

/-- The string of a name is accepted, and its digits are those of the name. -/
lemma symbols_toString (n : Name) : Accepted n.toString ∧
    ofDigits bases (symbols n.toString) = n.value.toNat := by
  have hlt : n.value.toNat < bases.prod := toNat_lt_prod n.value
  have hfit : Fit bases (digits bases n.value.toNat) := fit_digits hlt
  have hsmall : ∀ d ∈ digits bases n.value.toNat, d < 32 := digits_lt n.value
  -- the dots that are dropped are zeros, which do not change the number
  obtain ⟨k, hk⟩ := exists_trimDots (chars (digits bases n.value.toNat))
  rw [← toString_eq] at hk
  have hsymbols : digits bases n.value.toNat = symbols n.toString ++ List.replicate k 0 := by
    rw [← symbols_chars hsmall, hk]
    unfold symbols
    rw [List.map_append, List.map_replicate]
    rfl
  constructor
  · rw [accepted_iff]
    constructor
    · intro c hc
      have hmem : c ∈ chars (digits bases n.value.toNat) := by
        rw [hk]
        exact List.mem_append_left _ hc
      obtain ⟨d, hd, rfl⟩ := List.mem_map.mp hmem
      have htable : ∀ d < 32, charmap.getD d '.' ∈ charmap := by decide
      exact htable d (hsmall d hd)
    · have hfit : Fit bases (symbols n.toString ++ List.replicate k 0) := by rwa [← hsymbols]
      exact hfit.of_append
  · rw [← ofDigits_append_zeros bases (symbols n.toString) k, ← hsymbols, ofDigits_digits hlt]

/-- Every name is the name of its string. -/
theorem ofString_toString (n : Name) : ofString n.toString = .ok n := by
  obtain ⟨haccepted, hvalue⟩ := n.symbols_toString
  rw [ofString_eq haccepted, hvalue, UInt64.ofNat_toNat]

/-- The string with dots up to thirteen characters. -/
def pad (str : List Char) : List Char := str ++ List.replicate (13 - str.length) '.'

/-- The padded strings are in the order of a dictionary over the alphabet of names. -/
def Precedes (a b : List Char) : Prop :=
  List.Lex (fun c d => charmap.idxOf c < charmap.idxOf d) (pad a) (pad b)

/-- Strings are in the order of their symbols. -/
lemma symbols_lt_symbols_iff {a b : List Char} (ha : ∀ c ∈ a, c ∈ charmap)
    (hb : ∀ c ∈ b, c ∈ charmap) : symbols a < symbols b ↔
      List.Lex (fun c d => charmap.idxOf c < charmap.idxOf d) a b := by
  induction a generalizing b with
  | nil =>
    cases b with
    | nil => simp [symbols]
    | cons d b => exact ⟨fun _ => List.Lex.nil, fun _ => List.Lex.nil⟩
  | cons c a ih =>
    cases b with
    | nil => simp [symbols]
    | cons d b =>
      have hinj : charmap.idxOf c = charmap.idxOf d ↔ c = d :=
        List.idxOf_inj (ha c List.mem_cons_self)
      have hrest := ih (fun x hx => ha x (List.mem_cons_of_mem _ hx))
        fun x hx => hb x (List.mem_cons_of_mem _ hx)
      show charmap.idxOf c :: symbols a < charmap.idxOf d :: symbols b ↔ _
      rw [List.cons_lt_cons_iff, List.cons_lex_cons_iff, hinj, hrest]

/-- Padding does not change the number. -/
lemma symbols_pad (str : List Char) :
    symbols (pad str) = symbols str ++ List.replicate (13 - str.length) 0 := by
  unfold symbols pad
  rw [List.map_append, List.map_replicate]
  rfl

/-- A padded accepted string has thirteen characters that are accepted. -/
lemma Accepted.pad {str : List Char} (h : Accepted str) :
    (symbols (Name.pad str)).length = bases.length ∧ Fit bases (symbols (Name.pad str)) ∧
      ∀ c ∈ Name.pad str, c ∈ charmap := by
  have hlen : (symbols (Name.pad str)).length = bases.length := by
    rw [symbols_pad, List.length_append, List.length_replicate]
    unfold symbols
    rw [List.length_map]
    show _ = 13
    have := h.1
    omega
  refine ⟨hlen, ?_, fun c hc => ?_⟩
  · have hfit : Fit bases (symbols str) := (accepted_iff.mp h).2
    rw [fit_iff] at hfit ⊢
    refine ⟨hlen.le, fun i d b hd hb => ?_⟩
    rw [symbols_pad, List.getElem?_append] at hd
    split at hd
    · exact hfit.2 i d b hd hb
    · -- behind the string there are zeros, which fit every base
      have hall : ∀ b ∈ bases, 0 < b := by decide
      obtain rfl : d = 0 := List.eq_of_mem_replicate (List.mem_of_getElem? hd)
      exact hall b (List.mem_of_getElem? hb)
  · rcases List.mem_append.mp hc with hc | hc
    · exact h.2.1 c hc
    · rw [List.eq_of_mem_replicate hc]
      decide

/-- Names are ordered as their padded strings. -/
theorem lt_iff_precedes {a b : List Char} (ha : Accepted a) (hb : Accepted b) :
    (⟨UInt64.ofNat (ofDigits bases (symbols a))⟩ : Name) < ⟨UInt64.ofNat (ofDigits bases (symbols b))⟩
      ↔ Precedes a b := by
  obtain ⟨halen, hafit, hamem⟩ := ha.pad
  obtain ⟨hblen, hbfit, hbmem⟩ := hb.pad
  show UInt64.ofNat (ofDigits bases (symbols a)) < UInt64.ofNat (ofDigits bases (symbols b)) ↔ _
  -- padded, both have as many digits as there are bases
  rw [UInt64.lt_iff_toNat_lt, UInt64.toNat_ofNat', UInt64.toNat_ofNat',
    Nat.mod_eq_of_lt ha.ofDigits_lt, Nat.mod_eq_of_lt hb.ofDigits_lt,
    ← ofDigits_append_zeros bases (symbols a) (13 - a.length),
    ← ofDigits_append_zeros bases (symbols b) (13 - b.length), ← symbols_pad, ← symbols_pad,
    ofDigits_lt_ofDigits_iff (by decide) hafit hbfit halen hblen]
  exact symbols_lt_symbols_iff hamem hbmem

/-- The constructor gives a name exactly to the accepted strings. -/
lemma ofString_ok_iff {str : List Char} {n : Name} :
    ofString str = .ok n ↔ Accepted str ∧ n = ⟨UInt64.ofNat (ofDigits bases (symbols str))⟩ := by
  by_cases h : Accepted str
  · rw [ofString_eq h]
    constructor
    · intro heq
      exact ⟨h, (Except.ok.inj heq).symm⟩
    · rintro ⟨-, rfl⟩
      rfl
  · obtain ⟨msg, hmsg⟩ := ofString_error h
    rw [hmsg]
    constructor
    · intro heq
      cases heq
    · exact fun heq => absurd heq.1 h

/-- The strings that have a name. -/
lemma string_accepted_iff {s : List Char} : (∃ n, ofString s = .ok n) ↔ Accepted s := by
  simp only [ofString_ok_iff, exists_and_left, exists_eq, and_true]

/-- Names are in bijection with the strings that are accepted and end in no dot, and are ordered as
these are. -/
theorem string_bijection :
    (∀ s, (∃ n, ofString s = .ok n) ↔ Accepted s) ∧
    (∀ s n, ofString s = .ok n → n.toString = trimDots s) ∧
    (∀ n : Name, ofString n.toString = .ok n) ∧
    ∀ a b m n, ofString a = .ok m → ofString b = .ok n → (m < n ↔ Precedes a b) := by
  refine ⟨fun s => string_accepted_iff, fun s n hs => ?_, ofString_toString, fun a b m n hm hn => ?_⟩
  · obtain ⟨haccepted, rfl⟩ := ofString_ok_iff.mp hs
    exact toString_of_accepted haccepted
  · obtain ⟨ha, rfl⟩ := ofString_ok_iff.mp hm
    obtain ⟨hb, rfl⟩ := ofString_ok_iff.mp hn
    exact lt_iff_precedes ha hb

end Name

end UosioCdt.Core
