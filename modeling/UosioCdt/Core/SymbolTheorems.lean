import UosioCdt.Core.SymbolCode
import Mathlib.Data.Nat.Digits.Lemmas

/-!
# Symbol codes and their printing

A symbol code is the number that its letters denote in base 256, the first letter lowest. The
constructor accepts up to seven letters; `is_valid` says which codes come from it, but for the codes
whose highest byte it does not look at. `symbol::print` never prints the symbol alone.
-/

namespace UosioCdt.Core

namespace SymbolCode

/-! ## Codes as numbers -/

/-- The constructor accepts the string. -/
def Accepted (str : List Char) : Prop := str.length ≤ 7 ∧ ∀ c ∈ str, 'A' ≤ c ∧ c ≤ 'Z'

/-- A byte that is a letter. -/
def IsLetter (d : ℕ) : Prop := 65 ≤ d ∧ d ≤ 90

/-- The number that the letters of a string denote. -/
def codeOf (str : List Char) : ℕ := Nat.ofDigits 256 (str.map Char.toNat)

lemma codeOf_cons (c : Char) (str : List Char) :
    codeOf (c :: str) = c.toNat + 256 * codeOf str :=
  Nat.ofDigits_cons

lemma isLetter_toNat {c : Char} : IsLetter c.toNat ↔ 'A' ≤ c ∧ c ≤ 'Z' := Iff.rfl

lemma toNat_low (sym : UInt64) : (sym &&& 0xFF).toNat = sym.toNat % 256 := by
  rw [UInt64.toNat_and]
  exact Nat.and_two_pow_sub_one_eq_mod sym.toNat 8

lemma low_eq_zero {sym : UInt64} : sym &&& 0xFF = 0 ↔ sym.toNat % 256 = 0 := by
  rw [← toNat_low, ← UInt64.toNat_inj]
  rfl

lemma toNat_next (sym : UInt64) : (sym >>> 8).toNat = sym.toNat / 256 := by
  rw [UInt64.toNat_shiftRight]
  exact Nat.shiftRight_eq_div_pow sym.toNat 8

/-- The lowest byte as a character. -/
lemma toNat_lowChar (sym : UInt64) : (lowChar sym).toNat = sym.toNat % 256 := by
  have hlt : sym.toNat % 256 < 256 := Nat.mod_lt _ (by decide)
  have hvalid : (sym.toNat % 256).isValidChar := .inl (by omega)
  rw [lowChar, toNat_low, Char.ofNat, dif_pos hvalid]
  rfl

/-- The letters of a code that is a number below a power of 256. -/
lemma IsLetter.lt {d : ℕ} (h : IsLetter d) : d < 256 := by
  unfold IsLetter at h
  omega

lemma codeOf_lt {str : List Char} (h : ∀ c ∈ str, 'A' ≤ c ∧ c ≤ 'Z') :
    codeOf str < 256 ^ str.length := by
  have hlt := Nat.ofDigits_lt_base_pow_length (b := 256) (l := str.map Char.toNat) (by decide) ?_
  · rwa [List.length_map] at hlt
  · intro d hd
    obtain ⟨c, hc, rfl⟩ := List.mem_map.mp hd
    exact (isLetter_toNat.mpr (h c hc)).lt

/-- The digits of a code are its letters. -/
lemma digits_codeOf {str : List Char} (h : ∀ c ∈ str, 'A' ≤ c ∧ c ≤ 'Z') :
    Nat.digits 256 (codeOf str) = str.map Char.toNat := by
  apply Nat.digits_ofDigits 256 (by decide)
  · intro d hd
    obtain ⟨c, hc, rfl⟩ := List.mem_map.mp hd
    exact (isLetter_toNat.mpr (h c hc)).lt
  · intro hne hzero
    obtain ⟨c, hc, hlast⟩ := List.mem_map.mp (List.getLast_mem hne)
    have hletter := isLetter_toNat.mpr (h c hc)
    rw [hlast, hzero] at hletter
    exact absurd hletter.1 (by decide)

/-! ## The constructor -/

/-- A byte is put below a code of at most seven bytes. -/
lemma toNat_pushed {value d : UInt64} (hvalue : value.toNat < 256 ^ 7) (hd : d.toNat < 256) :
    (value <<< 8 ||| d).toNat = d.toNat + 256 * value.toNat := by
  have hshift : (value <<< 8).toNat = value.toNat <<< 8 := by
    rw [UInt64.toNat_shiftLeft]
    apply Nat.mod_eq_of_lt
    rw [Nat.shiftLeft_eq]
    show value.toNat * 256 < 2 ^ 64
    omega
  rw [UInt64.toNat_or, hshift, ← Nat.shiftLeft_add_eq_or_of_lt (i := 8) hd, Nat.shiftLeft_eq]
  omega

/-- The loop of the constructor puts the letters in front of the code, one after another. -/
lemma pushChars_eq {value : UInt64} {cs : List Char} {n : ℕ} (hvalue : value.toNat < 256 ^ n)
    (hn : n + cs.length ≤ 7) (h : ∀ c ∈ cs, 'A' ≤ c ∧ c ≤ 'Z') :
    pushChars value cs
      = .ok (UInt64.ofNat (cs.foldl (fun v c => c.toNat + 256 * v) value.toNat)) := by
  induction cs generalizing value n with
  | nil =>
    rw [pushChars, List.foldl_nil, UInt64.ofNat_toNat]
  | cons c cs ih =>
    obtain ⟨hlo, hhi⟩ := h c List.mem_cons_self
    rw [List.length_cons] at hn
    have hletter : IsLetter c.toNat := isLetter_toNat.mpr ⟨hlo, hhi⟩
    have hlt := hletter.lt
    have hchar : (UInt64.ofNat c.toNat).toNat = c.toNat := by
      rw [UInt64.toNat_ofNat']
      omega
    have hpow : 256 ^ n ≤ 256 ^ 7 := Nat.pow_le_pow_right (by decide) (by omega)
    have hpushed := toNat_pushed (hvalue.trans_le hpow) (hchar.trans_lt hlt)
    rw [hchar] at hpushed
    have hnext : (value <<< 8 ||| UInt64.ofNat c.toNat).toNat < 256 ^ (n + 1) := by
      rw [hpushed, Nat.pow_succ]
      omega
    have hcond : ¬ (c < 'A' ∨ 'Z' < c) := not_or.mpr ⟨not_lt.mpr hlo, not_lt.mpr hhi⟩
    rw [pushChars, if_neg hcond, List.foldl_cons, ← hpushed]
    exact ih hnext (by omega) fun d hd => h d (List.mem_cons_of_mem c hd)

/-- Another character ends the loop. -/
lemma pushChars_error {value : UInt64} {cs : List Char} (h : ¬ ∀ c ∈ cs, 'A' ≤ c ∧ c ≤ 'Z') :
    pushChars value cs = .error "only uppercase letters allowed in symbol_code string" := by
  induction cs generalizing value with
  | nil => exact absurd (fun c hc => absurd hc List.not_mem_nil) h
  | cons c cs ih =>
    rw [pushChars]
    split
    · rfl
    · rename_i hc
      rw [not_or, not_lt, not_lt] at hc
      apply ih
      intro hcs
      exact h (List.forall_mem_cons.mpr ⟨hc, hcs⟩)

/-- The code of an accepted string. -/
theorem ofString_eq {str : List Char} (h : Accepted str) :
    ofString str = .ok ⟨UInt64.ofNat (codeOf str)⟩ := by
  obtain ⟨hlen, hstr⟩ := h
  have hpush : pushChars 0 str.reverse
      = .ok (UInt64.ofNat (str.reverse.foldl (fun v c => c.toNat + 256 * v) 0)) :=
    pushChars_eq (n := 0) (by decide) (by rw [List.length_reverse]; omega)
      fun c hc => hstr c (List.mem_reverse.mp hc)
  have hcode : str.reverse.foldl (fun v c => c.toNat + 256 * v) 0 = codeOf str := by
    rw [List.foldl_reverse, codeOf, Nat.ofDigits_eq_foldr, List.foldr_map]
    rfl
  rw [ofString, if_neg (by omega), hpush, hcode]
  rfl

/-- No other string is accepted. -/
theorem ofString_error {str : List Char} (h : ¬ Accepted str) : ∃ msg, ofString str = .error msg := by
  unfold ofString
  by_cases hlen : str.length > 7
  · rw [if_pos hlen]
    exact ⟨_, rfl⟩
  · rw [if_neg hlen, pushChars_error fun hstr => h ⟨by omega, fun c hc =>
      hstr c (List.mem_reverse.mpr hc)⟩]
    exact ⟨_, rfl⟩

/-! ## The string of a code -/

/-- The characters of a code, lowest byte first. -/
lemma digits_next {sym : UInt64} (h : sym ≠ 0) :
    Nat.digits 256 sym.toNat = sym.toNat % 256 :: Nat.digits 256 (sym >>> 8).toNat := by
  have hpos : 0 < sym.toNat := Nat.pos_of_ne_zero fun h0 => h (UInt64.toNat_inj.mp h0)
  rw [Nat.digits_def' (by decide) hpos, toNat_next]

/-- The loops of `write_as_string` and `length` on the code of some letters. -/
lemma loops_eq {str : List Char} (h : ∀ c ∈ str, 'A' ≤ c ∧ c ≤ 'Z') {v : UInt64}
    (hv : v.toNat = codeOf str) {n : ℕ} (hn : str.length ≤ n) (len : ℕ) :
    writeChars n v = str ∧ lengthFrom n v len = len + str.length := by
  induction str generalizing n v len with
  | nil =>
    have hzero : v = 0 := UInt64.toNat_inj.mp hv
    subst hzero
    cases n with
    | zero => exact ⟨rfl, rfl⟩
    | succ n => exact ⟨rfl, rfl⟩
  | cons c str ih =>
    obtain ⟨m, rfl⟩ : ∃ m, n = m + 1 := ⟨n - 1, by rw [List.length_cons] at hn; omega⟩
    have hletter := isLetter_toNat.mpr (h c List.mem_cons_self)
    have hlt := hletter.lt
    rw [codeOf_cons] at hv
    -- the lowest byte is the first letter, and the shift leaves the others
    have hlow : v.toNat % 256 = c.toNat := by omega
    have hnext : (v >>> 8).toNat = codeOf str := by
      rw [toNat_next]
      omega
    have hne : v &&& 0xFF ≠ 0 := by
      rw [ne_eq, low_eq_zero, hlow]
      exact Nat.ne_of_gt (Nat.lt_of_lt_of_le (by decide) hletter.1)
    have hv0 : v ≠ 0 := by
      rintro rfl
      exact hne rfl
    have hchar : lowChar v = c := Char.toNat_inj.mp (by rw [toNat_lowChar, hlow])
    obtain ⟨hchars, hlen⟩ := ih (fun d hd => h d (List.mem_cons_of_mem c hd)) hnext
      (Nat.le_of_succ_le_succ hn) (len + 1)
    constructor
    · rw [writeChars, if_neg hv0, hchar, hchars]
    · rw [lengthFrom, if_pos hne, hlen, List.length_cons]
      omega

lemma toNat_codeOf {str : List Char} (h : Accepted str) :
    (UInt64.ofNat (codeOf str)).toNat = codeOf str := by
  have hlt := codeOf_lt h.2
  have hpow : 256 ^ str.length ≤ 256 ^ 7 := Nat.pow_le_pow_right (by decide) h.1
  rw [UInt64.toNat_ofNat']
  apply Nat.mod_eq_of_lt
  omega

/-- The string and the length of the code of an accepted string. -/
theorem toString_ofString {str : List Char} {c : SymbolCode} (h : ofString str = .ok c) :
    Accepted str ∧ c.value.toNat = codeOf str ∧ c.toString = str ∧ c.length = str.length := by
  have haccepted : Accepted str := by
    by_contra hnot
    obtain ⟨msg, hmsg⟩ := ofString_error hnot
    rw [hmsg] at h
    cases h
  rw [ofString_eq haccepted] at h
  obtain rfl := Except.ok.inj h
  have hvalue := toNat_codeOf haccepted
  have hlen := haccepted.1
  obtain ⟨hchars, -⟩ := loops_eq haccepted.2 hvalue hlen 0
  obtain ⟨-, hlength⟩ := loops_eq haccepted.2 hvalue (n := 8) (by omega) 0
  exact ⟨haccepted, hvalue, hchars, by rw [length, hlength, Nat.zero_add]⟩

/-! ## Valid codes -/

/-- The code of one to seven letters. -/
def IsCode (r : UInt64) : Prop := ∃ str c, str ≠ [] ∧ ofString str = .ok c ∧ r = c.value

/-- A code is a number with one to seven letters as digits. -/
lemma isCode_iff {r : UInt64} : IsCode r ↔ r ≠ 0 ∧ (Nat.digits 256 r.toNat).length ≤ 7 ∧
    ∀ d ∈ Nat.digits 256 r.toNat, IsLetter d := by
  constructor
  · rintro ⟨str, c, hne, hc, rfl⟩
    obtain ⟨haccepted, hvalue, -, -⟩ := toString_ofString hc
    have hdigits : Nat.digits 256 c.value.toNat = str.map Char.toNat := by
      rw [hvalue, digits_codeOf haccepted.2]
    refine ⟨?_, ?_, ?_⟩
    · intro hzero
      rw [hzero] at hdigits
      exact hne (List.map_eq_nil_iff.mp hdigits.symm)
    · rw [hdigits, List.length_map]
      exact haccepted.1
    · rw [hdigits]
      intro d hd
      obtain ⟨x, hx, rfl⟩ := List.mem_map.mp hd
      exact isLetter_toNat.mpr (haccepted.2 x hx)
  · rintro ⟨hne, hlen, hletters⟩
    have hchars : ((Nat.digits 256 r.toNat).map Char.ofNat).map Char.toNat
        = Nat.digits 256 r.toNat := by
      rw [List.map_map]
      calc (Nat.digits 256 r.toNat).map (Char.toNat ∘ Char.ofNat)
          = (Nat.digits 256 r.toNat).map id :=
            List.map_congr_left fun d hd => by
              have hlt := (hletters d hd).lt
              have hvalid : d.isValidChar := .inl (by omega)
              rw [Function.comp_apply, Char.ofNat, dif_pos hvalid]
              rfl
        _ = Nat.digits 256 r.toNat := List.map_id _
    have haccepted : Accepted ((Nat.digits 256 r.toNat).map Char.ofNat) := by
      refine ⟨by rwa [List.length_map], fun c hc => ?_⟩
      rw [← isLetter_toNat]
      apply hletters
      rw [← hchars]
      exact List.mem_map_of_mem hc
    refine ⟨_, _, ?_, ofString_eq haccepted, ?_⟩
    · intro hnil
      rw [List.map_eq_nil_iff, Nat.digits_eq_nil_iff_eq_zero] at hnil
      exact hne (UInt64.toNat_inj.mp hnil)
    · show r = UInt64.ofNat (Nat.ofDigits 256 _)
      rw [hchars, Nat.ofDigits_digits, UInt64.ofNat_toNat]

/-- The inner loop accepts when nothing is left behind a zero byte. -/
lemma onlyZeros_iff {n : ℕ} {sym : UInt64} (hlow : sym.toNat % 256 = 0)
    (hlt : sym.toNat < 256 ^ n) : onlyZeros n sym = true ↔ sym = 0 := by
  induction n generalizing sym with
  | zero =>
    have hzero : sym.toNat = 0 := by omega
    exact iff_of_true rfl (UInt64.toNat_inj.mp hzero)
  | succ n ih =>
    have hnext : (sym >>> 8).toNat < 256 ^ n := by
      rw [toNat_next]
      exact (Nat.div_lt_iff_lt_mul (by decide)).mpr hlt
    have hsplit : sym = 0 ↔ sym >>> 8 = 0 := by
      rw [← UInt64.toNat_inj, ← UInt64.toNat_inj, toNat_next]
      show sym.toNat = 0 ↔ sym.toNat / 256 = 0
      omega
    rw [onlyZeros, hsplit]
    by_cases hbyte : (sym >>> 8) &&& 0xFF = 0
    · rw [if_neg (not_not.mpr hbyte)]
      exact ih (low_eq_zero.mp hbyte) hnext
    · rw [if_pos hbyte]
      refine iff_of_false Bool.false_ne_true ?_
      intro hzero
      rw [hzero] at hbyte
      exact hbyte rfl

/-- With `n` turns to go, `is_valid` looks at the next `n` characters. -/
lemma validFrom_iff {n : ℕ} {sym : UInt64} (hlt : sym.toNat < 256 ^ (n + 1)) :
    validFrom n sym = true ↔
      (n = 0 ∨ sym ≠ 0) ∧ ∀ d ∈ (Nat.digits 256 sym.toNat).take n, IsLetter d := by
  induction n generalizing sym with
  | zero => exact iff_of_true rfl ⟨.inl rfl, fun d hd => by cases hd⟩
  | succ n ih =>
    have hletter : ('A' ≤ lowChar sym ∧ lowChar sym ≤ 'Z') ↔ IsLetter (sym.toNat % 256) := by
      rw [← isLetter_toNat, toNat_lowChar]
    rw [validFrom]
    by_cases hfirst : IsLetter (sym.toNat % 256)
    · have hne : sym ≠ 0 := by
        rintro rfl
        exact absurd hfirst.1 (by decide)
      have hnext : (sym >>> 8).toNat < 256 ^ (n + 1) := by
        rw [toNat_next]
        exact (Nat.div_lt_iff_lt_mul (by decide)).mpr hlt
      rw [if_neg (not_not.mpr (hletter.mpr hfirst)), digits_next hne, List.take_succ_cons,
        List.forall_mem_cons]
      have hih := ih hnext
      show (if (sym >>> 8) &&& 0xFF = 0 then onlyZeros (n + 1) (sym >>> 8)
        else validFrom n (sym >>> 8)) = true ↔ _
      by_cases hbyte : (sym >>> 8) &&& 0xFF = 0
      · -- a zero byte: it must be the end
        rw [if_pos hbyte, onlyZeros_iff (low_eq_zero.mp hbyte) hnext]
        constructor
        · intro hzero
          refine ⟨.inr hne, hfirst, ?_⟩
          rw [hzero]
          simp
        · rintro ⟨-, -, hrest⟩
          by_contra hzero
          rw [digits_next hzero, low_eq_zero.mp hbyte] at hrest
          cases n with
          | zero =>
            have hlow := low_eq_zero.mp hbyte
            exact hzero (UInt64.toNat_inj.mp (show (sym >>> 8).toNat = 0 by omega))
          | succ n => exact absurd (hrest 0 List.mem_cons_self).1 (by decide)
      · have hzero : sym >>> 8 ≠ 0 := by
          intro h
          rw [h] at hbyte
          exact hbyte rfl
        rw [if_neg hbyte, hih]
        simp [hne, hzero, hfirst]
    · rw [if_pos (fun h => hfirst (hletter.mp h))]
      refine iff_of_false Bool.false_ne_true ?_
      rintro ⟨hne, hall⟩
      have hne' : sym ≠ 0 := hne.resolve_left (Nat.succ_ne_zero n)
      rw [digits_next hne', List.take_succ_cons] at hall
      exact hfirst (hall _ List.mem_cons_self)

/-- `is_valid` looks at the first seven characters. -/
theorem isValid_iff (c : SymbolCode) : c.isValid = true ↔
    c.value ≠ 0 ∧ ∀ d ∈ (Nat.digits 256 c.value.toNat).take 7, IsLetter d := by
  rw [isValid, validFrom_iff c.value.toNat_lt]
  simp

/-- Seven letters with a byte behind them. -/
def Overlong (r : UInt64) : Prop :=
  2 ^ 56 ≤ r.toNat ∧ ∀ d ∈ (Nat.digits 256 r.toNat).take 7, IsLetter d

/-- `is_valid` accepts the codes of strings, and the seven letters with another byte. -/
theorem isValid_iff_isCode (c : SymbolCode) :
    (c.isValid = true ↔ IsCode c.value) ↔ ¬ Overlong c.value := by
  have hlen : (Nat.digits 256 c.value.toNat).length ≤ 7 ↔ c.value.toNat < 2 ^ 56 :=
    Nat.digits_length_le_iff (by decide) c.value.toNat
  rw [isValid_iff, isCode_iff, hlen, Overlong]
  by_cases hshort : c.value.toNat < 2 ^ 56
  · rw [List.take_of_length_le (hlen.mpr hshort)]
    exact iff_of_true (by tauto) fun h => absurd h.1 (Nat.not_le.mpr hshort)
  · have hne : c.value ≠ 0 := by
      intro h
      rw [h] at hshort
      exact hshort (by decide)
    have hlong := Nat.not_lt.mp hshort
    tauto

end SymbolCode

lemma Symbol.toNat_code (s : Symbol) : s.code.value.toNat = s.value.toNat / 256 :=
  SymbolCode.toNat_next s.value

/-- A symbol is valid exactly when its upper bits are the code of a string. -/
theorem Symbol.isValid_iff (s : Symbol) : s.isValid = true ↔ SymbolCode.IsCode s.code.value := by
  rw [isValid, SymbolCode.isValid_iff_isCode]
  rintro ⟨hlong, -⟩
  have hlt := s.value.toNat_lt
  rw [s.toNat_code] at hlong
  omega

namespace SymbolCode

/-- A string is accepted when it has up to seven letters, and its code is written as the string; valid
are the codes of letters and the symbols with such a code. -/
def ValidityAgrees (str : List Char) (r : UInt64) : Prop :=
  ((∃ c, ofString str = .ok c) ↔ str.length ≤ 7 ∧ ∀ c ∈ str, 'A' ≤ c ∧ c ≤ 'Z') ∧
  (∀ c, ofString str = .ok c → c.toString = str ∧ c.length = str.length) ∧
  (SymbolCode.isValid ⟨r⟩ = true ↔ IsCode r) ∧
  (Symbol.isValid ⟨r⟩ = true ↔ IsCode (r >>> 8))

/-- Validity agrees with the constructor on every string and every raw value, but for the raw values
of seven letters with another byte behind them. -/
theorem validityAgrees_iff (str : List Char) (r : UInt64) :
    ValidityAgrees str r ↔ ¬ Overlong r := by
  have haccepted : (∃ c, ofString str = .ok c) ↔ Accepted str :=
    ⟨fun ⟨_, hc⟩ => (toString_ofString hc).1, fun h => ⟨_, ofString_eq h⟩⟩
  have hstring : ∀ c, ofString str = .ok c → c.toString = str ∧ c.length = str.length :=
    fun c hc => (toString_ofString hc).2.2
  have hsymbol : Symbol.isValid ⟨r⟩ = true ↔ IsCode (r >>> 8) := Symbol.isValid_iff ⟨r⟩
  rw [← isValid_iff_isCode ⟨r⟩]
  exact ⟨fun h => h.2.2.1, fun h => ⟨haccepted, hstring, h, hsymbol⟩⟩

/-- Seven times the letter A, and a byte 1. -/
theorem exists_overlong : ¬ ∀ (str : List Char) (r : UInt64), ValidityAgrees str r := by
  intro h
  have hletters : ∀ d ∈ (Nat.digits 256 0x0141414141414141).take 7, IsLetter d := by
    simp [IsLetter]
  exact (isValid_iff_isCode ⟨0x0141414141414141⟩).mp (h [] 0x0141414141414141).2.2.1
    ⟨by decide, hletters⟩

end SymbolCode

/-! ## Printing -/

section print

variable {cs : List Char} {p : UInt8} {s : Symbol}

/-- The code and the precision of a symbol of a string. -/
lemma Symbol.ofString_ok (h : Symbol.ofString cs p = .ok s) :
    SymbolCode.Accepted cs ∧ s.precision = p ∧ s.code.toString = cs := by
  cases hsc : SymbolCode.ofString cs with
  | error msg =>
    rw [Symbol.ofString, hsc] at h
    cases h
  | ok sc =>
    rw [Symbol.ofString, hsc] at h
    obtain rfl := Except.ok.inj h
    obtain ⟨haccepted, hvalue, hstring, -⟩ := SymbolCode.toString_ofString hsc
    have hcode := SymbolCode.codeOf_lt haccepted.2
    have hpow : 256 ^ cs.length ≤ 256 ^ 7 := Nat.pow_le_pow_right (by decide) haccepted.1
    have hp := p.toNat_lt
    have hraw : (Symbol.ofCode sc p).value.toNat = p.toNat + 256 * sc.value.toNat :=
      SymbolCode.toNat_pushed (by omega) hp
    have hprecision : (Symbol.ofCode sc p).precision = p := by
      apply UInt8.toNat_inj.mp
      rw [Symbol.precision, UInt64.toNat_toUInt8, SymbolCode.toNat_low, hraw]
      omega
    have hsame : (Symbol.ofCode sc p).code = sc := by
      have hnat : (Symbol.ofCode sc p).code.value.toNat = sc.value.toNat := by
        rw [Symbol.toNat_code, hraw]
        omega
      exact congrArg SymbolCode.mk (UInt64.toNat_inj.mp hnat)
    exact ⟨haccepted, hprecision, by rw [hsame, hstring]⟩

/-- Letters are printed up to a terminator behind them. -/
lemma prints_append (hcs : ∀ c ∈ cs, 'A' ≤ c ∧ c ≤ 'Z') (memory : List Char) :
    prints (cs ++ memory) = (prints memory).map (cs ++ ·) := by
  have hne : ∀ c ∈ cs, c ≠ '\x00' := by
    rintro c hc rfl
    exact absurd (hcs _ hc).1 (by decide)
  have hmem : '\x00' ∈ cs ++ memory ↔ '\x00' ∈ memory := by
    rw [List.mem_append]
    exact or_iff_right fun h => hne _ h rfl
  unfold prints
  by_cases hnul : '\x00' ∈ memory
  · rw [if_pos (hmem.mpr hnul), if_pos hnul,
      List.takeWhile_append_of_pos fun c hc => decide_eq_true (hne c hc)]
    rfl
  · rw [if_neg (mt hmem.mp hnul), if_neg hnul]
    rfl

/-- `symbol::print` goes on with what the memory holds behind the code, and then prints the length of
the code. -/
theorem Symbol.print_eq (h : Symbol.ofString cs p = .ok s) (hne : cs ≠ []) (memory : List Char) :
    s.print memory true = (prints (memory.drop cs.length)).map fun tail =>
      printui p.toUInt64 ++ [','] ++ cs ++ tail ++ printi cs.length := by
  obtain ⟨haccepted, hprecision, hstring⟩ := Symbol.ofString_ok h
  rw [Symbol.print, hstring, hprecision, if_pos hne, writeBuffer, prints_append haccepted.2]
  cases prints (memory.drop cs.length) with
  | none => rfl
  | some tail =>
    show some _ = some _
    simp

/-- The text that a symbol should print. -/
def symbolText (cs : List Char) (p : UInt8) : List Char := printui p.toUInt64 ++ [','] ++ cs

/-- What is printed is longer than the symbol. -/
lemma length_symbolText_lt (cs : List Char) (p : UInt8) (tail : List Char) :
    (symbolText cs p).length < (symbolText cs p ++ tail ++ printi cs.length).length := by
  have hpos : 0 < (printi cs.length).length := List.length_pos_iff.mpr (Nat.toDigits_ne_nil)
  rw [List.length_append, List.length_append]
  omega

lemma Symbol.print_ne (h : Symbol.ofString cs p = .ok s) (hne : cs ≠ []) (memory : List Char) :
    s.print memory true ≠ some (symbolText cs p) := by
  intro hexact
  rw [Symbol.print_eq h hne, Option.map_eq_some_iff] at hexact
  obtain ⟨tail, -, htext⟩ := hexact
  exact absurd (congrArg List.length htext) (Nat.ne_of_gt (length_symbolText_lt cs p tail))

lemma ExtendedSymbol.print_ne (h : Symbol.ofString cs p = .ok s) (hne : cs ≠ [])
    (contract : Name) (memory : List Char) :
    ExtendedSymbol.print ⟨s, contract⟩ memory true
      ≠ some (symbolText cs p ++ ['@'] ++ contract.toString) := by
  intro hexact
  rw [ExtendedSymbol.print, Symbol.print_eq h hne] at hexact
  cases htail : prints (memory.drop cs.length) with
  | none =>
    rw [htail] at hexact
    cases hexact
  | some tail =>
    rw [htail] at hexact
    -- without the contract behind them, these are the two texts of the symbol
    have hsame := List.append_cancel_right (List.append_cancel_right (Option.some.inj hexact))
    exact absurd (congrArg List.length hsame) (Nat.ne_of_gt (length_symbolText_lt cs p tail))

/-- The text depends on the memory: a terminator may stand right behind the code, or further on. -/
lemma Symbol.exists_print_ne (h : Symbol.ofString cs p = .ok s) (hne : cs ≠ []) :
    ∃ memory memory' text text', 7 < memory.length ∧ 7 < memory'.length ∧
      s.print memory true = some text ∧ s.print memory' true = some text' ∧ text ≠ text' := by
  have hprint := Symbol.print_eq h hne
  have hlen := (Symbol.ofString_ok h).1.1
  obtain ⟨m, hm⟩ : ∃ m, 8 - cs.length = m + 1 := ⟨7 - cs.length, by omega⟩
  have htail : prints ((List.replicate 8 '\x00').drop cs.length) = some [] := by
    rw [List.drop_replicate, hm]
    rfl
  have htail' : prints ((List.replicate 8 'x' ++ ['\x00']).drop cs.length)
      = some (List.replicate (m + 1) 'x') := by
    rw [List.drop_append_of_le_length (by rw [List.length_replicate]; omega),
      List.drop_replicate, hm, prints, if_pos (by simp), List.takeWhile_append_of_pos]
    · simp
    · intro c hc
      rw [List.eq_of_mem_replicate hc]
      rfl
  refine ⟨_, _, _, _, by decide, ?_, (hprint _).trans (congrArg _ htail),
    (hprint _).trans (congrArg _ htail'), ?_⟩
  · rw [List.length_append, List.length_replicate]
    decide
  · intro hsame
    have hlength := congrArg List.length hsame
    simp at hlength

/-- For no symbol of letters and no memory does `symbol::print` print the symbol, nor
`extended_symbol::print` the symbol and the contract, and for each symbol there are memories behind
the buffer that make a difference. -/
theorem print_never_exact (h : Symbol.ofString cs p = .ok s) (hne : cs ≠ []) (contract : Name) :
    (∀ memory, s.print memory true ≠ some (symbolText cs p)) ∧
    (∀ memory, ExtendedSymbol.print ⟨s, contract⟩ memory true
      ≠ some (symbolText cs p ++ ['@'] ++ contract.toString)) ∧
    ∃ memory memory' text text', 7 < memory.length ∧ 7 < memory'.length ∧
      s.print memory true = some text ∧ s.print memory' true = some text' ∧ text ≠ text' :=
  ⟨Symbol.print_ne h hne, ExtendedSymbol.print_ne h hne contract, Symbol.exists_print_ne h hne⟩

/-- The symbol `0,A` of the contract `a`. -/
theorem print_never_exact_A :
    let s : Symbol := ⟨0x4100⟩
    (∀ memory, s.print memory true ≠ some (symbolText ['A'] 0)) ∧
    (∀ memory, ExtendedSymbol.print ⟨s, ⟨0x3000000000000000⟩⟩ memory true
      ≠ some (symbolText ['A'] 0 ++ ['@'] ++ Name.toString ⟨0x3000000000000000⟩)) ∧
    ∃ memory memory' text text', 7 < memory.length ∧ 7 < memory'.length ∧
      s.print memory true = some text ∧ s.print memory' true = some text' ∧ text ≠ text' :=
  print_never_exact (by decide) (by decide) ⟨0x3000000000000000⟩

/-- The symbol `0,A` with a terminator right behind the code. -/
theorem exists_print_inexact : ¬ ∀ (cs : List Char) (p : UInt8) (s : Symbol) (memory : List Char),
    Symbol.ofString cs p = .ok s → cs ≠ [] → s.print memory true = some (symbolText cs p) := by
  intro h
  have hexact := h ['A'] 0 ⟨0x4100⟩ (List.replicate 8 '\x00') (by decide) (by decide)
  have hletter : Symbol.ofString ['A'] 0 = .ok ⟨0x4100⟩ := by decide
  rw [Symbol.print_eq hletter (by decide)] at hexact
  exact absurd hexact (by decide)

end print

end UosioCdt.Core
