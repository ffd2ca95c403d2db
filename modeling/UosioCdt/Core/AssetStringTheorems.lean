import UosioCdt.Core.AssetString
import UosioCdt.Core.AssetTheorems
import UosioCdt.Core.SymbolTheorems
import Mathlib.Data.List.TakeWhile

/-!
# The string of an asset

Up to a precision of 18, `to_string` runs without a fault and prints the amount in decimal notation,
but for the sign of an amount between -1 and 0. From a precision of 19 on its power of ten wraps.
-/

namespace UosioCdt.Core

open WrapArith Decimal

namespace Asset

/-! ## The power of ten -/

/-- A power of ten that fits is computed exactly. -/
lemma powerOfTen_returns {p : ℕ} {v : BitVec 64} (hv : 0 ≤ v.toInt)
    (h : v.toInt * 10 ^ p < 2 ^ 63) :
    Returns (fun r => r.toInt = v.toInt * 10 ^ p) (powerOfTen p v) := by
  induction p generalizing v with
  | zero => exact .pure (by rw [pow_zero, mul_one])
  | succ p ih =>
    have hsplit : v.toInt * 10 ^ (p + 1) = v.toInt * 10 * 10 ^ p := by ring
    have hpow : (1 : ℤ) ≤ 10 ^ p := one_le_pow₀ (by decide)
    have hfits : Fits 64 (v.toInt * 10) := by
      have hle : v.toInt * 10 ≤ v.toInt * 10 * 10 ^ p := le_mul_of_one_le_right (by omega) hpow
      unfold Fits
      omega
    refine (Returns.word hfits).bind fun r hr => ?_
    rw [hsplit, ← hr]
    exact ih (by omega) (by rw [hr, ← hsplit]; exact h)

lemma powerOfTen_add (p q : ℕ) (v : BitVec 64) :
    powerOfTen (p + q) v = powerOfTen p v >>= powerOfTen q := by
  induction p generalizing v with
  | zero =>
    rw [Nat.zero_add]
    rfl
  | succ p ih =>
    rw [Nat.succ_add, powerOfTen, powerOfTen, Arith.bind_assoc]
    congr 1
    funext r
    exact ih r

/-- From 19 factors on, the power of ten wraps. -/
lemma powerOfTen_wrapped {p : ℕ} (hp : 18 < p) : (powerOfTen p 1).wrapped = true := by
  obtain ⟨k, rfl⟩ : ∃ k, p = 18 + (k + 1) := ⟨p - 19, by omega⟩
  obtain ⟨r, hr, hvalue⟩ := powerOfTen_returns (p := 18) (v := 1) (by decide) (by decide)
  -- eighteen factors fit, and the next one does not
  have hnot : ¬ Fits 64 (r.toInt * 10) := by
    rw [hvalue]
    decide
  have hmul : (WrapArith.mul r 10 : StringOp _).wrapped = true := by
    show (!decide (Fits 64 (r.toInt * 10))) = true
    rw [decide_eq_false hnot]
    rfl
  rw [powerOfTen_add, hr]
  exact wrapped_bind hmul _

/-! ## The digits of the fraction -/

/-- The loop stores the lowest digits of the number. -/
lemma fractionDigits_returns (n : ℕ) (change : BitVec 64) (buffer : List Char)
    (hchange : 0 ≤ change.toInt) (hlen : n ≤ buffer.length) :
    Returns (· = lowDigits n change.toInt.natAbs ++ buffer.drop n)
      (fractionDigits n change buffer) := by
  induction n generalizing change buffer with
  | zero => exact .pure (by rw [lowDigits, List.nil_append, List.drop_zero])
  | succ n ih =>
    have hfits := fits_toInt change
    have hmod : change.toInt.tmod 10 = change.toInt % 10 := Int.tmod_eq_emod_of_nonneg hchange
    have hdiv : change.toInt.tdiv 10 = change.toInt / 10 := Int.tdiv_eq_ediv_of_nonneg hchange
    have hrem : Fits 64 (change.toInt.tmod 10) := by
      rw [hmod, Fits]
      omega
    refine (Returns.rem (by decide) hrem).bind fun digit hdigit => ?_
    have hdigit' : digit.toInt = change.toInt % 10 := hdigit.trans hmod
    have hadd : Fits 64 (digit.toInt + 48) := by
      rw [hdigit', Fits]
      omega
    refine (Returns.word hadd).bind fun c hc => ?_
    -- the character is the digit of the remainder
    have hchar : Char.ofNat (c.setWidth 8).toNat = Nat.digitChar (change.toInt.natAbs % 10) := by
      have htable : ∀ d < 10, Char.ofNat (48 + d) = Nat.digitChar d := by decide
      have hnat : (c.setWidth 8).toNat = 48 + change.toInt.natAbs % 10 := by
        have hcint := BitVec.toInt_eq_toNat_bmod c
        rw [hc, hdigit', Int.bmod_def] at hcint
        have hlt := c.isLt
        rw [BitVec.toNat_setWidth]
        split at hcint <;> omega
      rw [hnat, htable _ (Nat.mod_lt _ (by decide))]
    have hlt : n < buffer.length := hlen
    rw [store, if_pos hlt, hchar]
    refine (Returns.div (by decide) (fits_tdiv_of_pos change (by decide))).bind fun next hnext => ?_
    have hnext' : next.toInt = change.toInt / 10 := hnext.trans hdiv
    have hnatAbs : next.toInt.natAbs = change.toInt.natAbs / 10 := by
      rw [hnext']
      omega
    have hih := ih next (buffer.set n (Nat.digitChar (change.toInt.natAbs % 10)))
      (by omega) (by rw [List.length_set]; omega)
    have hdrop : (buffer.set n (Nat.digitChar (change.toInt.natAbs % 10))).drop n
        = Nat.digitChar (change.toInt.natAbs % 10) :: buffer.drop (n + 1) := by
      rw [List.drop_eq_getElem_cons (by rw [List.length_set]; exact hlt), List.getElem_set_self,
        List.drop_set_of_lt (Nat.lt_succ_self n)]
    rw [hdrop, hnatAbs] at hih
    rw [lowDigits, List.append_assoc]
    exact hih

/-! ## The text -/

section text

variable {a b : Asset}

/-- The precision of the symbol. -/
def places (a : Asset) : ℕ := a.symbol.precision.toNat

/-- The magnitude of the amount is below one, and the amount is negative. -/
def LosesSign (a : Asset) : Prop := -10 ^ a.places < a.amount.toInt ∧ a.amount.toInt < 0

instance (a : Asset) : Decidable a.LosesSign := by
  unfold LosesSign
  infer_instance

/-- The amount that the text shows. -/
def shown (a : Asset) : ℤ := if a.LosesSign then -a.amount.toInt else a.amount.toInt

/-- The range and the symbol of a valid asset. -/
lemma isValid_iff : a.isValid = true ↔ a.InRange ∧ a.symbol.isValid = true := by
  have hlo : (-maxAmount).sle a.amount = true ↔ -Exact.limit ≤ a.amount.toInt := by
    rw [BitVec.sle_iff_toInt_le, toInt_neg_maxAmount]
  have hhi : a.amount.sle maxAmount = true ↔ a.amount.toInt ≤ Exact.limit := by
    rw [BitVec.sle_iff_toInt_le, toInt_maxAmount]
  rw [isValid, Bool.and_eq_true, Bool.and_eq_true, hlo, hhi, InRange, abs_le]

/-- The code of a valid asset is written with one to seven letters. -/
lemma code_of_isValid (h : a.isValid = true) :
    SymbolCode.Accepted a.symbol.code.toString ∧
      a.symbol.code.value.toNat = SymbolCode.codeOf a.symbol.code.toString := by
  obtain ⟨-, hsymbol⟩ := isValid_iff.mp h
  obtain ⟨str, c, -, hc, hvalue⟩ := (Symbol.isValid_iff a.symbol).mp hsymbol
  have hcode : a.symbol.code = c := congrArg SymbolCode.mk hvalue
  obtain ⟨haccepted, hnat, hstring, -⟩ := SymbolCode.toString_ofString hc
  rw [hcode, hstring]
  exact ⟨haccepted, hnat⟩

lemma cString_of_not_mem {t : List Char} (h : '\x00' ∉ t) : cString t = t := by
  rw [cString, List.takeWhile_eq_self_iff]
  intro c hc
  rw [decide_eq_true_eq]
  rintro rfl
  exact h hc

lemma cString_append_nul {t : List Char} (h : '\x00' ∉ t) : cString (t ++ ['\x00']) = t := by
  have hself := cString_of_not_mem h
  rw [cString, List.takeWhile_append, ← cString, hself, if_pos rfl]
  simp

lemma nul_not_mem_lowDigits (p n : ℕ) : '\x00' ∉ lowDigits p n :=
  not_mem_of_isDigit isDigit_lowDigits (by decide)

lemma natAbs_shown (a : Asset) : a.shown.natAbs = a.amount.toInt.natAbs := by
  unfold shown
  split
  · rw [Int.natAbs_neg]
  · rfl

/-- The text shows a sign when the amount is at most -1. -/
lemma shown_neg_iff : a.shown < 0 ↔ a.amount.toInt ≤ -10 ^ a.places := by
  have hpow : (0 : ℤ) < 10 ^ a.places := by positivity
  unfold shown
  by_cases h : a.LosesSign
  · rw [if_pos h]
    unfold LosesSign at h
    omega
  · rw [if_neg h]
    unfold LosesSign at h
    omega

/-- The quotient is negative in the same case. -/
lemma tdiv_neg_iff {m n : ℤ} (hn : 0 < n) : m.tdiv n < 0 ↔ m ≤ -n := by
  rw [tdiv_eq_ite]
  split
  · rename_i hm
    have hdiv := Int.ediv_nonneg hm hn.le
    omega
  · have hle : 1 ≤ -m / n ↔ 1 * n ≤ -m := Int.le_ediv_iff_mul_le hn
    omega

/-- The sign and the integer part, with the fraction behind them. -/
lemma signed_append_fraction (a : Asset) :
    signed (a.amount.toInt.tdiv (10 ^ a.places))
      ++ fraction a.places (a.amount.toInt.natAbs % 10 ^ a.places)
    = fixedPoint a.places a.shown := by
  have hpow : (0 : ℤ) < 10 ^ a.places := by positivity
  have hnat : (a.amount.toInt.tdiv (10 ^ a.places)).natAbs
      = a.amount.toInt.natAbs / 10 ^ a.places := by
    rw [Int.natAbs_tdiv, Int.natAbs_pow]
    rfl
  rw [fixedPoint, signed, natAbs_shown, hnat]
  simp only [tdiv_neg_iff hpow, shown_neg_iff]

/-- The text of a valid asset has no terminator. -/
lemma nul_not_mem_text (h : a.isValid = true) :
    '\x00' ∉ fixedPoint a.places a.shown ++ [' '] ++ a.symbol.code.toString := by
  have hletters := (code_of_isValid h).1.2
  have hcode : '\x00' ∉ a.symbol.code.toString := fun hmem => absurd (hletters _ hmem).1 (by decide)
  have hdigits : '\x00' ∉ Nat.toDigits 10 (a.shown.natAbs / 10 ^ a.places) :=
    not_mem_of_isDigit (isDigit_toDigits _) (by decide)
  have hfraction : '\x00' ∉ fraction a.places (a.shown.natAbs % 10 ^ a.places) := by
    unfold fraction
    split
    · exact List.not_mem_nil
    · rw [List.mem_cons, not_or]
      exact ⟨by decide, nul_not_mem_lowDigits _ _⟩
  have hsign : '\x00' ∉ (if a.shown < 0 then ['-'] else []) := by
    split
    · decide
    · exact List.not_mem_nil
  rw [fixedPoint]
  simp only [List.mem_append, not_or]
  exact ⟨⟨⟨⟨hsign, hdigits⟩, hfraction⟩, by decide⟩, hcode⟩

/-- The text of a valid asset fits into the buffer, with its terminator. -/
lemma length_text (h : a.isValid = true) :
    (fixedPoint a.places a.shown ++ [' '] ++ a.symbol.code.toString).length ≤ a.places + 31 := by
  have hcode : a.symbol.code.toString.length ≤ 7 := (code_of_isValid h).1.1
  have hbounds := (isValid_iff.mp h).1.bounds
  -- 2^62 has nineteen digits
  have hdigits : (Nat.toDigits 10 (a.shown.natAbs / 10 ^ a.places)).length ≤ 19 := by
    rw [Nat.length_toDigits_le_iff (by decide) (by decide), natAbs_shown]
    have hdiv := Nat.div_le_self a.amount.toInt.natAbs (10 ^ a.places)
    have hpow : (10 : ℕ) ^ 19 = 10000000000000000000 := by norm_num
    omega
  have hfraction : (fraction a.places (a.shown.natAbs % 10 ^ a.places)).length ≤ a.places + 1 := by
    unfold fraction
    split
    · exact Nat.zero_le _
    · rw [List.length_cons, length_lowDigits]
  have hsign : (if a.shown < 0 then ['-'] else []).length ≤ 1 := by split <;> decide
  rw [fixedPoint]
  simp only [List.length_append, List.length_singleton]
  omega

/-- What the last step of `to_string` returns. -/
lemma snprintf_text (h : a.isValid = true) {integer : BitVec 64}
    (hinteger : integer.toInt = a.amount.toInt.tdiv (10 ^ a.places)) {digits : List Char}
    (hdigits : digits = lowDigits a.places (a.amount.toInt.natAbs % 10 ^ a.places) ++ ['\x00']) :
    cString (snprintf (a.places + 32) (signed integer.toInt
      ++ (if digits.head? ≠ some '\x00' then ['.'] else []) ++ cString digits ++ [' ']
      ++ cString a.symbol.code.toString))
    = fixedPoint a.places a.shown ++ [' '] ++ a.symbol.code.toString := by
  have hcode : cString a.symbol.code.toString = a.symbol.code.toString :=
    cString_of_not_mem fun hmem =>
      absurd ((code_of_isValid h).1.2 _ hmem).1 (by decide)
  have hlow := nul_not_mem_lowDigits a.places (a.amount.toInt.natAbs % 10 ^ a.places)
  have hcut : cString digits = lowDigits a.places (a.amount.toInt.natAbs % 10 ^ a.places) := by
    rw [hdigits, cString_append_nul hlow]
  -- there is a point when there is a first digit
  have hfraction : (if digits.head? ≠ some '\x00' then ['.'] else []) ++ cString digits
      = fraction a.places (a.amount.toInt.natAbs % 10 ^ a.places) := by
    rw [hcut, hdigits, fraction]
    by_cases hp : a.places = 0
    · rw [hp]
      rfl
    · have hne : lowDigits a.places (a.amount.toInt.natAbs % 10 ^ a.places) ≠ [] := by
        rw [← List.length_pos_iff, length_lowDigits]
        exact Nat.pos_of_ne_zero hp
      have hhead : (lowDigits a.places (a.amount.toInt.natAbs % 10 ^ a.places)
          ++ ['\x00']).head? ≠ some '\x00' := by
        rw [List.head?_append_of_ne_nil _ hne]
        exact fun h => hlow (List.mem_of_mem_head? h)
      rw [if_pos hhead, if_neg hp]
      rfl
  have hfit : snprintf (a.places + 32) (fixedPoint a.places a.shown ++ [' ']
      ++ a.symbol.code.toString) = fixedPoint a.places a.shown ++ [' '] ++ a.symbol.code.toString :=
    List.take_of_length_le (length_text h)
  rw [List.append_assoc (signed integer.toInt), hfraction, hinteger, signed_append_fraction, hcode,
    hfit, cString_of_not_mem (nul_not_mem_text h)]

/-- The factor `invert` makes the remainder positive. -/
lemma tmod_mul_invert (amount : BitVec 64) (n : ℤ) :
    amount.toInt.tmod n * (if amount.slt 0 then -1 else 1 : BitVec 64).toInt
      = (amount.toInt.tmod n).natAbs := by
  by_cases hneg : amount.toInt < 0
  · have hsign : 0 ≤ (-amount.toInt).tmod n := Int.tmod_nonneg _ (by omega)
    rw [Int.neg_tmod] at hsign
    rw [if_pos (BitVec.slt_iff_toInt_lt.mpr hneg)]
    show _ * (-1 : ℤ) = _
    omega
  · have hsign : 0 ≤ amount.toInt.tmod n := Int.tmod_nonneg _ (by omega)
    rw [if_neg (by rw [BitVec.slt_iff_toInt_lt]; exact hneg)]
    show _ * (1 : ℤ) = _
    omega

/-- What `to_string` returns for a valid asset, whatever the memory holds. -/
theorem toString_eq (h : a.isValid = true) (hp : a.places ≤ 18) (memory : ℕ → Char) :
    a.toString memory
      = pure (fixedPoint a.places a.shown ++ [' '] ++ a.symbol.code.toString) := by
  have hbounds := (isValid_iff.mp h).1.bounds
  have hpow : (10 : ℤ) ^ a.places ≤ 10 ^ 18 := pow_le_pow_right₀ (by decide) hp
  have hpos : (0 : ℤ) < 10 ^ a.places := by positivity
  apply Returns.eq
  refine (powerOfTen_returns (p := a.places) (v := 1) (by decide) ?_).bind fun p10 hp10 => ?_
  · show 1 * (10 : ℤ) ^ a.places < 2 ^ 63
    omega
  have hp10' : p10.toInt = 10 ^ a.places := hp10.trans (one_mul _)
  have hne : p10 ≠ 0 := by
    rintro rfl
    rw [← hp10'] at hpos
    exact absurd hpos (by decide)
  have hstore : Returns (· = ((List.range (a.places + 1)).map memory).set a.places '\x00')
      (store ((List.range (a.places + 1)).map memory) a.places '\x00') := by
    rw [store, if_pos (by simp)]
    exact .pure rfl
  refine hstore.bind fun buffer hbuffer => ?_
  have hnatAbs : (a.amount.toInt.tmod p10.toInt).natAbs
      = a.amount.toInt.natAbs % 10 ^ a.places := by
    rw [hp10', Int.natAbs_tmod, Int.natAbs_pow]
    rfl
  have hle : a.amount.toInt.natAbs % 10 ^ a.places ≤ a.amount.toInt.natAbs := Nat.mod_le _ _
  have hrem : Fits 64 (a.amount.toInt.tmod p10.toInt) := by
    unfold Fits
    omega
  refine (Returns.rem hne hrem).bind fun remainder hremainder => ?_
  have hchange : remainder.toInt * (if a.amount.slt 0 then -1 else 1 : BitVec 64).toInt
      = ((a.amount.toInt.natAbs % 10 ^ a.places : ℕ) : ℤ) := by
    rw [hremainder, tmod_mul_invert, hnatAbs]
  have hmul : Fits 64 (remainder.toInt * (if a.amount.slt 0 then -1 else 1 : BitVec 64).toInt) := by
    rw [hchange, Fits]
    omega
  refine (Returns.word hmul).bind fun change hval => ?_
  rw [hchange] at hval
  have hdigits := fractionDigits_returns a.places change buffer
    (by rw [hval]; exact Int.natCast_nonneg _) (by rw [hbuffer]; simp)
  refine hdigits.bind fun digits hdigits => ?_
  have hdiv : Fits 64 (a.amount.toInt.tdiv p10.toInt) := fits_tdiv_of_pos _ (hp10' ▸ hpos)
  refine (Returns.div hne hdiv).bind fun integer hinteger => .pure ?_
  rw [hp10'] at hinteger
  apply snprintf_text h hinteger
  rw [hdigits, hval, hbuffer, Int.natAbs_natCast, List.range_succ, List.map_append,
    List.set_append_right _ _ (by simp), List.drop_append_of_le_length (by simp)]
  simp

/-! ## Exact rendering -/

/-- `to_string` returns the amount in decimal notation, a space and the code. -/
def RendersExactly (a : Asset) : Prop := ∀ memory, a.toString memory
  = pure (fixedPoint a.places a.amount.toInt ++ [' '] ++ a.symbol.code.toString)

/-- The text tells the amount that it shows and the symbol. -/
lemma text_inj (ha : a.isValid = true) (hb : b.isValid = true)
    (h : fixedPoint a.places a.shown ++ [' '] ++ a.symbol.code.toString
      = fixedPoint b.places b.shown ++ [' '] ++ b.symbol.code.toString) :
    a.shown = b.shown ∧ a.symbol = b.symbol := by
  obtain ⟨hacode, hanat⟩ := code_of_isValid ha
  obtain ⟨hbcode, hbnat⟩ := code_of_isValid hb
  -- the space is the only one, since letters, digits, sign and point are none
  have hcut : ∀ c : Asset, c.isValid = true →
      (fixedPoint c.places c.shown ++ [' '] ++ c.symbol.code.toString).reverse.takeWhile (· ≠ ' ')
        = c.symbol.code.toString.reverse := by
    intro c hc
    have hletters := (code_of_isValid hc).1.2
    have hne : ∀ x ∈ c.symbol.code.toString.reverse, decide (x ≠ ' ') = true := by
      intro x hx
      rw [decide_eq_true_eq]
      rintro rfl
      exact absurd (hletters _ (List.mem_reverse.mp hx)).1 (by decide)
    rw [List.reverse_append, List.takeWhile_append_of_pos hne, List.reverse_append]
    simp
  have hcode : a.symbol.code.toString = b.symbol.code.toString := by
    rw [← List.reverse_inj, ← hcut a ha, h, hcut b hb]
  rw [hcode] at h
  have hnotation := List.append_cancel_right (List.append_cancel_right h)
  obtain ⟨hplaces, hshown⟩ := fixedPoint_inj hnotation
  refine ⟨hshown, ?_⟩
  -- the raw symbol is the code with the precision below it
  have hvalue : a.symbol.value.toNat / 256 = b.symbol.value.toNat / 256 := by
    rw [← Symbol.toNat_code, ← Symbol.toNat_code, hanat, hbnat, hcode]
  have hprecision : ∀ c : Asset, c.places = c.symbol.value.toNat % 256 := by
    intro c
    rw [places, Symbol.precision, UInt64.toNat_toUInt8, SymbolCode.toNat_low, Nat.mod_mod]
  rw [hprecision a, hprecision b] at hplaces
  have hraw : a.symbol.value.toNat = b.symbol.value.toNat := by omega
  exact congrArg Symbol.mk (UInt64.toNat_inj.mp hraw)

/-- The amounts of one symbol with the same text. -/
lemma eq_of_shown_eq (hsym : a.symbol = b.symbol) (h : a.shown = b.shown) :
    a = b ∨ a.amount.toInt = -b.amount.toInt ∧ (a.LosesSign ∨ b.LosesSign) := by
  have hsame : a.amount.toInt = b.amount.toInt → a = b := by
    intro hamount
    obtain ⟨amount, symbol⟩ := a
    obtain ⟨amount', symbol'⟩ := b
    rw [Asset.mk.injEq]
    exact ⟨BitVec.toInt_inj.mp hamount, hsym⟩
  unfold shown at h
  split at h <;> split at h
  · exact .inl (hsame (by omega))
  · exact .inr ⟨by omega, .inl ‹_›⟩
  · exact .inr ⟨by omega, .inr ‹_›⟩
  · exact .inl (hsame h)

/-- An amount that loses its sign has the text of its negation. -/
lemma shown_of_losesSign (hloses : a.LosesSign) (hneg : a.amount.toInt = -b.amount.toInt) :
    a.shown = b.shown := by
  have hlt := hloses.2
  have hkeeps : ¬ b.LosesSign := fun hb => by
    have hlt' := hb.2
    omega
  rw [shown, shown, if_pos hloses, if_neg hkeeps]
  omega

lemma rendersExactly_iff (ha : a.isValid = true) (hap : a.places ≤ 18) :
    a.RendersExactly ↔ ¬ a.LosesSign := by
  constructor
  · intro hexact hloses
    have htext := Arith.pure_inj ((toString_eq ha hap fun _ => 'x').symm.trans (hexact _))
    have hnotation := List.append_cancel_right (List.append_cancel_right htext)
    have hshown := (fixedPoint_inj hnotation).2
    rw [shown, if_pos hloses] at hshown
    obtain ⟨-, hneg⟩ := hloses
    omega
  · intro hkeeps memory
    rw [toString_eq ha hap, shown, if_neg hkeeps]

/-- Only an amount that loses its sign and its negation have one string. -/
lemma toString_injective_iff (ha : a.isValid = true) (hb : b.isValid = true) (hap : a.places ≤ 18)
    (hbp : b.places ≤ 18) :
    ((∃ memory memory', a.toString memory = b.toString memory') → a = b) ↔
      ¬ (a.symbol = b.symbol ∧ a.amount.toInt = -b.amount.toInt ∧
        (a.LosesSign ∨ b.LosesSign)) := by
  constructor
  · rintro hinj ⟨hsym, hneg, hloses⟩
    have hshown : a.shown = b.shown := by
      rcases hloses with hloses | hloses
      · exact shown_of_losesSign hloses hneg
      · exact (shown_of_losesSign hloses (by omega)).symm
    have hplaces : a.places = b.places := by rw [places, places, hsym]
    have heq : a = b := by
      refine hinj ⟨fun _ => 'x', fun _ => 'x', ?_⟩
      rw [toString_eq ha hap, toString_eq hb hbp, hshown, hplaces, hsym]
    subst heq
    rcases hloses with ⟨-, hlt⟩ | ⟨-, hlt⟩ <;> omega
  · rintro hnot ⟨memory, memory', hsame⟩
    rw [toString_eq ha hap, toString_eq hb hbp] at hsame
    obtain ⟨hshown, hsym⟩ := text_inj ha hb (Arith.pure_inj hsame)
    rcases eq_of_shown_eq hsym hshown with heq | hmirror
    · exact heq
    · exact absurd ⟨hsym, hmirror⟩ hnot

/-- For valid assets with a precision of at most 18: the string is the exact rendering but for an
amount that loses its sign, and two assets have different strings but for an amount that loses its
sign and its negation. -/
theorem toString_exact_iff (ha : a.isValid = true) (hb : b.isValid = true) (hap : a.places ≤ 18)
    (hbp : b.places ≤ 18) :
    (a.RendersExactly ↔ ¬ a.LosesSign) ∧
    (((∃ memory memory', a.toString memory = b.toString memory') → a = b) ↔
      ¬ (a.symbol = b.symbol ∧ a.amount.toInt = -b.amount.toInt ∧
        (a.LosesSign ∨ b.LosesSign))) :=
  ⟨rendersExactly_iff ha hap, toString_injective_iff ha hb hap hbp⟩

/-- One unit below zero with four digits behind the point. -/
theorem toString_exact_iff_units :
    let a : Asset := ⟨-1, ⟨0x4104⟩⟩
    let b : Asset := ⟨1, ⟨0x4104⟩⟩
    (a.RendersExactly ↔ ¬ a.LosesSign) ∧
    (((∃ memory memory', a.toString memory = b.toString memory') → a = b) ↔
      ¬ (a.symbol = b.symbol ∧ a.amount.toInt = -b.amount.toInt ∧
        (a.LosesSign ∨ b.LosesSign))) :=
  toString_exact_iff (by decide) (by decide) (by decide) (by decide)

/-- The asset `-0.0001 A` has the string of `0.0001 A`. -/
theorem exists_sign_lost : ¬ ∀ a b : Asset, a.isValid = true → b.isValid = true →
    a.places ≤ 18 → b.places ≤ 18 →
    a.RendersExactly ∧ ((∃ memory memory', a.toString memory = b.toString memory') → a = b) := by
  intro h
  obtain ⟨-, hinj⟩ := h ⟨-1, ⟨0x4104⟩⟩ ⟨1, ⟨0x4104⟩⟩ (by decide) (by decide) (by decide) (by decide)
  have hsame : toString ⟨-1, ⟨0x4104⟩⟩ (fun _ => 'x') = toString ⟨1, ⟨0x4104⟩⟩ fun _ => 'x' := by
    rw [toString_eq (by decide) (by decide), toString_eq (by decide) (by decide)]
    exact congrArg pure (by decide)
  exact absurd (hinj ⟨_, _, hsame⟩) (by decide)

/-! ## Safety -/

/-- `to_string` returns without a fault, whatever the memory holds, and the string ends with the
digits of the fraction and the code. -/
def RendersSafely (a : Asset) : Prop := ∃ text, (∀ memory, a.toString memory = pure text) ∧
  ∃ head, '.' ∉ head ∧ text = head ++ fraction a.places (a.amount.toInt.natAbs % 10 ^ a.places)
    ++ [' '] ++ a.symbol.code.toString

/-- `to_string` of a valid asset is safe exactly up to a precision of 18. -/
theorem rendersSafely_iff (h : a.isValid = true) : a.RendersSafely ↔ a.places ≤ 18 := by
  constructor
  · rintro ⟨text, htext, -⟩
    by_contra hp
    have hwrapped : (a.toString fun _ => 'x').wrapped = true :=
      wrapped_bind (powerOfTen_wrapped (Nat.not_le.mp hp)) _
    rw [htext] at hwrapped
    cases hwrapped
  · intro hp
    refine ⟨_, toString_eq h hp, signed (a.amount.toInt.tdiv (10 ^ a.places)), ?_, ?_⟩
    · have hdigits : ∀ n, '.' ∉ Nat.toDigits 10 n := fun n =>
        not_mem_of_isDigit (isDigit_toDigits n) (by decide)
      rw [signed, List.mem_append, not_or]
      refine ⟨?_, hdigits _⟩
      split
      · decide
      · exact List.not_mem_nil
    · rw [signed_append_fraction]

/-- An amount of 1 with two digits behind the point. -/
theorem rendersSafely_iff_one :
    RendersSafely ⟨1, ⟨0x4102⟩⟩ ↔ places ⟨1, ⟨0x4102⟩⟩ ≤ 18 :=
  rendersSafely_iff (by decide)

/-- The asset of one unit with 19 digits behind the point. -/
theorem exists_unsafe : ¬ ∀ a : Asset, a.isValid = true → a.RendersSafely := by
  intro h
  obtain ⟨text, htext, -⟩ := h ⟨1, ⟨0x4113⟩⟩ (by decide)
  have hwrapped : (toString ⟨1, ⟨0x4113⟩⟩ fun _ => 'x').wrapped = true :=
    wrapped_bind (powerOfTen_wrapped (show 18 < 19 by decide)) _
  rw [htext] at hwrapped
  cases hwrapped

end text

end Asset

end UosioCdt.Core
