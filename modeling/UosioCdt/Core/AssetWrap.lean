import UosioCdt.Core.AssetTheorems

/-!
# Asset arithmetic on any words

Reading an asset from a stream checks no range, so the amounts can be any words. `+=` and `-=` check
the range of the wrapped result, and `/=` checks no range; the theorem says on which amounts they
are exact all the same.
-/

namespace UosioCdt.Core

open WrapArith

/-- The operator returns nothing but the exact result, in range. -/
def Sound (x : Op Asset) (y : Option Exact.Quantity) : Prop :=
  ∀ r, x.value = .ok r → y = some r.exact

/-- The largest sum or difference that no wrapping takes back into the range. -/
def wrapFree : ℤ := 2 ^ 64 - 2 ^ 62

/-! ## The results of the operators -/

/-- The range checks let a word pass when it is in range. -/
lemma range_value (a : Asset) (w : BitVec 64) (msg₁ msg₂ : String) (r : Asset) :
    (do check ((-maxAmount).sle w) msg₁
        check (w.sle maxAmount) msg₂
        return { a with amount := w } : Op Asset).value = .ok r ↔
      |w.toInt| ≤ Exact.limit ∧ r = { a with amount := w } := by
  have hlo : (-maxAmount).sle w = true ↔ -Exact.limit ≤ w.toInt := by
    rw [BitVec.sle_iff_toInt_le, toInt_neg_maxAmount]
  have hhi : w.sle maxAmount = true ↔ w.toInt ≤ Exact.limit := by
    rw [BitVec.sle_iff_toInt_le, toInt_maxAmount]
  rw [abs_le, ← hlo, ← hhi]
  unfold check
  rw [Arith.check_value, Arith.check_value]
  cases (-maxAmount).sle w with
  | false => exact ⟨fun h => (by cases h), fun h => absurd h.1.1 Bool.false_ne_true⟩
  | true =>
    cases w.sle maxAmount with
    | false => exact ⟨fun h => (by cases h), fun h => absurd h.1.2 Bool.false_ne_true⟩
    | true => exact ⟨fun h => ⟨⟨rfl, rfl⟩, (Except.ok.inj h).symm⟩, fun h => by rw [h.2]; rfl⟩

variable {a b : Asset} {k : BitVec 64} {r : Asset}

lemma addAssign_value (hsym : b.symbol = a.symbol) :
    (a.addAssign b).value = .ok r ↔ |(a.amount + b.amount).toInt| ≤ Exact.limit ∧
      r = { a with amount := a.amount + b.amount } := by
  rw [← range_value a _ "addition underflow" "addition overflow", Asset.addAssign, check,
    Arith.check_value, if_pos (decide_eq_true hsym), Arith.bind_value (add_value _ _)]

lemma subAssign_value (hsym : b.symbol = a.symbol) :
    (a.subAssign b).value = .ok r ↔ |(a.amount - b.amount).toInt| ≤ Exact.limit ∧
      r = { a with amount := a.amount - b.amount } := by
  rw [← range_value a _ "subtraction underflow" "subtraction overflow", Asset.subAssign, check,
    Arith.check_value, if_pos (decide_eq_true hsym), Arith.bind_value (sub_value _ _)]

/-- A quotient of words fits but for one pair. -/
lemma fits_tdiv (h : ¬ (a.amount = BitVec.intMin 64 ∧ k = -1)) :
    Fits 64 (a.amount.toInt.tdiv k.toInt) := by
  rw [← BitVec.toInt_sdiv_of_ne_or_ne _ _ (by tauto)]
  exact fits_toInt _

lemma divAssign_value (hk : k ≠ 0) :
    (a.divAssign k).value = .ok r ↔ ¬ (a.amount = BitVec.intMin 64 ∧ k = -1) ∧
      r = { a with amount := BitVec.ofInt 64 (a.amount.toInt.tdiv k.toInt) } := by
  unfold Asset.divAssign check
  rw [Arith.check_value, if_pos (decide_eq_true hk), Arith.check_value]
  by_cases hmin : a.amount = BitVec.intMin 64 ∧ k = -1
  · rw [if_neg (by simp [hmin])]
    exact ⟨fun h => (by cases h), fun h => absurd hmin h.1⟩
  · have hdiv : (WrapArith.div .trap a.amount k : Op _).value
        = .ok (BitVec.ofInt 64 (a.amount.toInt.tdiv k.toInt)) := by
      rw [WrapArith.div, if_neg (not_or.mpr ⟨hk, not_not.mpr (fits_tdiv hmin)⟩)]
      rfl
    rw [if_pos (by simp; tauto), Arith.bind_value hdiv]
    exact ⟨fun h => ⟨hmin, (Except.ok.inj h).symm⟩, fun h => by rw [h.2]; rfl⟩

/-! ## Where the operators are exact -/

/-- A word in range is the integer when wrapping cannot take the integer back into the range. -/
lemma bmod_in_range_iff {n : ℤ} (hlo : -(2 ^ 64) ≤ n) (hhi : n ≤ 2 ^ 64) :
    (|n.bmod (2 ^ 64)| ≤ Exact.limit → |n| ≤ Exact.limit ∧ n.bmod (2 ^ 64) = n) ↔ |n| ≤ wrapFree := by
  rw [abs_le, abs_le, abs_le, Exact.limit, wrapFree, Int.bmod_def]
  split <;> omega

/-- An operator that checks the range of a wrapped word. -/
lemma sound_wrapped_iff {x : Op Asset} {w : BitVec 64} {n : ℤ} (hn : |n| ≤ 2 ^ 64)
    (hw : w.toInt = n.bmod (2 ^ 64))
    (hx : ∀ r, x.value = .ok r ↔ |w.toInt| ≤ Exact.limit ∧ r = { a with amount := w }) :
    Sound x (Exact.quantity n a.symbol) ↔ |n| ≤ wrapFree := by
  obtain ⟨hlo, hhi⟩ := abs_le.mp hn
  rw [← bmod_in_range_iff hlo hhi, ← hw]
  constructor
  · intro hsound hrange
    have hexact := hsound _ ((hx _).mpr ⟨hrange, rfl⟩)
    unfold Exact.quantity at hexact
    split at hexact
    · rename_i hin
      rw [Option.some.injEq, Asset.exact, Exact.Quantity.mk.injEq] at hexact
      exact ⟨hin, hexact.1.symm⟩
    · cases hexact
  · intro h r hr
    obtain ⟨hrange, rfl⟩ := (hx r).mp hr
    obtain ⟨hin, hsame⟩ := h hrange
    rw [Exact.quantity, if_pos hin, Asset.exact, hsame]

/-- A sum or a difference of two words. -/
lemma abs_le_of_words (x y : BitVec 64) :
    |x.toInt + y.toInt| ≤ 2 ^ 64 ∧ |x.toInt - y.toInt| ≤ 2 ^ 64 := by
  have hx := fits_toInt x
  have hy := fits_toInt y
  unfold Fits at hx hy
  rw [abs_le, abs_le]
  omega

lemma sound_addAssign_iff (hsym : b.symbol = a.symbol) :
    Sound (a.addAssign b) (Exact.add a.exact b.exact) ↔
      |a.amount.toInt + b.amount.toInt| ≤ wrapFree := by
  have hadd : Exact.add a.exact b.exact
      = Exact.quantity (a.amount.toInt + b.amount.toInt) a.symbol := if_pos hsym
  rw [hadd]
  exact sound_wrapped_iff (abs_le_of_words _ _).1 (BitVec.toInt_add _ _)
    fun r => addAssign_value hsym

lemma sound_subAssign_iff (hsym : b.symbol = a.symbol) :
    Sound (a.subAssign b) (Exact.sub a.exact b.exact) ↔
      |a.amount.toInt - b.amount.toInt| ≤ wrapFree := by
  have hsub : Exact.sub a.exact b.exact
      = Exact.quantity (a.amount.toInt - b.amount.toInt) a.symbol := if_pos hsym
  rw [hsub]
  exact sound_wrapped_iff (abs_le_of_words _ _).2 BitVec.toInt_sub
    fun r => subAssign_value hsym

/-- The quotients in range. -/
lemma abs_tdiv_le_limit_iff {m n : ℤ} (hn : n ≠ 0) :
    |m.tdiv n| ≤ Exact.limit ↔ |m| < 2 ^ 62 * |n| := by
  have hpos : 0 < n.natAbs := Int.natAbs_pos.mpr hn
  have hdiv : m.natAbs / n.natAbs < 2 ^ 62 ↔ m.natAbs < 2 ^ 62 * n.natAbs :=
    Nat.div_lt_iff_lt_mul hpos
  rw [Int.abs_eq_natAbs, Int.abs_eq_natAbs, Int.abs_eq_natAbs, Int.natAbs_tdiv, Exact.limit]
  show ((m.natAbs / n.natAbs : ℕ) : ℤ) ≤ 2 ^ 62 - 1 ↔ _
  omega

lemma sound_divAssign_iff (hk : k ≠ 0) :
    Sound (a.divAssign k) (Exact.div a.exact k.toInt) ↔
      |a.amount.toInt| < 2 ^ 62 * |k.toInt| ∨ (a.amount = BitVec.intMin 64 ∧ k = -1) := by
  have hdiv : Exact.div a.exact k.toInt
      = Exact.quantity (a.amount.toInt.tdiv k.toInt) a.symbol := if_pos (Asset.toInt_ne_zero_iff.mp hk)
  rw [hdiv, ← abs_tdiv_le_limit_iff (Asset.toInt_ne_zero_iff.mp hk)]
  constructor
  · intro hsound
    by_cases hmin : a.amount = BitVec.intMin 64 ∧ k = -1
    · exact .inr hmin
    · have hexact := hsound _ ((divAssign_value hk).mpr ⟨hmin, rfl⟩)
      unfold Exact.quantity at hexact
      split at hexact
      · exact .inl ‹_›
      · cases hexact
  · rintro (hrange | hmin) r hr
    · obtain ⟨-, rfl⟩ := (divAssign_value hk).mp hr
      rw [Exact.quantity, if_pos hrange, Asset.exact, toInt_ofInt (fits_of_abs_le hrange)]
    · exact absurd hmin ((divAssign_value hk).mp hr).1

/-- On assets of one symbol with any words as amounts: a sum and a difference are exact or refused
when they do not pass `wrapFree`, and a quotient when it is in range or the one that the check
refuses. -/
theorem sound_iff (hsym : b.symbol = a.symbol) (hk : k ≠ 0) :
    (Sound (a.addAssign b) (Exact.add a.exact b.exact) ∧
      Sound (a.subAssign b) (Exact.sub a.exact b.exact) ∧
      Sound (a.divAssign k) (Exact.div a.exact k.toInt)) ↔
    |a.amount.toInt + b.amount.toInt| ≤ wrapFree ∧
      |a.amount.toInt - b.amount.toInt| ≤ wrapFree ∧
      (|a.amount.toInt| < 2 ^ 62 * |k.toInt| ∨ (a.amount = BitVec.intMin 64 ∧ k = -1)) := by
  rw [sound_addAssign_iff hsym, sound_subAssign_iff hsym, sound_divAssign_iff hk]

/-- The smallest word, added to itself and divided by -1. -/
theorem sound_iff_min :
    let a : Asset := ⟨BitVec.intMin 64, ⟨0⟩⟩
    (Sound (a.addAssign a) (Exact.add a.exact a.exact) ∧
      Sound (a.subAssign a) (Exact.sub a.exact a.exact) ∧
      Sound (a.divAssign (-1)) (Exact.div a.exact (-1 : BitVec 64).toInt)) ↔
    |a.amount.toInt + a.amount.toInt| ≤ wrapFree ∧
      |a.amount.toInt - a.amount.toInt| ≤ wrapFree ∧
      (|a.amount.toInt| < 2 ^ 62 * |(-1 : BitVec 64).toInt| ∨
        (a.amount = BitVec.intMin 64 ∧ (-1 : BitVec 64) = -1)) :=
  sound_iff rfl (by decide)

/-- The smallest word twice is 0. -/
theorem exists_unsound : ¬ ∀ (a b : Asset) (k : BitVec 64), b.symbol = a.symbol → k ≠ 0 →
    Sound (a.addAssign b) (Exact.add a.exact b.exact) ∧
      Sound (a.subAssign b) (Exact.sub a.exact b.exact) ∧
      Sound (a.divAssign k) (Exact.div a.exact k.toInt) := by
  intro h
  have hsound := h ⟨BitVec.intMin 64, ⟨0⟩⟩ ⟨BitVec.intMin 64, ⟨0⟩⟩ 1 rfl (by decide)
  have hsum := hsound.1 ⟨0, ⟨0⟩⟩ (by decide)
  exact absurd (congrArg Option.isSome hsum) (by decide)

end UosioCdt.Core
