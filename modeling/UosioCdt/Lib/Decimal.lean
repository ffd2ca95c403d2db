import Mathlib.Data.Int.Basic
import Mathlib.Algebra.Order.Ring.Nat
import Mathlib.Tactic.Ring

/-!
# Decimal notation with a fixed number of digits behind the point

* `lowDigits`: the lowest digits of a number, with leading zeros;
* `fixedPoint p a`: the notation of `a / 10 ^ p` with `p` digits behind the point;
* the digits of a notation denote the number (`ofDigitChars_digits`), and different numbers or
  different places of the point have different notations (`fixedPoint_inj`).
-/

namespace Decimal

open Nat

/-- The lowest `p` digits of a number. -/
def lowDigits : ℕ → ℕ → List Char
  | 0, _ => []
  | p + 1, n => lowDigits p (n / 10) ++ [digitChar (n % 10)]

/-- A signed number. -/
def signed (a : ℤ) : List Char := (if a < 0 then ['-'] else []) ++ toDigits 10 a.natAbs

/-- The point and the digits behind it; without digits there is no point. -/
def fraction (p n : ℕ) : List Char := if p = 0 then [] else '.' :: lowDigits p n

/-- The notation of `a / 10 ^ p` with `p` digits behind the point. -/
def fixedPoint (p : ℕ) (a : ℤ) : List Char :=
  (if a < 0 then ['-'] else []) ++ toDigits 10 (a.natAbs / 10 ^ p)
    ++ fraction p (a.natAbs % 10 ^ p)

/-! ## Digits -/

@[simp] lemma length_lowDigits (p n : ℕ) : (lowDigits p n).length = p := by
  induction p generalizing n with
  | zero => rfl
  | succ p ih => rw [lowDigits, List.length_append, ih, List.length_singleton]

lemma isDigit_lowDigits {p n : ℕ} : ∀ c ∈ lowDigits p n, c.isDigit = true := by
  induction p generalizing n with
  | zero =>
    intro c hc
    cases hc
  | succ p ih =>
    intro c hc
    rw [lowDigits, List.mem_append, List.mem_singleton] at hc
    rcases hc with hc | rfl
    · exact ih c hc
    · rw [isDigit_digitChar, decide_eq_true_eq]
      exact Nat.mod_lt _ (by decide)

lemma isDigit_toDigits (n : ℕ) : ∀ c ∈ toDigits 10 n, c.isDigit = true :=
  fun _ hc => isDigit_of_mem_toDigits (by decide) (by decide) hc

/-- The lowest digits denote the remainder. -/
lemma ofDigitChars_lowDigits (p n init : ℕ) :
    ofDigitChars 10 (lowDigits p n) init = 10 ^ p * init + n % 10 ^ p := by
  induction p generalizing n with
  | zero => simp [lowDigits, Nat.mod_one]
  | succ p ih =>
    have hlast : n % 10 < 10 := Nat.mod_lt _ (by decide)
    have hsplit : n % 10 ^ (p + 1) = n % 10 + 10 * (n / 10 % 10 ^ p) := by
      rw [Nat.pow_succ, Nat.mul_comm (10 ^ p) 10, Nat.mod_mul]
    rw [lowDigits, ofDigitChars_append, ih, ofDigitChars_cons_digitChar_of_lt_ten hlast,
      ofDigitChars_nil, hsplit]
    ring

/-! ## Notations -/

/-- The digits of a notation. -/
lemma filter_fixedPoint (p : ℕ) (a : ℤ) : (fixedPoint p a).filter Char.isDigit
    = toDigits 10 (a.natAbs / 10 ^ p) ++ lowDigits p (a.natAbs % 10 ^ p) := by
  have hsign : (if a < 0 then ['-'] else []).filter Char.isDigit = [] := by split <;> rfl
  have hpoint : (fraction p (a.natAbs % 10 ^ p)).filter Char.isDigit
      = lowDigits p (a.natAbs % 10 ^ p) := by
    unfold fraction
    split
    · rename_i hp
      subst hp
      rfl
    · rw [List.filter_cons_of_neg (by decide), List.filter_eq_self.mpr isDigit_lowDigits]
  rw [fixedPoint, List.filter_append, List.filter_append, hsign, hpoint,
    List.filter_eq_self.mpr (isDigit_toDigits _), List.nil_append]

/-- The digits of a notation denote the magnitude of the number. -/
theorem ofDigitChars_digits (p : ℕ) (a : ℤ) :
    ofDigitChars 10 ((fixedPoint p a).filter Char.isDigit) 0 = a.natAbs := by
  rw [filter_fixedPoint, ofDigitChars_append, ofDigitChars_toDigits (by decide) (by decide),
    ofDigitChars_lowDigits, Nat.mod_mod]
  exact Nat.div_add_mod _ _

lemma not_mem_of_isDigit {l : List Char} {c : Char} (h : ∀ d ∈ l, d.isDigit = true)
    (hc : c.isDigit = false) : c ∉ l := by
  intro hmem
  rw [h c hmem] at hc
  cases hc

/-- What stands behind the first point. -/
lemma dropWhile_fixedPoint (p : ℕ) (a : ℤ) :
    (fixedPoint p a).dropWhile (· ≠ '.') = fraction p (a.natAbs % 10 ^ p) := by
  have hhead : ∀ c ∈ (if a < 0 then ['-'] else []) ++ toDigits 10 (a.natAbs / 10 ^ p), c ≠ '.' := by
    intro c hc hdot
    subst hdot
    rcases List.mem_append.mp hc with hsign | hdigit
    · split at hsign <;> simp at hsign
    · exact not_mem_of_isDigit (isDigit_toDigits _) (by decide) hdigit
  rw [fixedPoint, List.dropWhile_append_of_pos fun c hc => decide_eq_true (hhead c hc), fraction]
  split <;> rfl

/-- The notation is negative when the number is. -/
lemma mem_minus_fixedPoint {p : ℕ} {a : ℤ} : '-' ∈ fixedPoint p a ↔ a < 0 := by
  have hdigits : '-' ∉ toDigits 10 (a.natAbs / 10 ^ p) :=
    not_mem_of_isDigit (isDigit_toDigits _) (by decide)
  have hfraction : '-' ∉ fraction p (a.natAbs % 10 ^ p) := by
    unfold fraction
    split
    · exact List.not_mem_nil
    · rw [List.mem_cons, not_or]
      exact ⟨by decide, not_mem_of_isDigit isDigit_lowDigits (by decide)⟩
  rw [fixedPoint, List.mem_append, List.mem_append]
  by_cases ha : a < 0 <;> simp [ha, hdigits, hfraction]

/-- A notation tells the number and the place of the point. -/
theorem fixedPoint_inj {p q : ℕ} {a b : ℤ} (h : fixedPoint p a = fixedPoint q b) :
    p = q ∧ a = b := by
  have habs : a.natAbs = b.natAbs := by
    rw [← ofDigitChars_digits p a, h, ofDigitChars_digits]
  have hsign : a < 0 ↔ b < 0 := by rw [← mem_minus_fixedPoint (p := p), h, mem_minus_fixedPoint]
  have hpoint : fraction p (a.natAbs % 10 ^ p) = fraction q (b.natAbs % 10 ^ q) := by
    rw [← dropWhile_fixedPoint, h, dropWhile_fixedPoint]
  have hlen : ∀ r n, (fraction r n).length = if r = 0 then 0 else r + 1 := by
    intro r n
    unfold fraction
    split
    · rfl
    · rw [List.length_cons, length_lowDigits]
  have hplaces := congrArg List.length hpoint
  rw [hlen, hlen] at hplaces
  constructor
  · split at hplaces <;> split at hplaces <;> omega
  · omega

end Decimal
